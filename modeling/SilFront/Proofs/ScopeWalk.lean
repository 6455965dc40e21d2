import SilFront.Proofs.Effects
import SilFront.Proofs.Names

/-!
# Notes on scopes

The notes of a listing follow the scopes of the table of names. Every change of scope is noted with
the depth that it leads to, which is one more or one less than before, and every declaration is
noted with the depth at which it is made (`Pass.Mirrors`). This is so in every state that a pass can
reach, also if it goes on after an error that has left some scopes open
(`Pass.mirrors_after_programs`).

A program that is accepted leaves all scopes that it enters. So it comes back to the depth at which
it has started, and adds to the scopes that were open there just the variables that are noted at
this depth.
-/

namespace SilFront

/-! ### Walks -/

namespace Entry

/-- The depth to which an entry changes the scope. -/
def newDepth? : Entry → Option Nat
  | .note (.scopeChanged depth) => some depth
  | _ => none

/-- The variable or argument that an entry declares. -/
def declared? : Entry → Option Variable
  | .note (.argumentDeclared name type depth) => some ⟨name, type, depth⟩
  | .note (.variableDeclared name type depth _) => some ⟨name, type, depth⟩
  | _ => none

/-- The depths to which entries change the scope, one after the other. -/
def depths (entries : List Entry) : List Nat :=
  entries.filterMap newDepth?

/-- The variables and arguments that entries declare at a depth. -/
def declaredAt (depth : Nat) (entries : List Entry) : List Variable :=
  (entries.filterMap declared?).filter fun v => v.depth = depth

/-- An entry that names no new depth adds no depth. -/
theorem depths_cons_of_none {entry : Entry} (h : entry.newDepth? = none) (entries : List Entry) :
  depths (entry :: entries) = depths entries
  := List.filterMap_cons_none h

/-- An entry that names a new depth puts it before the others. -/
theorem depths_cons_of_some {entry : Entry} {depth : Nat} (h : entry.newDepth? = some depth)
    (entries : List Entry) :
  depths (entry :: entries) = depth :: depths entries
  := List.filterMap_cons_some h

/-- The variables of a depth in a listing are those of its parts in turn. -/
@[simp]
theorem declaredAt_append (depth : Nat) (first second : List Entry) :
  declaredAt depth (first ++ second) = declaredAt depth first ++ declaredAt depth second
  := by
  simp [declaredAt]

/-- An entry that declares a variable names no new depth. -/
theorem newDepth?_eq_none_of_declared? {entry : Entry} {v : Variable}
    (h : entry.declared? = some v) :
  entry.newDepth? = none
  := by
  unfold declared? at h
  split at h
  · rfl
  · rfl
  · cases h

end Entry

open Entry

/-- Depths of which one is just inside the other. -/
def Adjacent (depth depth' : Nat) : Prop :=
  depth' = depth + 1 ∨ depth = depth' + 1

/-- Reads the depth of the innermost scope off a listing. A change of scope goes one step in or out,
and a variable is declared in the innermost scope. -/
def scopeWalk : Replay Nat where
  after depth entry := entry.newDepth?.getD depth
  Allows depth entry :=
    (∀ depth', entry.newDepth? = some depth' → Adjacent depth depth') ∧
      ∀ v, entry.declared? = some v → v.depth = depth

namespace scopeWalk

variable {depth depth' : Nat} {entries : List Entry}

/-- Entries that have nothing to do with scopes. -/
theorem leads_of_plain (h : ∀ e ∈ entries, e.newDepth? = none ∧ e.declared? = none) :
  scopeWalk.Leads depth entries depth
  := by
  induction entries with
  | nil => exact .nil
  | cons e entries ih =>
    obtain ⟨⟨hnew, hdeclared⟩, hrest⟩ := List.forall_mem_cons.mp h
    apply Replay.Leads.cons
    · simp [scopeWalk, hnew, hdeclared]
    · simpa [scopeWalk, hnew] using ih hrest

/-- A declaration at the current depth keeps it. -/
theorem leads_declared {e : Entry} {v : Variable} (h : e.declared? = some v)
    (hv : v.depth = depth) :
  scopeWalk.Leads depth [e] depth
  := by
  have hnew := newDepth?_eq_none_of_declared? h
  have hafter : scopeWalk.after depth e = depth := by simp [scopeWalk, hnew]
  apply Replay.Leads.cons
  · simp [scopeWalk, hnew, h, hv]
  · rw [hafter]
    exact .nil

/-- An entered or left scope leads to the depth that is noted. -/
theorem leads_scopeChanged (h : Adjacent depth depth') :
  scopeWalk.Leads depth [.note (.scopeChanged depth')] depth'
  := by
  apply Replay.Leads.cons _ .nil
  simpa [scopeWalk, newDepth?, declared?] using h

/-- The current depth is the last one that was noted. -/
theorem state_eq (depth : Nat) (entries : List Entry) :
  scopeWalk.state depth entries = (depths entries).getLastD depth
  := by
  induction entries generalizing depth with
  | nil => rfl
  | cons e entries ih =>
    apply (ih (e.newDepth?.getD depth)).trans
    cases h : e.newDepth? with
    | none =>
      rw [depths_cons_of_none h]
      rfl
    | some d =>
      rw [depths_cons_of_some h, List.getLastD_cons]
      rfl

/-- Along a walk, each noted depth is next to the one before it. -/
theorem isChain_depths (h : scopeWalk.Leads depth entries depth') :
  (depth :: depths entries).IsChain Adjacent
  := by
  induction h with
  | nil => exact .singleton _
  | @cons depth _ e _ allowed _ ih =>
    cases h : e.newDepth? with
    | none =>
      rw [depths_cons_of_none h]
      simpa [scopeWalk, h] using ih
    | some d =>
      rw [depths_cons_of_some h]
      apply List.IsChain.cons_cons (allowed.1 d h)
      simpa [scopeWalk, h] using ih

end scopeWalk

/-! ### What becomes of the scopes -/

namespace SymbolTable

variable {T T' : SymbolTable}

theorem depth_eq_of_length_scopes (h : T'.scopes.length = T.scopes.length) :
  T'.depth = T.depth
  := by
  rw [length_scopes, length_scopes] at h
  omega

/-- A change of the innermost scope keeps the depth. -/
theorem depth_eq_of_modifyHead {change : Scope → Scope}
    (h : T'.scopes = T.scopes.modifyHead change) :
  T'.depth = T.depth
  := by
  apply depth_eq_of_length_scopes
  rw [h, List.length_modifyHead]

/-- A declared variable is added to the innermost scope, with its depth. -/
theorem scopes_of_declareVariable {name : String} {type : DataType}
    (h : T.declareVariable name type = .ok T') :
  T'.scopes = T.scopes.modifyHead (· ++ [⟨name, type, T.depth⟩])
  := by
  obtain ⟨-, rfl⟩ := declareVariable_eq_ok_iff.mp h
  obtain ⟨scope, outer, hscopes, hscopes'⟩ := T.scopes_withVariable name type
  rw [hscopes', hscopes]
  rfl

end SymbolTable

namespace Pass

/-- The entries that are written between two states follow the depth. -/
structure Walks (s t : Pass) (added : List Entry) : Prop where
  listing : t.listing.toList = s.listing.toList ++ added
  leads : scopeWalk.Leads s.symbols.depth added t.symbols.depth

/-- Between two states, no scope is left but those that were entered, and the scopes that were open
are as before but for the variables that are noted. -/
structure Settles (s t : Pass) (added : List Entry) : Prop extends s.Walks t added where
  deeper : ∀ v ∈ added.filterMap declared?, s.symbols.depth ≤ v.depth
  scopes : t.symbols.scopes =
    s.symbols.scopes.modifyHead (· ++ declaredAt s.symbols.depth added)

variable {s t u : Pass} {added added' : List Entry}

/-- Walks of scopes go on from each other. -/
theorem Walks.trans (h : s.Walks t added) (h' : t.Walks u added') :
  s.Walks u (added ++ added')
  := by
  constructor
  · rw [h'.listing, h.listing, List.append_assoc]
  · apply h.leads.append h'.leads

namespace Settles

/-- What settles returns to the depth at which it began. -/
theorem depth_eq (h : s.Settles t added) :
  t.symbols.depth = s.symbols.depth
  := SymbolTable.depth_eq_of_modifyHead h.scopes

/-- What settles in turn settles as a whole. -/
theorem trans (h : s.Settles t added) (h' : t.Settles u added') :
  s.Settles u (added ++ added')
  := by
  refine ⟨h.toWalks.trans h'.toWalks, ?_, ?_⟩
  · rw [List.filterMap_append, List.forall_mem_append]
    use h.deeper
    rw [← h.depth_eq]
    apply h'.deeper
  · rw [h'.scopes, h.scopes, h.depth_eq, List.modifyHead_modifyHead, declaredAt_append]
    congr 1
    funext scope
    apply List.append_assoc

/-- Entries that have nothing to do with scopes, and a table with the same scopes. -/
theorem of_plain (hplain : ∀ e ∈ added, e.newDepth? = none ∧ e.declared? = none)
    (hlisting : t.listing.toList = s.listing.toList ++ added)
    (hscopes : t.symbols.scopes = s.symbols.scopes) :
  s.Settles t added
  := by
  have hdepth := SymbolTable.depth_eq_of_length_scopes (congrArg List.length hscopes)
  have hdeclared : added.filterMap declared? = [] := by
    rw [List.filterMap_eq_nil_iff]
    intro e he
    apply (hplain e he).2
  refine ⟨⟨hlisting, ?_⟩, ?_, ?_⟩
  · rw [hdepth]
    apply scopeWalk.leads_of_plain hplain
  · simp [hdeclared]
  · rw [hscopes, declaredAt, hdeclared]
    cases s.symbols.scopes <;> simp

/-- A declaration in the innermost scope settles, if the listing and the table tell the same of
it. -/
theorem of_declared {e : Entry} {v : Variable} (hdeclared : e.declared? = some v)
    (hv : v.depth = s.symbols.depth) (hlisting : t.listing.toList = s.listing.toList ++ [e])
    (hscopes : t.symbols.scopes = s.symbols.scopes.modifyHead (· ++ [v])) :
  s.Settles t [e]
  := by
  have hdepth := SymbolTable.depth_eq_of_modifyHead hscopes
  refine ⟨⟨hlisting, ?_⟩, ?_, ?_⟩
  · rw [hdepth]
    apply scopeWalk.leads_declared hdeclared hv
  · simp [hdeclared, hv]
  · simp [declaredAt, hdeclared, hv, hscopes]

end Settles

/-- Entering a scope is a walk one deeper. -/
theorem walks_enter (s : Pass) :
  s.Walks (s.reach s.position s.symbols.enter [.note (.scopeChanged (s.symbols.depth + 1))])
    [.note (.scopeChanged (s.symbols.depth + 1))]
  := ⟨Listing.toList_append .., scopeWalk.leads_scopeChanged (.inl rfl)⟩

/-- Leaving a scope is a walk one less deep. -/
theorem walks_exit (h : s.symbols.depth = s.symbols.exit.depth + 1) :
  s.Walks (s.reach s.position s.symbols.exit [.note (.scopeChanged s.symbols.exit.depth)])
    [.note (.scopeChanged s.symbols.exit.depth)]
  := ⟨Listing.toList_append .., scopeWalk.leads_scopeChanged (.inr h)⟩

/-- Leaving a scope leads back to the scopes around it. -/
theorem settles_scope
    (h : (s.reach s.position s.symbols.enter
      [.note (.scopeChanged (s.symbols.depth + 1))]).Settles t added) :
  ∃ added', s.Settles
    (t.reach t.position t.symbols.exit [.note (.scopeChanged t.symbols.exit.depth)]) added'
  := by
  have hscopes : t.symbols.exit.scopes = s.symbols.scopes := by
    have hinside : 0 < t.symbols.depth := by
      rw [h.depth_eq]
      apply Nat.succ_pos
    have hscopes := h.scopes
    rw [SymbolTable.scopes_eq_leaving_cons hinside] at hscopes
    apply (List.cons.inj hscopes).2
  have hexit := SymbolTable.depth_eq_of_length_scopes (congrArg List.length hscopes)
  have hdepth : t.symbols.depth = t.symbols.exit.depth + 1 := by
    rw [h.depth_eq, hexit]
    rfl
  have hdeeper : ∀ v ∈ added.filterMap declared?, s.symbols.depth < v.depth := h.deeper
  refine ⟨_, (s.walks_enter.trans h.toWalks).trans (walks_exit hdepth), ?_, ?_⟩
  · intro v hv
    apply Nat.le_of_lt (hdeeper v _)
    simpa [declared?] using hv
  · have hnone : declaredAt s.symbols.depth added = [] := by
      rw [declaredAt, List.filter_eq_nil_iff]
      intro v hv
      simpa using Nat.ne_of_gt (hdeeper v hv)
    rw [declaredAt_append, declaredAt_append, hnone]
    apply hscopes.trans
    cases s.symbols.scopes <;> simp [declaredAt, declared?]

end Pass

/-! ### Programs -/

namespace Effect

open PassM

/-- The effect of programs on scopes: all of them are left again, unless an error prevents it. -/
def scoping : Effect where
  Done s t := ∃ added, s.Settles t added
  Stopped s t := ∃ added, s.Walks t added
  of_eq := by
    intro s t hsymbols hlisting _
    have h : s.Settles t [] := .of_plain (by simp) (by simp [hlisting]) (by rw [hsymbols])
    exact ⟨⟨[], h⟩, [], h.toWalks⟩
  done_trans := by
    rintro s t u ⟨added, h⟩ ⟨added', h'⟩
    exact ⟨_, h.trans h'⟩
  stopped_trans := by
    rintro s t u ⟨added, h⟩ ⟨added', h'⟩
    exact ⟨_, h.toWalks.trans h'⟩

/-- Operations have nothing to do with scopes. -/
theorem scoping_of_emission {α : Type} {a : PassM α} (h : emission.Of a) :
  scoping.Of a
  := by
  have hsettles : ∀ {s t : Pass}, s.Emits t → ∃ added, s.Settles t added := by
    intro s t hst
    obtain ⟨code, hcode⟩ := hst.listing
    use code.map .operation
    apply Pass.Settles.of_plain _ hcode (by rw [hst.symbols])
    simp [newDepth?, declared?]
  constructor
  · intro s t x hrun
    apply hsettles (h.done hrun)
  · intro s t e hrun
    obtain ⟨added, hadded⟩ := hsettles (h.stopped hrun)
    exact ⟨added, hadded.toWalks⟩

/-- Notes that name no depth keep to the scopes. -/
theorem scoping_note {content : Note} (h : content.depth? = none) :
  scoping.Of (note content)
  := by
  constructor
  · intro s t x hrun
    obtain rfl := Pass.run_note_eq_ok_iff.mp hrun
    refine ⟨[.note content], .of_plain ?_ (Listing.toList_append ..) rfl⟩
    cases content <;> simp_all [Note.depth?, newDepth?, declared?]
  · rintro s t e ⟨⟩

/-- Changes of the table that keep the variables keep to the scopes. -/
theorem scoping_declare {change : SymbolTable → Except SymbolError SymbolTable} (l : Location)
    (h : ∀ {T T' : SymbolTable}, change T = .ok T' → T'.scopes = T.scopes) :
  scoping.Of (declare l change)
  := by
  constructor
  · intro s t x hrun
    obtain ⟨T, hT, rfl⟩ := Pass.run_declare_eq_ok_iff.mp hrun
    exact ⟨[], .of_plain (by simp) (Listing.toList_append ..) (h hT)⟩
  · intro s t e hrun
    obtain rfl := Pass.eq_of_run_declare_eq_error hrun
    apply (scoping.of_eq rfl rfl rfl).2

/-- Declaring a variable keeps to the scopes, if the note of it follows. -/
theorem scoping_variable (name : String) (type : DataType) (initialized : Bool) (l : Location) :
  scoping.Of (do
    declare l fun T => T.declareVariable name type
    note (.variableDeclared name type (← depth) initialized))
  := by
  constructor
  · intro s t x hrun
    obtain ⟨T, hT, hnote⟩ := Pass.run_declare_bind_eq_ok_iff.mp hrun
    have hscopes := SymbolTable.scopes_of_declareVariable hT
    rw [Pass.run_depth_bind, Pass.run_note_eq_ok_iff, Pass.reach_reach, Pass.symbols_reach,
      SymbolTable.depth_eq_of_modifyHead hscopes] at hnote
    obtain rfl := hnote
    exact ⟨_, .of_declared rfl rfl (Listing.toList_append ..) hscopes⟩
  · intro s t e hrun
    obtain hdeclare | ⟨_, u, hdeclare, hnote⟩ := Pass.run_bind_eq_error_iff.mp hrun
    · obtain rfl := Pass.eq_of_run_declare_eq_error hdeclare
      apply (scoping.of_eq rfl rfl rfl).2
    · cases hnote

/-- Declaring an argument keeps to the scopes, if the note of it follows. -/
theorem scoping_parameter (function name : String) (type : DataType) (l : Location) :
  scoping.Of (do
    declare l fun T => T.declareVariable name type
    declare l fun T => T.addArgument function type
    note (.argumentDeclared name type (← depth)))
  := by
  constructor
  · intro s t x hrun
    obtain ⟨T, hT, hrest⟩ := Pass.run_declare_bind_eq_ok_iff.mp hrun
    obtain ⟨T', hT', hnote⟩ := Pass.run_declare_bind_eq_ok_iff.mp hrest
    have hscopes : T'.scopes = _ := (SymbolTable.scopes_of_updateFunction hT').trans
      (SymbolTable.scopes_of_declareVariable hT)
    rw [Pass.run_depth_bind, Pass.run_note_eq_ok_iff, Pass.reach_reach, Pass.reach_reach,
      Pass.symbols_reach, SymbolTable.depth_eq_of_modifyHead hscopes] at hnote
    obtain rfl := hnote
    exact ⟨_, .of_declared rfl rfl (Listing.toList_append ..) hscopes⟩
  · intro s t e hrun
    obtain hdeclare | ⟨_, u, hdeclare, hrest⟩ := Pass.run_bind_eq_error_iff.mp hrun
    · obtain rfl := Pass.eq_of_run_declare_eq_error hdeclare
      apply (scoping.of_eq rfl rfl rfl).2
    · obtain ⟨T, hT, rfl⟩ := Pass.run_declare_eq_ok_iff.mp hdeclare
      obtain hargument | ⟨_, u, hargument, hnote⟩ := Pass.run_bind_eq_error_iff.mp hrest
      · -- the argument is visible already, but nothing is noted
        obtain rfl := Pass.eq_of_run_declare_eq_error hargument
        refine ⟨[], Listing.toList_append .., ?_⟩
        rw [Pass.symbols_reach,
          SymbolTable.depth_eq_of_modifyHead (SymbolTable.scopes_of_declareVariable hT)]
        exact .nil
      · cases hnote

/-- What stands between entering and leaving a scope settles at the outer depth. -/
theorem scoping_scope {a : PassM Unit} (h : scoping.Of a) :
  scoping.Of (do enterScope; a; exitScope)
  := by
  constructor
  · intro s t x hrun
    rw [Pass.run_enterScope_bind] at hrun
    obtain ⟨_, u, ha, hexit⟩ := Pass.run_bind_eq_ok_iff.mp hrun
    obtain rfl := Pass.run_exitScope_eq_ok_iff.mp hexit
    obtain ⟨added, hadded⟩ := h.done ha
    apply Pass.settles_scope hadded
  · intro s t e hrun
    rw [Pass.run_enterScope_bind] at hrun
    obtain ha | ⟨_, u, -, hexit⟩ := Pass.run_bind_eq_error_iff.mp hrun
    · obtain ⟨added, hadded⟩ := h.stopped ha
      exact ⟨_, s.walks_enter.trans hadded⟩
    · cases hexit

/-- All steps of a program keep to the scopes. -/
theorem scoping_onPrograms :
  scoping.correspondence.OnPrograms
  where
  relates_expression slot := (scoping_of_emission (Pass.emits_expression slot)).relates
  relates_call name l _ _ := (scoping_of_emission (Pass.emits_call name l)).relates
  relates_note h := (scoping_note h).relates
  relates_declare {_ l _} h _ := (scoping_declare l h).relates
  relates_variable name type initialized l _ _ :=
    (scoping_variable name type initialized l).relates
  relates_parameter function name type l _ _ := (scoping_parameter function name type l).relates
  relates_scope h := (scoping_scope h.1).relates

end Effect

namespace Pass

open PassM

/-- The notes on scopes say what the scopes are. -/
structure Mirrors (s : Pass) : Prop where
  /-- The depths that are noted begin next to zero, and change by one at a time. -/
  walk : (0 :: depths s.listing.toList).IsChain Adjacent
  /-- The last of them is the depth of the table of names. -/
  latest : (depths s.listing.toList).getLastD 0 = s.symbols.depth
  /-- Variables and arguments are noted with the depth that was noted last before them. -/
  declared : ∀ {before after : List Entry} {entry : Entry} {v : Variable},
    s.listing.toList = before ++ entry :: after → entry.declared? = some v →
      v.depth = (depths before).getLastD 0

/-- A table mirrors its listing where the listing is a walk to its depth. -/
theorem mirrors_of_leads {s : Pass} (h : scopeWalk.Leads 0 s.listing.toList s.symbols.depth) :
  s.Mirrors
  where
  walk := scopeWalk.isChain_depths h
  latest := by
    rw [← scopeWalk.state_eq]
    apply h.state_eq
  declared := by
    intro before after entry v hsplit hv
    rw [hsplit] at h
    rw [← scopeWalk.state_eq]
    apply h.allows.2 v hv

/-- The state after a number of programs. Each of them goes on where the one before it has stopped,
also if that was at an error. -/
def afterPrograms (s : Pass) : Nat → Pass
  | 0 => s
  | n + 1 => ((s.afterPrograms n).run program).2

/-- A program that succeeds settles. -/
theorem settles_program {s t : Pass} {u : Unit} (h : s.run program = (.ok u, t)) :
  ∃ added, s.Settles t added
  := Effect.scoping_onPrograms.relates_program.1.done h

/-- A program walks through its scopes, wherever it stops. -/
theorem walks_program (s : Pass) :
  ∃ added, s.Walks (s.run program).2 added
  := by
  rcases hrun : s.run program with ⟨_ | _, t⟩
  · apply Effect.scoping_onPrograms.relates_program.1.stopped hrun
  · obtain ⟨added, hadded⟩ := settles_program hrun
    exact ⟨added, hadded.toWalks⟩

/-- Further programs in the same pass go on with the walk. -/
theorem leads_afterPrograms {s : Pass}
    (h : scopeWalk.Leads 0 s.listing.toList s.symbols.depth) (n : Nat) :
  scopeWalk.Leads 0 (s.afterPrograms n).listing.toList (s.afterPrograms n).symbols.depth
  := by
  induction n with
  | zero => exact h
  | succ n ih =>
    obtain ⟨added, hadded⟩ := (s.afterPrograms n).walks_program
    rw [afterPrograms, hadded.listing]
    apply ih.append hadded.leads

/-- In every state that a pass reaches, the notes on scopes say what the scopes are. If a program is
accepted, then the depth is what it was before, and so are the open scopes, but that the innermost
one has the variables that are noted at this depth. -/
theorem mirrors_after_programs {source : String} {registers : Nat} {s : Pass}
    (h : start source registers = .ok s) (n : Nat) :
  (s.afterPrograms n).Mirrors ∧
    ∀ t, (s.afterPrograms n).run program = (.ok (), t) →
      t.symbols.depth = (s.afterPrograms n).symbols.depth ∧
        ∃ added, t.listing.toList = (s.afterPrograms n).listing.toList ++ added ∧
          t.symbols.scopes = (s.afterPrograms n).symbols.scopes.modifyHead
            (· ++ declaredAt (s.afterPrograms n).symbols.depth added)
  := by
  constructor
  · obtain ⟨p, -, rfl⟩ := start_eq_ok_iff.mp h
    apply mirrors_of_leads (leads_afterPrograms .nil n)
  · intro t hrun
    obtain ⟨added, hadded⟩ := settles_program hrun
    exact ⟨hadded.depth_eq, added, hadded.listing, hadded.scopes⟩

/-- A function cannot stand in the body of another one, so the first program is refused there and
leaves the body open. The second one goes on in this body: its function leaves no variable behind,
and its variable comes to stand beside the argument. -/
theorem mirrors_after_programs_resumed :
  ∃ s t,
    start "func f(int x): int \x7b func g(): void \x7b int a; \x7d int b = 2;" 4 = .ok s ∧
      (s.afterPrograms 1).Mirrors ∧ (s.afterPrograms 1).symbols.depth = 1 ∧
      (s.afterPrograms 1).run program = (.ok (), t) ∧ t.symbols.depth = 1 ∧
      t.symbols.scopes = [[⟨"x", .scalar .int, 1⟩, ⟨"b", .scalar .int, 1⟩], []]
  := by
  have heval : (start "func f(int x): int \x7b func g(): void \x7b int a; \x7d int b = 2;" 4).map
      (fun s => ((s.afterPrograms 1).symbols.depth, ((s.afterPrograms 1).run program).1,
        ((s.afterPrograms 1).run program).2.symbols.scopes)) =
      .ok (1, .ok (), [[⟨"x", .scalar .int, 1⟩, ⟨"b", .scalar .int, 1⟩], []]) := by
    decide +kernel
  rcases hstart : start "func f(int x): int \x7b func g(): void \x7b int a; \x7d int b = 2;" 4
    with _ | s
  · rw [hstart] at heval
    cases heval
  · rw [hstart] at heval
    simp only [Except.map, Except.ok.injEq, Prod.mk.injEq] at heval
    obtain ⟨hdepth, hok, hscopes⟩ := heval
    obtain ⟨hmirrors, haccepted⟩ := mirrors_after_programs hstart 1
    have hrun : (s.afterPrograms 1).run program = (.ok (), s.afterPrograms 2) := Prod.ext hok rfl
    exact ⟨s, _, rfl, hmirrors, hdepth, hrun, (haccepted _ hrun).1.trans hdepth, hscopes⟩

end Pass

end SilFront
