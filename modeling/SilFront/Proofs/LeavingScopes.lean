import Mathlib.Data.List.Infix
import SilFront.Proofs.ScopeWalk
import SilFront.Proofs.TableAgreement

/-!
# Leaving a scope

Calls that leave the scopes that they enter, and no others, are made in the scope in which they begin
and in scopes inside it. However many of them are refused, all that they leave of their variables is
at the end of that scope. So entering a scope, making such calls in it and leaving it again leads back
to the scopes that there were, and the names that are forgotten then are those that the calls have
declared in this scope itself (`StoredTable.undone_after`).

The variables of all scopes are stored in one map, from which names are removed when a scope is left.
That this brings back the variables from before is true because no call can declare a name that is
visible already.
-/

namespace SilFront

namespace SymbolTable

/-! ### Matched calls -/

/-- The variable that was declared, if an answer says so. -/
def declared? : Except SymbolError Answer → Option Variable
  | .ok (.declared v) => some v
  | _ => none

namespace Call

/-- Calls never leave more scopes than they have entered. -/
def StayInside (calls : List Call) : Prop :=
  ∀ first ∈ calls.inits, first.count .exit ≤ first.count .enter

/-- Calls leave the scopes that they enter, and no others. -/
structure Matched (calls : List Call) : Prop where
  inside : StayInside calls
  total : calls.count .exit = calls.count .enter

instance (calls : List Call) : Decidable (StayInside calls) :=
  inferInstanceAs (Decidable (∀ first ∈ calls.inits, first.count .exit ≤ first.count .enter))

/-- The number of scopes that calls enter and do not leave. -/
def entered (calls : List Call) : Nat :=
  calls.count .enter - calls.count .exit

/-- The kind and the name of the thing that a call declares. -/
def declares? : Call → Option (SymbolKind × String)
  | .declareVariable name _ => some (.variable, name)
  | .declareFunction name => some (.function, name)
  | .declarePackage name => some (.package, name)
  | _ => none

/-- The variables that calls declare in the scope itself in which they begin. What a call answers
after others is given by `answer`. -/
def own (answer : List Call → Call → Except SymbolError Answer) (calls : List Call) : Scope :=
  calls.zipIdx.filterMap fun (call, n) =>
    if entered (calls.take n) = 0 then declared? (answer (calls.take n) call) else none

variable {first calls : List Call} {call : Call}

/-- Calls that stay inside do so from the beginning. -/
theorem StayInside.of_append (h : StayInside (first ++ calls)) :
  StayInside first
  := by
  intro start hstart
  apply h
  rw [List.mem_inits] at hstart ⊢
  apply hstart.trans (List.prefix_append first calls)

/-- Calls that stay inside leave no more scopes than they enter. -/
theorem StayInside.count_le (h : StayInside calls) :
  calls.count .exit ≤ calls.count .enter
  := h calls ((List.mem_inits calls calls).mpr List.prefix_rfl)

theorem entered_enter (h : StayInside calls) :
  entered (calls ++ [.enter]) = entered calls + 1
  := by
  have henter : (calls ++ [Call.enter]).count Call.enter = calls.count .enter + 1 := by simp
  have hexit : (calls ++ [Call.enter]).count Call.exit = calls.count .exit := by simp
  have hcount := h.count_le
  rw [entered, entered, henter, hexit]
  omega

theorem entered_exit (h : StayInside (calls ++ [.exit])) :
  entered calls = entered (calls ++ [.exit]) + 1
  := by
  have henter : (calls ++ [Call.exit]).count Call.enter = calls.count .enter := by simp
  have hexit : (calls ++ [Call.exit]).count Call.exit = calls.count .exit + 1 := by simp
  have hcount := h.count_le
  rw [henter, hexit] at hcount
  rw [entered, entered, henter, hexit]
  omega

/-- Other calls neither enter a scope nor leave one. -/
theorem entered_of_ne (henter : call ≠ .enter) (hexit : call ≠ .exit) :
  entered (calls ++ [call]) = entered calls
  := by simp [entered, henter, hexit]

/-- A declaration is made in the own scope if no scope inside it is open. -/
theorem own_append_singleton (answer : List Call → Call → Except SymbolError Answer)
    (calls : List Call) (call : Call) :
  own answer (calls ++ [call]) =
    own answer calls ++ if entered calls = 0 then (declared? (answer calls call)).toList else []
  := by
  rw [own, List.zipIdx_append, List.filterMap_append]
  congr 1
  · apply List.filterMap_congr
    rintro ⟨other, n⟩ hmem
    have hn : n ≤ calls.length := by
      have := List.snd_lt_of_mem_zipIdx hmem
      omega
    simp only [List.take_append_of_le_length hn]
  · simp only [Nat.zero_add, List.zipIdx_singleton, List.filterMap_cons, List.filterMap_nil,
      List.take_left]
    by_cases h : entered calls = 0
    · simp only [if_pos h]
      cases declared? (answer calls call) <;> rfl
    · simp only [if_neg h]

end Call

/-! ### What one call does -/

variable {T U : SymbolTable} {call : Call} {scope : Scope} {outer : List Scope}

/-- A call that neither enters nor leaves a scope adds to the innermost scope the variable that it
declares, if it declares one. -/
theorem scopes_perform (h : T.scopes = scope :: outer) (henter : call ≠ .enter)
    (hexit : call ≠ .exit) :
  (T.perform call).2.scopes = (scope ++ (declared? (T.perform call).1).toList) :: outer
  := by
  have hkeep {result : Except SymbolError SymbolTable}
      (hresult : ∀ {T'}, result = .ok T' → T'.scopes = T.scopes) :
      (T.keep result .done).2.scopes =
        (scope ++ (declared? (T.keep result .done).1).toList) :: outer := by
    cases result with
    | error e => simp [keep, declared?, h]
    | ok T' => simp [keep, declared?, hresult rfl, h]
  cases call with
  | enter => contradiction
  | exit => contradiction
  | declareVariable name type =>
    rw [perform]
    cases hresult : T.declareVariable name type with
    | error e => simp [keep, declared?, h]
    | ok T' => simp [keep, declared?, scopes_of_declareVariable hresult, h]
  | declareFunction name => apply hkeep scopes_of_declareFunction
  | addArgument function type => apply hkeep scopes_of_updateFunction
  | setReturnType function type => apply hkeep scopes_of_updateFunction
  | declarePackage name => apply hkeep scopes_of_declarePackage
  | addField package field type => apply hkeep scopes_of_addField

/-- Functions and packages are never forgotten. -/
theorem namesOf_subset_perform {kind : SymbolKind} (hkind : kind ≠ .variable) (T : SymbolTable)
    (call : Call) :
  T.namesOf kind ⊆ (T.perform call).2.namesOf kind
  := by
  have hkeep {result : Except SymbolError SymbolTable} {answer : Answer}
      (hresult : ∀ T', result = .ok T' → T.namesOf kind ⊆ T'.namesOf kind) :
      T.namesOf kind ⊆ (T.keep result answer).2.namesOf kind := by
    cases result with
    | error e => exact List.Subset.refl _
    | ok T' => apply hresult T' rfl
  have hupdate {name : String} {change : Function → Function} {T' : SymbolTable}
      (hchange : ∀ f, (change f).name = f.name) (hT' : T.updateFunction name change = .ok T') :
      T.namesOf kind ⊆ T'.namesOf kind := by
    have hnames (f : Function) : (if f.name = name then change f else f).name = f.name := by
      split
      · apply hchange
      · rfl
    unfold updateFunction at hT'
    split at hT' <;> cases hT'
    cases kind <;> simp [namesOf, visible, scopes, Function.comp_def, hnames]
  cases call with
  | enter => cases kind <;> simp [namesOf, SymbolTable.perform, SymbolTable.enter] at hkind ⊢
  | exit => cases kind <;> simp [namesOf, SymbolTable.perform, SymbolTable.exit] at hkind ⊢
  | declareVariable name type =>
    apply hkeep
    intro T' hT'
    obtain ⟨-, rfl⟩ := declareVariable_eq_ok_iff.mp hT'
    cases kind <;> simp [namesOf] at hkind ⊢
  | declareFunction name =>
    apply hkeep
    intro T' hT'
    obtain ⟨-, rfl⟩ := declareFunction_eq_ok_iff.mp hT'
    cases kind <;> simp [namesOf, visible, scopes, addFunction]
  | addArgument function type =>
    apply hkeep
    intro T'
    apply hupdate
    intro f
    rfl
  | setReturnType function type =>
    apply hkeep
    intro T'
    apply hupdate
    intro f
    rfl
  | declarePackage name =>
    apply hkeep
    intro T' hT'
    obtain ⟨-, rfl⟩ := declarePackage_eq_ok_iff.mp hT'
    cases kind <;> simp [namesOf, visible, scopes, addPackage]
  | addField package field type =>
    apply hkeep
    intro T' hT'
    unfold SymbolTable.addField at hT'
    split at hT'
    · cases hT'
    split at hT' <;> cases hT'
    have hnames (p : Package) : (if p.name = package then
        { p with fields := p.fields ++ [⟨field, type⟩] } else p).name = p.name := by
      split <;> rfl
    cases kind <;> simp [namesOf, visible, scopes, Function.comp_def, hnames]

/-- A name that denotes something cannot be declared. -/
theorem perform_of_kind?_eq_some {kind existing : SymbolKind} {name : String}
    (hcall : call.declares? = some (kind, name)) (hname : T.kind? name = some existing) :
  (T.perform call).1 =
    .error (if existing = kind then .redefined kind name else .nameClash kind existing name)
  := by
  have hrefused : T.ensureFree kind name =
      .error (if existing = kind then .redefined kind name else .nameClash kind existing name) := by
    simp only [ensureFree, hname]
    split <;> rfl
  cases call with
  | declareVariable name' type =>
    cases hcall
    simp only [perform, declareVariable, hrefused]
    rfl
  | declareFunction name' =>
    cases hcall
    simp only [perform, declareFunction, hrefused]
    rfl
  | declarePackage name' =>
    cases hcall
    simp only [perform, declarePackage, hrefused]
    rfl
  | _ => cases hcall

/-! ### Inside a scope -/

/-- A table has the scopes of another one, inside them a scope of its own, and inside that one a
number of further scopes. -/
def Inside (T : SymbolTable) (own : Scope) (number : Nat) (U : SymbolTable) : Prop :=
  ∃ inner, inner.length = number ∧ U.scopes = inner ++ own :: T.scopes

variable {own : Scope} {number : Nat}

/-- Entering a scope opens one more inside the own one. -/
theorem Inside.enter (h : T.Inside own number U) :
  T.Inside own (number + 1) U.enter
  := by
  obtain ⟨inner, rfl, hscopes⟩ := h
  refine ⟨[] :: inner, rfl, ?_⟩
  rw [List.cons_append, ← hscopes]
  rfl

/-- Leaving a scope inside the own one keeps that one. -/
theorem Inside.exit (h : T.Inside own (number + 1) U) :
  T.Inside own number U.exit
  := by
  obtain ⟨_ | ⟨scope, inner⟩, hlength, hscopes⟩ := h
  · cases hlength
  refine ⟨inner, Nat.succ.inj hlength, ?_⟩
  have hdepth : 0 < U.depth := by
    have hlengths := congrArg List.length hscopes
    simp only [length_scopes, List.length_append, List.length_cons] at hlengths
    omega
  rw [scopes_eq_leaving_cons hdepth] at hscopes
  apply List.tail_eq_of_cons_eq hscopes

/-- A declaration is added to the own scope if none inside it is open; otherwise the own scope
stays as it is. -/
theorem Inside.perform (h : T.Inside own number U) (henter : call ≠ .enter) (hexit : call ≠ .exit) :
  T.Inside (own ++ if number = 0 then (declared? (U.perform call).1).toList else []) number
    (U.perform call).2
  := by
  obtain ⟨_ | ⟨scope, inner⟩, rfl, hscopes⟩ := h
  · refine ⟨[], rfl, ?_⟩
    rw [scopes_perform hscopes henter hexit]
    rfl
  · refine ⟨(scope ++ (declared? (U.perform call).1).toList) :: inner, rfl, ?_⟩
    rw [scopes_perform hscopes henter hexit, List.length_cons, if_neg (Nat.succ_ne_zero _),
      List.append_nil]
    rfl

/-- What a call answers after others. -/
def answer (T : SymbolTable) (before : List Call) (call : Call) : Except SymbolError Answer :=
  ((T.after before).perform call).1

theorem after_append (T : SymbolTable) (first second : List Call) :
  T.after (first ++ second) = (T.after first).after second
  := List.foldl_append

/-- Calls that never leave more scopes than they have entered stay inside the scope in which they
begin, and what they declare in it is added to it. -/
theorem inside_after (T : SymbolTable) {calls : List Call} (h : Call.StayInside calls) :
  T.Inside (Call.own T.enter.answer calls) (Call.entered calls) (T.enter.after calls)
  := by
  -- the last call is made where the calls before it lead
  induction calls using List.reverseRecOn with
  | nil => exact ⟨[], rfl, rfl⟩
  | append_singleton calls call ih =>
    have hinside := ih h.of_append
    rw [Call.own_append_singleton, after_append]
    by_cases henter : call = .enter
    · subst henter
      have hnone : declared? (T.enter.answer calls .enter) = none := rfl
      rw [Call.entered_enter h.of_append, hnone, Option.toList_none, ite_self, List.append_nil]
      exact hinside.enter
    by_cases hexit : call = .exit
    · subst hexit
      have hnone : declared? (T.enter.answer calls .exit) = none := rfl
      rw [hnone, Option.toList_none, ite_self, List.append_nil]
      rw [Call.entered_exit h] at hinside
      exact hinside.exit
    · rw [Call.entered_of_ne henter hexit]
      exact hinside.perform henter hexit

/-- Functions and packages stay in the table whatever is called. -/
theorem namesOf_subset_after {kind : SymbolKind} (hkind : kind ≠ .variable) (T : SymbolTable)
    (calls : List Call) :
  T.namesOf kind ⊆ (T.after calls).namesOf kind
  := by
  induction calls generalizing T with
  | nil => exact List.Subset.refl _
  | cons call calls ih => exact List.Subset.trans (namesOf_subset_perform hkind T call) (ih _)

/-- Matched calls in a scope of their own leave that scope with what they have declared in it. -/
theorem scopes_after_matched (T : SymbolTable) {calls : List Call} (h : Call.Matched calls) :
  (T.after (.enter :: calls)).scopes = Call.own T.enter.answer calls :: T.scopes
  := by
  obtain ⟨inner, hlength, hscopes⟩ := T.inside_after h.inside
  obtain rfl : inner = [] := by
    apply List.eq_nil_of_length_eq_zero
    rw [hlength, Call.entered, h.total, Nat.sub_self]
  exact hscopes

/-- Inside a scope, the variables of the scopes around it stay visible. -/
theorem Inside.kind?_eq_some (h : T.Inside own number U) {name : String}
    (hname : name ∈ T.namesOf .variable) :
  U.kind? name = some .variable
  := by
  obtain ⟨inner, -, hscopes⟩ := h
  have hvisible : (U.variableNamed? name).isSome := by
    have hsublist : (T.visible.map Variable.name).Sublist (U.visible.map Variable.name) := by
      rw [visible, visible, hscopes, List.flatten_append, List.flatten_cons]
      exact ((List.sublist_append_right ..).trans (List.sublist_append_right ..)).map _
    simpa [variableNamed?, namesOf] using hsublist.subset hname
  rw [kind?, if_pos hvisible]

end SymbolTable

/-! ### Scopes undone -/

namespace StoredTable

open SymbolTable (Call Answer)

/-- What a call answers after others. -/
def answer (S : StoredTable) (before : List Call) (call : Call) : Except SymbolError Answer :=
  ((S.after before).perform call).1

/-- What there is after calls in a scope of their own that is left again. -/
structure Undone (S : StoredTable) (calls : List Call) : Prop where
  /-- The same variables are visible, with their types and depths. -/
  visible : (S.after (.enter :: calls ++ [.exit])).visible = S.visible
  frames : (S.after (.enter :: calls ++ [.exit])).frames = S.frames
  depth : (S.after (.enter :: calls ++ [.exit])).depth = S.depth
  /-- The names that are forgotten are those that were declared in the scope itself. -/
  forgotten : S.answer (.enter :: calls) .exit =
    .ok (.names ((Call.own (fun before => S.answer (.enter :: before)) calls).map Variable.name))
  /-- Functions and packages are still there. -/
  kept : ∀ {name : String} {kind : SymbolKind}, kind ≠ .variable → S.Holds name kind →
    (S.after (.enter :: calls ++ [.exit])).Holds name kind
  /-- A name that was visible could not be declared. -/
  refused : ∀ {before after : List Call} {call : Call} {kind : SymbolKind} {name : String},
    calls = before ++ call :: after → call.declares? = some (kind, name) → S.Holds name .variable →
    S.answer (.enter :: before) call = .error (if .variable = kind then .redefined kind name
      else .nameClash kind .variable name)

end StoredTable

namespace SymbolTable

variable {T : SymbolTable} {calls : List Call}

/-- The stored table answers calls alike. -/
theorem Regular.answer_stored (h : T.Regular) (before : List Call) (call : Call) :
  T.stored.answer before call = T.answer before call
  := by
  rw [StoredTable.answer, h.after_stored, (h.after before).perform_stored]
  rfl

/-- After matched calls in a scope of their own, what they have declared in it is left, and leaving it
leads back to the same scopes. -/
theorem leaving_after_matched (T : SymbolTable) (h : Call.Matched calls) :
  (T.after (.enter :: calls)).leaving = Call.own T.enter.answer calls ∧
    (T.after (.enter :: calls)).exit.scopes = T.scopes
  := by
  have hscopes := T.scopes_after_matched h
  have hdepth : 0 < (T.after (.enter :: calls)).depth := by
    have hlengths := congrArg List.length hscopes
    simp only [length_scopes, List.length_cons] at hlengths
    omega
  rw [scopes_eq_leaving_cons hdepth] at hscopes
  exact List.cons.inj hscopes

/-- When a scope is left, the others are as they were when it was entered. -/
theorem scopes_after_exit (T : SymbolTable) (h : Call.Matched calls) :
  (T.after (.enter :: calls ++ [.exit])).scopes = T.scopes
  := by
  rw [after_append]
  exact (T.leaving_after_matched h).2

/-- Leaving a scope answers with the names that were declared in it. -/
theorem answer_exit (T : SymbolTable) (h : Call.Matched calls) :
  T.answer (.enter :: calls) .exit =
    .ok (.names ((Call.own T.enter.answer calls).map Variable.name))
  := by
  rw [← (T.leaving_after_matched h).1]
  rfl

/-- A scope that is entered and left undoes its declarations in the stored table. -/
theorem Regular.undone (hT : T.Regular) (h : Call.Matched calls) :
  T.stored.Undone calls
  := by
  have hscopes := T.scopes_after_exit h
  have hafter := hT.after_stored (.enter :: calls ++ [.exit])
  refine ⟨?_, ?_, ?_, ?_, ?_, ?_⟩
  · rw [hafter]
    funext name
    simp only [stored, variableNamed?, visible, hscopes]
  · rw [hafter]
    simp only [stored, hscopes]
  · rw [hafter, depth_stored, depth_stored]
    apply depth_eq_of_length_scopes
    rw [hscopes]
  · have hanswers : (fun before => T.stored.answer (.enter :: before)) = T.enter.answer := by
      funext before call
      apply hT.answer_stored
    rw [hanswers, hT.answer_stored, T.answer_exit h]
  · intro name kind hkind hname
    rw [hafter]
    apply holds_stored_iff.mpr
    apply namesOf_subset_after hkind T
    apply holds_stored_iff.mp hname
  · rintro before after call kind name rfl hcall hname
    rw [hT.answer_stored]
    apply perform_of_kind?_eq_some hcall
    exact (T.inside_after h.inside.of_append).kind?_eq_some (holds_stored_iff.mp hname)

end SymbolTable

/-- Entering a scope, making matched calls in it and leaving it again undoes the scope, whichever
calls were made before and whichever are refused. The same is true of the table that is not stored:
it answers every call in the same way, and leads back to the same scopes. -/
theorem StoredTable.undone_after (history : List SymbolTable.Call) {calls : List SymbolTable.Call}
    (h : SymbolTable.Call.Matched calls) :
  (StoredTable.empty.after history).Undone calls ∧
    (SymbolTable.empty.after (history ++ .enter :: calls ++ [.exit])).scopes =
      (SymbolTable.empty.after history).scopes ∧
    ∀ before, (StoredTable.empty.after history).after before =
        ((SymbolTable.empty.after history).after before).stored ∧
      ∀ call, (StoredTable.empty.after history).answer before call =
        (SymbolTable.empty.after history).answer before call
  := by
  have hregular := SymbolTable.regular_empty.after history
  rw [← SymbolTable.stored_empty, SymbolTable.regular_empty.after_stored history]
  refine ⟨hregular.undone h, ?_, ?_⟩
  · rw [List.append_assoc, SymbolTable.after_append]
    apply SymbolTable.scopes_after_exit _ h
  · intro before
    exact ⟨hregular.after_stored before, hregular.answer_stored before⟩

/-- A scope with another one inside it. The second `x` is refused, and so are the function and the
variable with the name of a global variable. -/
theorem StoredTable.undone_after_nested :
  let history : List SymbolTable.Call :=
    [.declareVariable "g" (.scalar .int), .declareFunction "f", .enter,
      .declareVariable "a" (.scalar .float)]
  let calls : List SymbolTable.Call :=
    [.declareVariable "x" (.scalar .int), .enter, .declareVariable "x" (.scalar .float),
      .declareVariable "y" (.scalar .int), .declareFunction "g", .exit,
      .addArgument "f" (.scalar .int), .declareVariable "y" (.scalar .byte),
      .declareVariable "g" (.scalar .byte)]
  SymbolTable.Call.Matched calls ∧ (StoredTable.empty.after history).Undone calls ∧
    (SymbolTable.empty.after history).answer (.enter :: calls) .exit = .ok (.names ["x", "y"])
  := by
  intro history calls
  have hmatched : SymbolTable.Call.Matched calls := ⟨by decide, by decide⟩
  exact ⟨hmatched, (StoredTable.undone_after history hmatched).1, by decide +kernel⟩

end SilFront
