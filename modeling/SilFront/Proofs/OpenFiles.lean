import Mathlib.Computability.StateTransition
import Mathlib.Data.Finset.Card
import SilFront.Proofs.FragmentRuns

/-!
# Open files

An expansion as a machine that keeps the files that are open on a stack (`Unfolding`). Every step
takes one fragment; a call for a file pushes the file and puts the text that calls for it aside, and
the end of the file, or a failure in it, takes both from their stacks (`Unfolding.step`).

The machine comes to an end, with the result of the expansion and the stack that it began with
(`Unfolding.exists_eval_eq`). Until then the open files are different readable files, each called for
by the text below it (`Unfolding.Nested`), so there are never more than there are readable files.
-/

namespace SilFront

/-- The files that can be read. -/
def Library.readable (l : Library) : Finset String :=
  (l.names.filter fun file => (l.read file).isOk).toFinset

/-- The readable files are those that can be read. -/
theorem Library.mem_readable_iff {l : Library} {file : String} :
  file ∈ l.readable ↔ ∃ contents, l.read file = .ok contents
  := by
  rw [readable, List.mem_toFinset, List.mem_filter]
  constructor
  · rintro ⟨-, hok⟩
    rcases hread : l.read file with reason | contents
    · rw [hread] at hok
      cases hok
    · exact ⟨contents, rfl⟩
  · rintro ⟨contents, hread⟩
    exact ⟨l.mem_names hread, by rw [hread]; rfl⟩

/-! ### The machine -/

/-- The meanings given so far, with the files that are open, the latest first. -/
structure Desk where
  definitions : Definitions
  opened : List String

/-- An expansion under way. -/
structure Unfolding extends Desk where
  /-- What is left of the texts that called for the open files, the latest first. -/
  callers : List (List Fragment)
  /-- What is left of the text that is being expanded. -/
  rest : List Fragment
  /-- What has been written so far, or the reason for which the expansion fails. -/
  result : Except ExpansionError String

namespace Unfolding

/-- Opens a file for a text of which `rest` is left. -/
def openFile (l : Library) (u : Unfolding) (file : String) (rest : List Fragment) : Unfolding :=
  if file ∈ u.opened then { u with result := .error (.cycle file) }
  else match l.read file with
    | .error reason => { u with result := .error (.unreadable file reason) }
    | .ok contents =>
      { u with
        opened := file :: u.opened
        callers := rest :: u.callers
        rest := Fragment.ofText contents }

/-- Expands one fragment of a text of which `rest` is left, after what has been written. -/
def take (l : Library) (u : Unfolding) (out : String) (rest : List Fragment) :
    Fragment → Unfolding
  | .plain text => { u with rest, result := .ok (out ++ String.ofList text) }
  | .word name => { u with rest, result := .ok (out ++ u.definitions.replace name) }
  | .definition name meaning =>
    { u with definitions := u.definitions.define name meaning, rest }
  | .inclusion file => u.openFile l file rest
  | .fault cause => { u with result := .error (.directive cause) }

/-- Closes the latest file and goes back to the text that called for it. -/
def close? (u : Unfolding) : Option Unfolding :=
  match u.callers with
  | [] => none
  | caller :: callers => some { u with opened := u.opened.tail, callers, rest := caller }

/-- One step of the machine, unless it has come to its end. -/
def step (l : Library) (u : Unfolding) : Option Unfolding :=
  match u.result, u.rest with
  | .ok out, fragment :: rest => some (u.take l out rest fragment)
  | _, _ => u.close?

end Unfolding

namespace Desk

/-- The expansion of a text at its beginning. -/
def begin (desk : Desk) (text : String) : Unfolding :=
  { desk with callers := [], rest := Fragment.ofText text, result := .ok "" }

/-- The machine expands a text. -/
def expand (l : Library) (desk : Desk) (text : String) :
    Part (Except ExpansionError String × Desk) :=
  (StateTransition.eval (Unfolding.step l) (desk.begin text)).map fun u => (u.result, u.toDesk)

end Desk

open StateTransition

namespace Unfolding

variable {l : Library} {d d' : Definitions} {opened : List String} {callers : List (List Fragment)}
  {fragment : Fragment} {rest : List Fragment} {out : String}

/-! ### The machine expands texts -/

/-- A fragment that opens no file is expanded in one step. -/
theorem take_eq
    (h : ∀ file contents, fragment = .inclusion file → file ∉ opened → l.read file ≠ .ok contents) :
  take l ⟨⟨d, opened⟩, callers, fragment :: rest, .ok out⟩ out rest fragment =
    match d.run (fragment.expand l opened) with
    | (.ok more, d') => ⟨⟨d', opened⟩, callers, rest, .ok (out ++ more)⟩
    | (.error e, d') => ⟨⟨d', opened⟩, callers, fragment :: rest, .error e⟩
  := by
  cases fragment with
  | plain text => rfl
  | word name => rfl
  | definition name meaning =>
    change _ = (⟨_, callers, rest, .ok (out ++ "")⟩ : Unfolding)
    rw [String.append_empty]
    rfl
  | inclusion file =>
    by_cases hopened : file ∈ opened
    · rw [take, openFile, if_pos hopened, Fragment.expand_inclusion_of_mem hopened]
      rfl
    · rcases hread : l.read file with reason | contents
      · rw [take, openFile, if_neg hopened, hread,
          Fragment.expand_inclusion_of_read_eq_error hopened hread]
        rfl
      · cases h file contents rfl hopened hread
  | fault cause => rfl

/-- What comes of expanding fragments after what has been written. -/
def outcome (l : Library) (opened : List String) (rest : List Fragment) (d : Definitions)
    (out : String) : Except ExpansionError String × Definitions :=
  let (result, d') := d.run (Fragment.expandAll l opened rest)
  (result.map (out ++ ·), d')

theorem outcome_nil :
  outcome l opened [] d out = (.ok out, d)
  := by
  rw [outcome, Fragment.expandAll_nil, Definitions.run_pure]
  simp only [Except.map, String.append_empty]

theorem outcome_empty :
  outcome l opened rest d "" = d.run (Fragment.expandAll l opened rest)
  := by
  rw [outcome]
  rcases d.run (Fragment.expandAll l opened rest) with ⟨e | more, d'⟩
  · rfl
  · simp only [Except.map, String.empty_append]

/-- The outcome is that of the first fragment, and of the others thereafter. -/
theorem outcome_cons :
  outcome l opened (fragment :: rest) d out =
    match d.run (fragment.expand l opened) with
    | (.ok more, d') => outcome l opened rest d' (out ++ more)
    | (.error e, d') => (.error e, d')
  := by
  rw [outcome, Fragment.expandAll_cons, Definitions.run_bind]
  rcases d.run (fragment.expand l opened) with ⟨e | more, d'⟩
  · rfl
  · simp only [outcome, Definitions.run_bind]
    rcases d'.run (Fragment.expandAll l opened rest) with ⟨e | last, d''⟩
    · rfl
    · simp only [Except.map, Definitions.run_pure, String.append_assoc]

/-- The machine comes to the end of the text that it is expanding, or fails there. -/
def Completes (l : Library) (u : Unfolding) (outcome : Except ExpansionError String × Definitions) :
    Prop :=
  ∃ rest, Reaches (step l) u { u with definitions := outcome.2, rest, result := outcome.1 } ∧
    (outcome.1.isOk → rest = [])

/-- The machine expands what is left of a text. -/
theorem completes (l : Library) (opened : List String) (rest : List Fragment) (d : Definitions)
    (callers : List (List Fragment)) (out : String) :
  Completes l ⟨⟨d, opened⟩, callers, rest, .ok out⟩ (outcome l opened rest d out)
  := by
  induction opened, rest using Library.induction_on (l := l) generalizing d callers out with
  | nil opened =>
    rw [outcome_nil]
    exact ⟨[], .refl, fun _ => rfl⟩
  | @opening opened file contents rest hopened hread ihFile ihRest =>
    have hstep : step l ⟨⟨d, opened⟩, callers, .inclusion file :: rest, .ok out⟩ =
        some ⟨⟨d, file :: opened⟩, rest :: callers, Fragment.ofText contents, .ok out⟩ := by
      simp only [step, take, openFile, if_neg hopened, hread]
    obtain ⟨left, hfile, hleft⟩ := ihFile d (rest :: callers) out
    rw [outcome_cons, Fragment.expand_inclusion_of_read_eq_ok hopened hread]
    rw [outcome] at hfile hleft
    rcases hrun : d.run (Fragment.expandAll l (file :: opened) (Fragment.ofText contents))
      with ⟨e | more, d'⟩
    · rw [hrun] at hfile hleft
      refine ⟨rest, .trans (.head hstep hfile) (.single rfl), ?_⟩
      intro h
      cases h
    · rw [hrun] at hfile hleft
      obtain rfl := hleft rfl
      obtain ⟨left, hrest, hleft⟩ := ihRest d' callers (out ++ more)
      exact ⟨left, .trans (.head hstep hfile) (.head rfl hrest), hleft⟩
  | @cons opened fragment rest hfragment ih =>
    have hstep : step l ⟨⟨d, opened⟩, callers, fragment :: rest, .ok out⟩ =
        some (take l ⟨⟨d, opened⟩, callers, fragment :: rest, .ok out⟩ out rest fragment) := rfl
    rw [take_eq hfragment] at hstep
    rw [outcome_cons]
    rcases hrun : d.run (fragment.expand l opened) with ⟨e | more, d'⟩
    · rw [hrun] at hstep
      refine ⟨fragment :: rest, .single hstep, ?_⟩
      intro h
      cases h
    · rw [hrun] at hstep
      obtain ⟨left, hrest, hleft⟩ := ih d' callers (out ++ more)
      exact ⟨left, .head hstep hrest, hleft⟩

/-- The machine comes to its end, with the files open that were open at the beginning. -/
theorem exists_eval_eq (l : Library) (opened : List String) (rest : List Fragment) (d : Definitions)
    (out : String) :
  ∃ left, eval (step l) ⟨⟨d, opened⟩, [], rest, .ok out⟩ =
    .some ⟨⟨(outcome l opened rest d out).2, opened⟩, [], left, (outcome l opened rest d out).1⟩
  := by
  obtain ⟨left, hreaches, hleft⟩ := completes l opened rest d [] out
  use left
  apply Part.eq_some_iff.mpr
  apply mem_eval.mpr
  refine ⟨hreaches, ?_⟩
  rcases houtcome : (outcome l opened rest d out).1 with e | out'
  · simp only [step, close?]
  · simp only [step, close?, hleft (houtcome ▸ rfl)]

/-! ### Nested files -/

/-- The files of a list are open one in another: each is called for by the text below it, of which
the texts put aside are left, is not called for from within itself, and can be read. What is left of
the text of the latest is `rest`. -/
inductive Nested (l : Library) (text : String) :
    List String → List (List Fragment) → List Fragment → Prop
  | text {rest : List Fragment} :
    rest <:+ Fragment.ofText text → Nested l text [] [] rest
  | file {opened : List String} {callers : List (List Fragment)} {caller rest : List Fragment}
      {file contents : String} :
    Nested l text opened callers (.inclusion file :: caller) → file ∉ opened →
      l.read file = .ok contents → rest <:+ Fragment.ofText contents →
      Nested l text (file :: opened) (caller :: callers) rest

namespace Nested

variable {text : String} {rest' : List Fragment}

theorem of_suffix (h : Nested l text opened callers rest) (hsuffix : rest' <:+ rest) :
  Nested l text opened callers rest'
  := by
  cases h with
  | text hrest => exact .text (hsuffix.trans hrest)
  | file hcaller hopened hread hrest => exact .file hcaller hopened hread (hsuffix.trans hrest)

/-- No file is open twice. -/
theorem nodup (h : Nested l text opened callers rest) :
  opened.Nodup
  := by
  induction h with
  | text => apply List.nodup_nil
  | file _ hopened _ _ ih => exact List.nodup_cons.mpr ⟨hopened, ih⟩

/-- Every open file was called for by a text that waits for it. -/
theorem length_callers (h : Nested l text opened callers rest) :
  callers.length = opened.length
  := by
  induction h with
  | text => rfl
  | file _ _ _ _ ih => rw [List.length_cons, List.length_cons, ih]

/-- Open files can be read. -/
theorem mem_readable (h : Nested l text opened callers rest) :
  ∀ file ∈ opened, file ∈ l.readable
  := by
  induction h with
  | text => simp
  | file _ _ hread _ ih =>
    exact List.forall_mem_cons.mpr ⟨Library.mem_readable_iff.mpr ⟨_, hread⟩, ih⟩

/-- There are no more open files than readable ones. -/
theorem length_le (h : Nested l text opened callers rest) :
  opened.length ≤ l.readable.card
  := by
  rw [← List.toFinset_card_of_nodup h.nodup]
  apply Finset.card_le_card
  intro file hfile
  exact h.mem_readable file (List.mem_toFinset.mp hfile)

end Nested

variable {u v : Unfolding} {text : String}

/-- What a step can do: expand a fragment, or close a file. -/
theorem step_cases (h : step l u = some v) :
  (∃ out fragment rest, u.result = .ok out ∧ u.rest = fragment :: rest ∧
      v = u.take l out rest fragment) ∨
    u.close? = some v
  := by
  obtain ⟨desk, callers, rest, result⟩ := u
  rcases result with e | out
  · right
    exact h
  · rcases rest with _ | ⟨fragment, rest⟩
    · right
      exact h
    · left
      exact ⟨out, fragment, rest, rfl, rfl, (Option.some.inj h).symm⟩

/-- The files that an expansion has opened are nested. -/
def IsNested (l : Library) (text : String) (u : Unfolding) : Prop :=
  Nested l text u.opened u.callers u.rest

/-- Taking the next fragment keeps files nested. -/
theorem IsNested.take (h : u.IsNested l text) (hrest : u.rest = fragment :: rest) (out : String) :
  (u.take l out rest fragment).IsNested l text
  := by
  have hleft : Nested l text u.opened u.callers rest :=
    h.of_suffix (hrest ▸ List.suffix_cons fragment rest)
  cases fragment with
  | plain text => exact hleft
  | word name => exact hleft
  | definition name meaning => exact hleft
  | inclusion file =>
    rw [Unfolding.take, openFile]
    split
    · exact h
    · rename_i hopened
      split
      · exact h
      · rename_i contents hread
        rw [IsNested, hrest] at h
        exact .file h hopened hread List.suffix_rfl
  | fault cause => exact h

/-- Closing a file keeps the others nested. -/
theorem IsNested.close (h : u.IsNested l text) (hclose : u.close? = some v) :
  v.IsNested l text
  := by
  obtain ⟨⟨d, opened⟩, callers, rest, result⟩ := u
  cases h with
  | text => cases hclose
  | file hcaller =>
    cases hclose
    exact hcaller.of_suffix (List.suffix_cons _ _)

/-- Every step keeps files nested. -/
theorem IsNested.step (h : u.IsNested l text) (hstep : step l u = some v) :
  v.IsNested l text
  := by
  obtain ⟨out, fragment, rest, -, hrest, rfl⟩ | hclose := step_cases hstep
  · exact h.take hrest out
  · exact h.close hclose

/-- Until the machine comes to its end, the open files are nested. -/
theorem IsNested.reaches (h : u.IsNested l text) (hreaches : Reaches (Unfolding.step l) u v) :
  v.IsNested l text
  := by
  induction hreaches with
  | refl => exact h
  | tail _ hstep ih => exact ih.step hstep

/-! ### Failures -/

section

variable {file : String} {e : ExpansionError}

theorem result_of_close? (h : u.close? = some v) :
  v.result = u.result
  := by
  rw [close?] at h
  split at h
  · cases h
  · cases h
    rfl

/-- After a failure, files are only closed. -/
theorem result_of_step_of_error (h : step l u = some v) (he : u.result = .error e) :
  v.result = .error e
  := by
  obtain ⟨out, fragment, rest, hok, -, -⟩ | hclose := step_cases h
  · cases he.symm.trans hok
  · rw [result_of_close? hclose, he]

/-- An error remains the result. -/
theorem result_of_reaches_of_error (h : Reaches (step l) u v) (he : u.result = .error e) :
  v.result = .error e
  := by
  induction h with
  | refl => exact he
  | tail _ hstep ih => exact result_of_step_of_error hstep ih

/-- The machine goes on with a call for a file. -/
def CallsFor (u : Unfolding) (file : String) : Prop :=
  u.result.isOk ∧ ∃ rest, u.rest = .inclusion file :: rest

/-- A call for an open file is refused as a cycle. -/
theorem CallsFor.step_of_mem (h : u.CallsFor file) (hopened : file ∈ u.opened) :
  step l u = some { u with result := .error (.cycle file) }
  := by
  obtain ⟨⟨d, opened⟩, callers, rest, result⟩ := u
  obtain ⟨hok, rest, rfl⟩ := h
  rcases result with e | out
  · cases hok
  · simp only [step, take, openFile, if_pos hopened]

/-- A step that finds a file in itself is a call for an open file. -/
theorem callsFor_of_step (h : step l u = some v) (hok : u.result.isOk)
    (hcycle : v.result = .error (.cycle file)) :
  u.CallsFor file ∧ file ∈ u.opened
  := by
  obtain ⟨out, fragment, rest, hout, hrest, rfl⟩ | hclose := step_cases h
  · cases fragment with
    | plain text => cases hcycle
    | word name => cases hcycle
    | definition name meaning => cases hout.symm.trans hcycle
    | inclusion file' =>
      rw [take, openFile] at hcycle
      split at hcycle
      · rename_i hopened
        cases hcycle
        exact ⟨⟨hok, rest, hrest⟩, hopened⟩
      · split at hcycle
        · cases hcycle
        · cases hout.symm.trans hcycle
    | fault cause => cases hcycle
  · rw [← result_of_close? hclose, hcycle] at hok
    cases hok

/-- If the machine finds a file in itself, then it comes to a call for that file while it is open. -/
theorem exists_callsFor (h : Reaches (step l) u v) (hok : u.result.isOk)
    (hcycle : v.result = .error (.cycle file)) :
  ∃ w, Reaches (step l) u w ∧ w.CallsFor file ∧ file ∈ w.opened
  := by
  induction h with
  | refl =>
    rw [hcycle] at hok
    cases hok
  | @tail w v hreaches hstep ih =>
    rcases hresult : w.result with e | out
    · have he := result_of_step_of_error hstep hresult
      cases he.symm.trans hcycle
      exact ih hresult
    · exact ⟨w, hreaches, callsFor_of_step hstep (hresult ▸ rfl) hcycle⟩

/-- The machine ends with a file found in itself exactly if it comes to a call for it while it is
open. -/
theorem eval_cycle_iff (hok : u.result.isOk) (hend : eval (step l) u = .some v) :
  v.result = .error (.cycle file) ↔
    ∃ w, Reaches (step l) u w ∧ w.CallsFor file ∧ file ∈ w.opened
  := by
  constructor
  · intro hcycle
    exact exists_callsFor (mem_eval.mp (Part.eq_some_iff.mp hend)).1 hok hcycle
  · rintro ⟨w, hreaches, hcalls, hopened⟩
    have hfails : Reaches (step l) u { w with result := .error (.cycle file) } :=
      hreaches.tail (hcalls.step_of_mem hopened)
    rw [reaches_eval hfails] at hend
    exact result_of_reaches_of_error (mem_eval.mp (Part.eq_some_iff.mp hend)).1 rfl

end

end Unfolding

/-! ### Actions -/

namespace Session

/-- What a session is asked to do. -/
inductive Action where
  | define (word meaning : String)
  | expand (text : String)

/-- Does what is asked. Giving a word a meaning has no text for an answer. -/
def answer (s : Session) : Action → Except ExpansionError String × Session
  | .define word meaning => (.ok "", s.define word meaning)
  | .expand text => s.expand text

/-- Does what is asked in turn. -/
def answers (s : Session) : List Action → List (Except ExpansionError String) × Session
  | [] => ([], s)
  | action :: actions =>
    let (answer, s) := s.answer action
    let (answers, s) := s.answers actions
    (answer :: answers, s)

end Session

namespace Desk

/-- The machine does what is asked. -/
def answer (l : Library) (desk : Desk) :
    Session.Action → Part (Except ExpansionError String × Desk)
  | .define word meaning =>
    .some (.ok "", { desk with definitions := desk.definitions.define word meaning })
  | .expand text => desk.expand l text

/-- The machine does what is asked in turn. -/
def answers (l : Library) (desk : Desk) :
    List Session.Action → Part (List (Except ExpansionError String) × Desk)
  | [] => .some ([], desk)
  | action :: actions => do
    let (answer, desk) ← desk.answer l action
    let (answers, desk) ← desk.answers l actions
    return (answer :: answers, desk)

end Desk

namespace Session

/-- The meanings of a session, with no file open. -/
def desk (s : Session) : Desk :=
  ⟨s.definitions, []⟩

/-- The machine comes to its end with the result of the session, and with no file open. -/
theorem exists_eval_begin (s : Session) (text : String) :
  ∃ left, eval (Unfolding.step s.library) (s.desk.begin text) =
    .some ⟨(s.expand text).2.desk, [], left, (s.expand text).1⟩
  := by
  obtain ⟨left, h⟩ :=
    Unfolding.exists_eval_eq s.library [] (Fragment.ofText text) s.definitions ""
  rw [Unfolding.outcome_empty] at h
  rw [expand_eq]
  exact ⟨left, h⟩

/-- The machine expands a text as the session does. -/
theorem expand_desk (s : Session) (text : String) :
  s.desk.expand s.library text = .some ((s.expand text).1, (s.expand text).2.desk)
  := by
  obtain ⟨left, h⟩ := s.exists_eval_begin text
  rw [Desk.expand, h, Part.map_some]

/-- The machine answers an action as the session does. -/
theorem answer_desk (s : Session) (action : Action) :
  s.desk.answer s.library action = .some ((s.answer action).1, (s.answer action).2.desk)
  := by
  cases action with
  | define word meaning => rfl
  | expand text => apply expand_desk

/-- No action changes the files. -/
theorem library_answer (s : Session) (action : Action) :
  (s.answer action).2.library = s.library
  := by
  cases action <;> rfl

/-- The machine gives the answers of the session, and leaves no file open. -/
theorem answers_desk (s : Session) (actions : List Action) :
  s.desk.answers s.library actions = .some ((s.answers actions).1, (s.answers actions).2.desk)
  := by
  induction actions generalizing s with
  | nil => rfl
  | cons action actions ih =>
    have hrest := ih (s.answer action).2
    rw [library_answer] at hrest
    simp only [Desk.answers, answer_desk, hrest, Part.bind_eq_bind, Part.bind_some, Part.pure_eq_some]
    rfl

/-- Files are opened one in another, and none while it is open. The machine does all that is asked, as
the session does, and leaves no file open, whether an expansion fails or not. While it expands a
text, the open files are nested and different, so the texts that are being expanded are at most one
more than the readable files. And a file is found in itself exactly if, before any failure, it is
called for while its text is being expanded. -/
theorem opens_no_open_file (s : Session) :
  (∀ actions, s.desk.answers s.library actions =
    .some ((s.answers actions).1, (s.answers actions).2.desk)) ∧
  ∀ text,
    (∀ u, Reaches (Unfolding.step s.library) (s.desk.begin text) u →
      u.IsNested s.library text ∧ u.opened.Nodup ∧
        u.callers.length + 1 ≤ s.library.readable.card + 1) ∧
    ∀ file, (s.expand text).1 = .error (.cycle file) ↔
      ∃ u, Reaches (Unfolding.step s.library) (s.desk.begin text) u ∧ u.CallsFor file ∧
        file ∈ u.opened
  := by
  refine ⟨s.answers_desk, ?_⟩
  intro text
  have hbegin : (s.desk.begin text).IsNested s.library text := .text List.suffix_rfl
  constructor
  · intro u hreaches
    have hnested := hbegin.reaches hreaches
    refine ⟨hnested, hnested.nodup, ?_⟩
    rw [hnested.length_callers]
    exact Nat.succ_le_succ hnested.length_le
  · intro file
    obtain ⟨left, hend⟩ := s.exists_eval_begin text
    exact Unfolding.eval_cycle_iff rfl hend

/-- Two files that call for each other are found in themselves, whichever is called for first. -/
example :
  let s := Session.start (.ofFiles [("a", .ok "x $inc \"b\""), ("b", .ok "y $inc \"a\"")])
  (s.expand "$inc \"a\"").1 = .error (.cycle "a") ∧ (s.expand "$inc \"b\"").1 = .error (.cycle "b")
  := by decide +kernel

/-- A file can be called for again when it is no longer open. -/
example :
  let s := Session.start (.ofFiles [("a", .ok "x")])
  (s.expand "$inc \"a\" and $inc \"a\"").1 = .ok "x and x"
  := by decide +kernel

end Session

end SilFront
