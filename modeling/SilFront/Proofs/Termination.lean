import Mathlib.Logic.Relation
import SilFront.Proofs.Locations
import SilFront.Proofs.Quoting
import SilFront.Proofs.Recursion
import SilFront.Proofs.Shunting
import SilFront.Proofs.StoredTable

/-!
# Compilation ends

A rule that is read from a state is a `RuleCall`. It is read in one round, in which it calls only rules
that it may call (`RuleCall.Makes`): rules of its own level, after so many tokens that a rule is not
called again before a token is taken. So the calls are well-founded, and a number of rounds that is
linear in the length of the text is enough.

What comes of a compilation is then a listing, or one refusal at a place in the text.
-/

namespace SilFront

open PassM

/-! ### How much lies ahead -/

/-- What is ahead after a step was ahead before it. -/
theorem TokenStream.suffix_next (stream : TokenStream) :
  stream.next.2.steps <:+ stream.steps
  := by
  obtain ⟨steps, finish⟩ := stream
  cases steps with
  | nil => apply List.suffix_rfl
  | cons step steps => apply List.suffix_cons

/-- There are at most as many tokens after the first as the text has characters. -/
theorem TokenStream.ahead_next_le (source : String) :
  (ofText source).next.2.ahead ≤ source.length
  := by
  have hsteps : (ofText source).steps.length ≤ source.toList.length :=
    (Cursor.ofText source).length_steps_le
  have hahead : (ofText source).next.2.ahead ≤ (ofText source).next.2.steps.length :=
    (List.takeWhile_sublist _).length_le
  rw [String.length_toList] at hsteps
  exact hahead.trans ((suffix_next _).length_le.trans hsteps)

/-- The number of rounds that can be needed is linear in the length of the text. -/
theorem Pass.budget_le {source : String} {registers : Nat} {start s : Pass}
    (hstart : Pass.start source registers = .ok start)
    (hs : start.position.Beyond 0 s.position) :
  s.budget ≤ source.length + 3
  := by
  obtain ⟨p, hp, rfl⟩ := start_eq_ok_iff.mp hstart
  obtain ⟨ts, -, hts⟩ := hs
  have hahead := TokenStream.ahead_next_le source
  rw [hp] at hahead
  apply Nat.add_le_add_right (hts.ahead_le.trans hahead)

/-! ### Calls -/

/-- A rule that is read from a state. -/
structure RuleCall where
  {result : Type}
  rule : Rule result
  state : Pass

namespace RuleCall

/-- The calls that a call may make. -/
def Makes (c c' : RuleCall) : Prop :=
  c'.rule.level = c.rule.level ∧
    c.state.position.Beyond (c'.rule.rank + 1 - c.rule.rank) c'.state.position

/-- Every call that a call makes has fewer tokens ahead, or a lower rank. -/
theorem Makes.measure_lt {c c' : RuleCall} (h : c.Makes c') :
  c'.state.position.bound + c'.rule.rank < c.state.position.bound + c.rule.rank
  := by
  have hbound := h.2.add_bound_le
  omega

/-- No call makes calls without end. -/
theorem wellFounded_makes :
  WellFounded fun c' c : RuleCall => c.Makes c'
  := Subrelation.wf Makes.measure_lt
    (measure fun c : RuleCall => c.state.position.bound + c.rule.rank).wf

/-- What is called in turn is called after as many tokens as if it were called at once. -/
theorem beyond_of_transGen {c c' : RuleCall} (h : Relation.TransGen Makes c c') :
  c.state.position.Beyond (c'.rule.rank + 1 - c.rule.rank) c'.state.position
  := by
  induction h with
  | single h => apply h.2
  | tail _ h ih =>
    apply (ih.trans h.2).mono
    omega

open Classical in
/-- How a call reads the rules that it calls: those that it may call where it may call them, and no
others. -/
noncomputable def answer (c : RuleCall) {β : Type} (r : Rule β) : PassM β := do
  if c.Makes ⟨r, ← get⟩ then r.full else refuse .stepLimit

/-- A call ends. -/
structure Ends (c : RuleCall) : Prop where
  /-- All that it calls are calls that it may make. -/
  unfolds : c.state.run c.rule.full = c.state.run (c.rule.body c.answer)
  /-- More rounds change nothing. -/
  enough : ∀ {fuel : Nat}, c.state.budget ≤ fuel →
    c.state.run (c.rule.within fuel) = c.state.run c.rule.full
  /-- It takes tokens, or refuses them for another reason than a want of rounds. -/
  answers : c.state.position.Allows c.rule.least (c.state.run c.rule.full)

/-- A called rule is answered as in full. -/
theorem run_answer {c : RuleCall} {β : Type} {r : Rule β} {s : Pass} (h : c.Makes ⟨r, s⟩) :
  s.run (c.answer r) = s.run (r.within s.budget)
  := by
  rw [answer, Pass.run_bind, Pass.run_get]
  simp only [if_pos h, Rule.run_full]

/-- The bound on the rounds exceeds what a call can need. -/
theorem bound_add_rank_lt_budget (c : RuleCall) :
  c.state.position.bound + c.rule.rank < c.state.budget
  := by
  have hbound : c.state.position.bound ≤ c.state.stream.ahead + 1 := c.state.position.bound_le
  have hrank := c.rule.rank_le_one
  rw [Pass.budget]
  omega

/-- All calls end. -/
theorem ends (c : RuleCall) :
  c.Ends
  := by
  obtain ⟨r, s⟩ := c
  have hbudget := bound_add_rank_lt_budget ⟨r, s⟩
  refine ⟨?_, ?_, ?_⟩
  · -- the calls of the first round are made after some tokens, with one round less left
    have hcalls : Rule.Calls s.position r (Rule.within (s.stream.ahead + 2)) (answer ⟨r, s⟩) := by
      intro β r' hlevel k hk t ht
      have hmakes : Makes ⟨r, s⟩ ⟨r', t⟩ := ⟨hlevel, ht.mono (by dsimp only; omega)⟩
      have hmeasure := hmakes.measure_lt
      rw [Pass.Agrees, run_answer hmakes]
      apply Rule.agrees_within (Rule.unfold_all _) r' rfl
      · apply Nat.lt_of_lt_of_le hmeasure (Nat.le_of_lt_succ hbudget)
      · apply bound_add_rank_lt_budget ⟨r', t⟩
    have hround := (Rule.unfold_all _ r rfl hcalls s.position.beyond_self).1
    rw [← Rule.within_succ] at hround
    exact (r.run_full s).trans hround
  · intro fuel hfuel
    rw [Rule.run_full]
    apply (Rule.agrees_within (Rule.unfold_all _) r rfl (hbudget.trans_le hfuel) hbudget).1
  · rw [Rule.run_full]
    apply (Rule.agrees_within (Rule.unfold_all _) r rfl hbudget hbudget).2

end RuleCall

/-! ### Places in a text -/

/-- The place of a character of a text, or of its end. -/
def Location.Within (source : String) (l : Location) : Prop :=
  ∃ n ≤ source.length, l = .counted (source.toList.take n)

/-- Locations of tokens lie within the text. -/
theorem Location.OfToken.within {source : String} {l : Location} (h : l.OfToken source) :
  l.Within source
  := by
  obtain ⟨n, t, hnext, rfl⟩ := h
  obtain ⟨before, hbefore⟩ := Cursor.exists_in_after source n
  by_cases heof : t.value = .eof
  · use source.length, Nat.le_refl _
    rw [hbefore.eof hnext heof, List.take_of_length_le (Nat.le_of_eq (String.length_toList ..))]
  · obtain ⟨gap, first, tail, -, -, -, hlocation, hafter⟩ := hbefore.token hnext heof
    have htext := hafter.text_eq
    rw [List.append_assoc] at htext
    use (before ++ gap).length
    constructor
    · rw [← String.length_toList, htext]
      apply (List.prefix_append _ _).length_le
    · rw [hlocation, htext, List.take_left]

/-- Lexical errors are located within the text. -/
theorem within_of_mem_steps {source : String} {e : Located LexicalError}
    (h : .error e ∈ (TokenStream.ofText source).steps) :
  e.location.Within source
  := by
  obtain ⟨n, hn⟩ := (Cursor.ofText source).exists_next_eq_of_mem_steps h
  obtain ⟨before, hbefore⟩ := Cursor.exists_in_after source n
  obtain ⟨k, hk, hlocation⟩ := hbefore.error hn
  exact ⟨k, String.length_toList (s := source) ▸ hk, hlocation⟩

/-! ### What comes of a compilation -/

/-- A program ends with success, or with an error other than that on the number of steps. -/
theorem Pass.allows_program (s : Pass) :
  s.position.Allows (fun _ => 0) (s.run program)
  := (RuleCall.ends ⟨.declarations, s⟩).answers

/-- The first token leaves only steps of the text ahead. -/
theorem suffix_of_start {source : String} {registers : Nat} {s : Pass}
    (h : Pass.start source registers = .ok s) :
  s.stream.steps <:+ (TokenStream.ofText source).steps
  := by
  obtain ⟨p, hp, rfl⟩ := Pass.start_eq_ok_iff.mp h
  have hnext := TokenStream.suffix_next (.ofText source)
  rwa [hp] at hnext

/-- An error at the first token lies within the text, and is not that on the number of steps. -/
theorem within_of_start_eq_error {source : String} {registers : Nat} {e : Diagnostic}
    (h : Pass.start source registers = .error e) :
  e.location.Within source ∧ e.value ≠ .grammatical .stepLimit
  := by
  rw [Pass.start] at h
  rcases hnext : (TokenStream.ofText source).next with ⟨e' | lookahead, stream⟩
  · rw [hnext] at h
    cases h
    exact ⟨within_of_mem_steps (TokenStream.mem_steps_of_next hnext), nofun⟩
  · rw [hnext] at h
    cases h

/-- An error later on lies within the text, and is not that on the number of steps. -/
theorem within_of_run_eq_error {source : String} {registers : Nat} {start t : Pass} {e : Diagnostic}
    (hstart : Pass.start source registers = .ok start) (h : start.run program = (.error e, t)) :
  e.location.Within source ∧ e.value ≠ .grammatical .stepLimit
  := by
  have hallows := start.allows_program
  have hsourced := (Pass.sourced_of_start hstart).program.2
  rw [h] at hallows hsourced
  cases hallows with
  | error admits =>
    obtain ⟨cause | cause, l⟩ := e
    · exact ⟨within_of_mem_steps ((suffix_of_start hstart).subset admits), nofun⟩
    · refine ⟨(hsourced ⟨cause, l⟩ rfl).within, ?_⟩
      rintro ⟨⟩
      exact admits rfl

/-- A text is compiled, or refused at one of its places for a reason of its own. -/
theorem compile_eq_ok_or_eq_error (source : String) (registers : Nat) :
  (∃ listing, compile source registers = .ok listing) ∨
    ∃ e, compile source registers = .error e ∧ e.location.Within source ∧
      e.value ≠ .grammatical .stepLimit
  := by
  rcases hstart : Pass.start source registers with e | start
  · right
    refine ⟨e, ?_, within_of_start_eq_error hstart⟩
    rw [compile, hstart]
    rfl
  · rcases hrun : start.run program with ⟨e | u, t⟩
    · right
      refine ⟨e, ?_, within_of_run_eq_error hstart hrun⟩
      simp [compile, hstart, hrun, bind, Except.bind, throw, throwThe, MonadExceptOf.throw]
    · left
      use t.listing
      simp [compile, hstart, hrun, bind, Except.bind, pure, Except.pure]

/-- How the compilation of a text ends. -/
structure CompilationEnds (source : String) (registers : Nat) : Prop where
  /-- Rules call only what they may call, and are read in full. -/
  calls : ∀ c : RuleCall, c.Ends
  /-- No rule calls rules without end. -/
  wellFounded : WellFounded fun c' c : RuleCall => c.Makes c'
  /-- A rule is called again, by whatever calls, after a token has been taken. -/
  again : ∀ {c c' : RuleCall}, Relation.TransGen RuleCall.Makes c c' → c.rule.rank ≤ c'.rule.rank →
    c.state.position.Beyond 1 c'.state.position
  /-- A declaration takes a token, and so do a statement and an expression. -/
  declaration : ∀ s : Pass, s.position.Allows (fun _ => 1) (s.run declaration)
  statement : ∀ (s : Pass) (f : Enclosing),
    s.position.Allows (fun _ => 1) (s.run (statement f (functionBody f)))
  expression : ∀ (s : Pass) (slot : Slot),
    s.position.Allows (fun _ => 1) (s.run (expression slot))
  /-- A number of rounds that is linear in the length of the text is enough. -/
  linear : ∀ {start : Pass}, Pass.start source registers = .ok start →
    ∀ {c : RuleCall}, start.position.Beyond 0 c.state.position →
      ∀ {fuel : Nat}, source.length + 3 ≤ fuel →
        c.state.run (c.rule.within fuel) = c.state.run c.rule.full
  /-- A text is compiled, or refused at one of its places for a reason of its own. -/
  answer : (∃ listing, compile source registers = .ok listing) ∨
    ∃ e, compile source registers = .error e ∧ e.location.Within source ∧
      e.value ≠ .grammatical .stepLimit
  /-- There is always a scope to count from. -/
  depth : ∀ T : SymbolTable, T.stored.frames.length = T.stored.depth + 1
  /-- There is a parenthesis to close where one is closed. -/
  balance : ∀ y : Yard, y.unclosed ≠ 0 → y.closeParenthesis.unclosed + 1 = y.unclosed
  /-- There is a column to go back by after the first character of a lexeme. -/
  column : ∀ (l : Location) {first : Char},
    first = '"' ∨ first.isDigit ∨ Token.isWordStart first →
      l.next first = ⟨l.line, l.column + 1⟩
  /-- Two hexadecimal digits denote a byte, and a byte is a character. -/
  escape : ∀ {high low : Char} {h l : Nat}, Text.hexValue? high = some h →
    Text.hexValue? low = some l →
      16 * h + l < 256 ∧ (Char.ofNat (16 * h + l)).toNat = 16 * h + l
  /-- An integer that is read has its value. -/
  integer : ∀ {value : Nat} {n : Int64}, Token.int64? value = some n → n.toInt = value

/-- Compilation always ends, with an answer at a place of the text. -/
theorem compilation_ends (source : String) (registers : Nat) :
  CompilationEnds source registers
  where
  calls := RuleCall.ends
  wellFounded := RuleCall.wellFounded_makes
  again := by
    intro c c' h hrank
    apply (RuleCall.beyond_of_transGen h).mono
    omega
  declaration s := (leads_declaration s.position.beyond_self).2
  statement s f := (leads_statement (takes_functionBody f) f s.position.beyond_self).2
  expression s slot := (leads_expression slot s.position.beyond_self).2
  linear := by
    intro start hstart c hc fuel hfuel
    apply c.ends.enough ((Pass.budget_le hstart hc).trans hfuel)
  answer := compile_eq_ok_or_eq_error source registers
  depth T := by simp [StoredTable.depth, SymbolTable.stored, SymbolTable.length_scopes]
  balance y h := by
    rw [Yard.unclosed_closeParenthesis]
    omega
  column := by
    intro l first hfirst
    rw [Location.next, if_neg]
    rintro rfl
    revert hfirst
    decide
  escape := by
    intro high low h l hhigh hlow
    have hh := Text.hexValue?_lt hhigh
    have hl := Text.hexValue?_lt hlow
    have hvalid : (16 * h + l).isValidChar := .inl (by omega)
    constructor
    · omega
    · rw [Char.ofNat, dif_pos hvalid]
      rfl
  integer := Token.toInt_of_int64?

end SilFront
