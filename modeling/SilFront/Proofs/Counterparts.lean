import SilFront.Expression.Code
import Mathlib.Data.List.Forall2
import Mathlib.Tactic.Common

/-!
# Counterparts

Two expressions may be the same but for the places where they stand. Given which locations
correspond, `Located.Matches` says that two located things are counterparts: they have the same
value, and their locations correspond. Queues, yards and the states of code generation are
counterparts item by item.

Every step of a yard takes counterparts to counterparts. So does code generation
(`Expression.agree_compile`), also on machines of different sizes, as long as the smaller one has
registers enough.
-/

namespace SilFront

/-- The same value at locations that correspond. -/
inductive Located.Matches {α : Type} (P : Location → Location → Prop) : Located α → Located α → Prop
  | mk {value : α} {l l' : Location} (place : P l l') : Matches P ⟨value, l⟩ ⟨value, l'⟩

/-- Items with the same value, whose locations correspond. -/
inductive Item.Matches (P : Location → Location → Prop) : Item → Item → Prop
  | operand {token token' : Located Token} (h : token.Matches P token') :
      Matches P (.operand token) (.operand token')
  | operator {op op' : Located BinaryOp} (h : op.Matches P op') :
      Matches P (.operator op) (.operator op')

/-- The same operators with corresponding locations, or parentheses. -/
inductive Waiting.Matches (P : Location → Location → Prop) : Waiting → Waiting → Prop
  | operator {op op' : Located BinaryOp} (h : op.Matches P op') :
      Matches P (.operator op) (.operator op')
  | parenthesis : Matches P .parenthesis .parenthesis

/-- Yards that are the same item by item, with corresponding locations. -/
structure Yard.Matches (P : Location → Location → Prop) (y y' : Yard) : Prop where
  output : List.Forall₂ (Item.Matches P) y.output y'.output
  waiting : List.Forall₂ (Waiting.Matches P) y.waiting y'.waiting
  unclosed_eq : y.unclosed = y'.unclosed

variable {P : Location → Location → Prop}

/-- Counterparts have the same value. -/
theorem Located.Matches.value_eq {α : Type} {x y : Located α} (h : x.Matches P y) :
  x.value = y.value
  := by
  cases h
  rfl

/-! ### Yards -/

namespace Yard

theorem matches_empty :
  empty.Matches P empty
  := ⟨.nil, .nil, rfl⟩

/-- Operators that are counterparts are released alike, since only their values decide. -/
theorem matches_release {p : BinaryOp → Bool} {unclosed unclosed' : Nat}
    {output output' : List Item} {waiting waiting' : List Waiting}
    (hunclosed : unclosed = unclosed') (houtput : List.Forall₂ (Item.Matches P) output output')
    (hwaiting : List.Forall₂ (Waiting.Matches P) waiting waiting') :
  (release p unclosed output waiting).Matches P (release p unclosed' output' waiting')
  := by
  induction hwaiting generalizing output output' with
  | nil => exact ⟨houtput, .nil, hunclosed⟩
  | cons hfirst hrest ih =>
    cases hfirst with
    | parenthesis => exact ⟨houtput, .cons .parenthesis hrest, hunclosed⟩
    | @operator op op' hop =>
      rw [release, release, hop.value_eq]
      split
      · apply ih (.cons (.operator hop) houtput)
      · exact ⟨houtput, .cons (.operator hop) hrest, hunclosed⟩

namespace Matches

variable {y y' : Yard}

/-- Counterparts remain so with one more operand on each side. -/
theorem operand (h : y.Matches P y') {token token' : Located Token} (ht : token.Matches P token') :
  (y.operand token).Matches P (y'.operand token')
  := ⟨.cons (.operand ht) h.output, h.waiting, h.unclosed_eq⟩

theorem openParenthesis (h : y.Matches P y') :
  y.openParenthesis.Matches P y'.openParenthesis
  := ⟨h.output, .cons .parenthesis h.waiting, congrArg (· + 1) h.unclosed_eq⟩

/-- Counterparts remain so with one more operator on each side. -/
theorem operator (h : y.Matches P y') {op op' : Located BinaryOp} (hop : op.Matches P op') :
  (y.operator op).Matches P (y'.operator op')
  := by
  have hrelease := matches_release (p := fun waiting => waiting.drainsBefore op.value)
    h.unclosed_eq h.output h.waiting
  rw [Yard.operator, Yard.operator, ← hop.value_eq]
  exact ⟨hrelease.output, .cons (.operator hop) hrelease.waiting, hrelease.unclosed_eq⟩

/-- Counterparts remain so when all operators up to a parenthesis are released. -/
theorem drain (h : y.Matches P y') :
  y.drain.Matches P y'.drain
  := matches_release h.unclosed_eq h.output h.waiting

/-- Counterparts remain so when a parenthesis is closed on each side. -/
theorem closeParenthesis (h : y.Matches P y') :
  y.closeParenthesis.Matches P y'.closeParenthesis
  := by
  have htail := List.forall₂_drop 1 h.drain.waiting
  rw [List.drop_one, List.drop_one] at htail
  exact ⟨h.drain.output, htail, congrArg (· - 1) h.drain.unclosed_eq⟩

/-- The queues of counterparts are counterparts item by item. -/
theorem queue (h : y.Matches P y') :
  List.Forall₂ (Item.Matches P) y.queue y'.queue
  := List.forall₂_reverse_iff.mpr h.drain.output

end Matches

end Yard

/-! ### Code -/

/-- States of code generation with the same code and the same live values, which were read at
corresponding locations. -/
structure Generation.Matches (P : Location → Location → Prop) (g g' : Generation) : Prop where
  live : List.Forall₂ (Located.Matches P) g.live g'.live
  code : g.code = g'.code

namespace Expression

/-- The results of two checks agree: both succeed, or both fail for the same reason at corresponding
locations, or the first one fails for a reason that is pardoned. -/
inductive Agree (P : Location → Location → Prop) (Pardons : SyntaxError → Prop) {α : Type}
    (Q : α → α → Prop) :
    Except (Located SyntaxError) α → Except (Located SyntaxError) α → Prop
  | ok {x y : α} (h : Q x y) : Agree P Pardons Q (.ok x) (.ok y)
  | refused {e e' : Located SyntaxError} (h : e.Matches P e') :
      Agree P Pardons Q (.error e) (.error e')
  | pardoned {e : Located SyntaxError} {result : Except (Located SyntaxError) α}
      (h : Pardons e.value) : Agree P Pardons Q (.error e) result

variable {Pardons : SyntaxError → Prop}

/-- Checks agree one after the other if the later ones agree on results that are related. -/
theorem Agree.bind {α β : Type} {Q : α → α → Prop} {R : β → β → Prop}
    {first first' : Except (Located SyntaxError) α}
    {second second' : α → Except (Located SyntaxError) β} (h : Agree P Pardons Q first first')
    (h' : ∀ x y, Q x y → Agree P Pardons R (second x) (second' y)) :
  Agree P Pardons R (first >>= second) (first' >>= second')
  := by
  cases h with
  | ok h => apply h' _ _ h
  | refused h => apply Agree.refused h
  | pardoned h => apply Agree.pardoned h

/-- Refusals for the same reason agree at corresponding locations. -/
theorem agree_refuse {α : Type} {Q : α → α → Prop} (cause : SyntaxError) {l l' : Location}
    (h : P l l') :
  Agree P Pardons Q (refuse cause l) (refuse cause l')
  := .refused ⟨h⟩

section

variable {registers registers' : Nat} (hle : registers ≤ registers')
  (hpardons : registers = registers' ∨ Pardons (.tooManyValues registers)) {g g' : Generation}

include hle hpardons

/-- Operands that are counterparts are loaded alike, or the smaller machine has no register left. -/
theorem agree_operand (constant : Bool) (hg : g.Matches P g') {token token' : Located Token}
    (htoken : token.Matches P token') :
  Agree P Pardons (Generation.Matches P) (operand registers constant g token)
    (operand registers' constant g' token')
  := by
  obtain @⟨value, location, location', hlocation⟩ := htoken
  have hlength := hg.live.length_eq
  have hlive : List.Forall₂ (Located.Matches P) (⟨value.number?, location⟩ :: g.live)
      (⟨value.number?, location'⟩ :: g'.live) := .cons ⟨hlocation⟩ hg.live
  simp only [operand, ← hlength, ← hg.code]
  by_cases hfull : registers ≤ g.live.length
  · rw [if_pos hfull]
    obtain rfl | hpardon := hpardons
    · rw [if_pos hfull]
      apply agree_refuse _ hlocation
    · apply Agree.pardoned hpardon
  · rw [if_neg hfull, if_neg (show ¬ registers' ≤ g.live.length by omega)]
    cases constant with
    | true => exact .ok ⟨hlive, rfl⟩
    | false =>
      cases Value.ofToken? value with
      | none => apply agree_refuse _ hlocation
      | some value => exact .ok ⟨hlive, rfl⟩

omit hle hpardons in
/-- Operators that are counterparts are applied alike. -/
theorem agree_operator (constant : Bool) (hg : g.Matches P g') {op op' : Located BinaryOp}
    (hop : op.Matches P op') :
  Agree P Pardons (Generation.Matches P) (operator constant g op) (operator constant g' op')
  := by
  obtain ⟨hlocation⟩ := hop
  obtain ⟨live, code⟩ := g
  obtain ⟨live', code'⟩ := g'
  obtain ⟨hlive, rfl⟩ := hg
  unfold operator
  cases hlive with
  | nil => apply agree_refuse _ hlocation
  | cons hrhs hlive =>
    cases hlive with
    | nil => apply agree_refuse _ hlocation
    | cons hlhs hlive =>
      dsimp only
      rw [← hrhs.value_eq, ← hlhs.value_eq, ← hlive.length_eq]
      split
      · apply agree_refuse _ hlocation
      split
      · split
        · exact .ok ⟨.cons ⟨hlocation⟩ hlive, rfl⟩
        · apply agree_refuse _ hlocation
      · exact .ok ⟨.cons ⟨hlocation⟩ hlive, rfl⟩

/-- Queues that are counterparts are worked off alike, item by item. -/
theorem agree_foldlM_item (constant : Bool) {items items' : List Item}
    (hitems : List.Forall₂ (Item.Matches P) items items') (hg : g.Matches P g') :
  Agree P Pardons (Generation.Matches P) (items.foldlM (item registers constant) g)
    (items'.foldlM (item registers' constant) g')
  := by
  induction hitems generalizing g g' with
  | nil => exact .ok hg
  | cons hfirst _ ih =>
    rw [List.foldlM_cons, List.foldlM_cons]
    refine Agree.bind ?_ fun _ _ => ih
    cases hfirst with
    | operand h => apply agree_operand hle hpardons constant hg h
    | operator h => apply agree_operator constant hg h

omit hle hpardons in
/-- Of two counterparts, either both consist of constants or neither does. -/
theorem isConstant_eq_of_matches {items items' : List Item}
    (h : List.Forall₂ (Item.Matches P) items items') :
  isConstant items = isConstant items'
  := by
  induction h with
  | nil => rfl
  | cons hfirst _ ih =>
    simp only [isConstant, List.all_cons] at ih ⊢
    rw [ih]
    cases hfirst with
    | operand h => simp only [h.value_eq]
    | operator => rfl

/-- Queues that are counterparts compile to the same code, or are refused for the same reason at
corresponding locations. A machine with fewer registers may refuse more, for that reason only. -/
theorem agree_compile {items items' : List Item} (slot : Slot) {l l' : Location}
    (hitems : List.Forall₂ (Item.Matches P) items items') (hlocation : P l l') :
  Agree P Pardons Eq (compile items slot registers l) (compile items' slot registers' l')
  := by
  have hempty : (⟨[], []⟩ : Generation).Matches P ⟨[], []⟩ := ⟨.nil, rfl⟩
  unfold compile
  rw [← isConstant_eq_of_matches hitems]
  apply (agree_foldlM_item hle hpardons _ hitems hempty).bind
  rintro ⟨live, code⟩ ⟨live', _⟩ ⟨hlive, rfl⟩
  cases hlive with
  | nil => apply agree_refuse _ hlocation
  | @cons result result' _ _ hresult hlive =>
    cases hlive with
    | nil =>
      refine .ok ?_
      simp only [deliver, hresult.value_eq]
    | cons _ _ =>
      obtain ⟨hlocation⟩ := hresult
      apply agree_refuse _ hlocation

end

end Expression

end SilFront
