import SilFront.Proofs.Shunting

/-!
# Expressions without locations

Where the tokens of an expression stand shows in its errors only. `Yard.bare` and `Item.bare` move
everything to one location: every step of a yard commutes with that, and so does the code of a queue
(`Expression.compile_map_bare`).
-/

namespace SilFront

/-- An item without its location. -/
def Item.bare : Item → Item
  | .operand token => .operand ⟨token.value, .start⟩
  | .operator op => .operator ⟨op.value, .start⟩

/-- What waits in a yard, without its location. -/
def Waiting.bare : Waiting → Waiting
  | .operator op => .operator ⟨op.value, .start⟩
  | .parenthesis => .parenthesis

namespace Yard

/-- A yard without locations. -/
def bare (y : Yard) : Yard :=
  ⟨y.output.map Item.bare, y.waiting.map Waiting.bare, y.unclosed⟩

@[simp]
theorem bare_empty :
  empty.bare = empty
  := rfl

/-- An operand is put into a yard without its location, if the locations are left out. -/
@[simp]
theorem bare_operand (y : Yard) (token : Located Token) :
  (y.operand token).bare = y.bare.operand ⟨token.value, .start⟩
  := rfl

@[simp]
theorem bare_openParenthesis (y : Yard) :
  y.openParenthesis.bare = y.bare.openParenthesis
  := rfl

/-- Operators are released without regard to locations. -/
theorem bare_release (p : BinaryOp → Bool) (unclosed : Nat) (output : List Item)
    (waiting : List Waiting) :
  (release p unclosed output waiting).bare =
    release p unclosed (output.map Item.bare) (waiting.map Waiting.bare)
  := by
  induction waiting generalizing output with
  | nil => rfl
  | cons w waiting ih =>
    cases w with
    | parenthesis => rfl
    | operator op =>
      rw [release, List.map_cons, Waiting.bare, release]
      split
      · apply ih
      · rfl

/-- An operator is put into a yard without regard to locations. -/
@[simp]
theorem bare_operator (y : Yard) (op : Located BinaryOp) :
  (y.operator op).bare = y.bare.operator ⟨op.value, .start⟩
  := by
  have h := bare_release (fun waiting => waiting.drainsBefore op.value) y.unclosed y.output y.waiting
  simp only [operator, bare, Yard.mk.injEq, List.map_cons] at h ⊢
  rw [← h]
  exact ⟨rfl, rfl, rfl⟩

@[simp]
theorem bare_drain (y : Yard) :
  y.drain.bare = y.bare.drain
  := bare_release ..

/-- A parenthesis is closed without regard to locations. -/
@[simp]
theorem bare_closeParenthesis (y : Yard) :
  y.closeParenthesis.bare = y.bare.closeParenthesis
  := by
  simp only [closeParenthesis, ← bare_drain]
  simp only [bare, List.map_tail]

/-- Leaving out the locations of a yard leaves out those of its queue. -/
@[simp]
theorem queue_bare (y : Yard) :
  y.bare.queue = y.queue.map Item.bare
  := by
  rw [queue, queue, ← bare_drain, bare, List.map_reverse]

@[simp]
theorem unclosed_bare (y : Yard) :
  y.bare.unclosed = y.unclosed
  := rfl

end Yard

namespace Expression

/-- The state of code generation without locations. -/
def bareState (g : Generation) : Generation :=
  { g with live := g.live.map fun v => ⟨v.value, .start⟩ }

/-- Reading an item does not look at locations, unless it fails. -/
theorem item_bare (registers : Nat) (constant : Bool) (g : Generation) (i : Item) :
  (item registers constant (bareState g) i.bare).toOption =
    (item registers constant g i).toOption.map bareState
  := by
  obtain ⟨live, code⟩ := g
  cases i with
  | operand token =>
    simp only [item, Item.bare, operand, bareState, List.length_map, refuse]
    split
    · rfl
    · split
      · rfl
      · cases Value.ofToken? token.value <;> rfl
  | operator op =>
    simp only [item, Item.bare, operator, bareState, refuse]
    rcases live with _ | ⟨rhs, _ | ⟨lhs, live⟩⟩
    · rfl
    · rfl
    · simp only [List.map_cons, List.length_map]
      split
      · rfl
      · split
        · rename_i a b _ _
          cases Number.apply op.value a b <;> rfl
        · rfl

/-- Code is generated from a queue without its locations as it is from the queue itself. -/
theorem foldlM_item_bare (registers : Nat) (constant : Bool) (items : List Item) (g : Generation) :
  ((items.map Item.bare).foldlM (item registers constant) (bareState g)).toOption =
    (items.foldlM (item registers constant) g).toOption.map bareState
  := by
  induction items generalizing g with
  | nil => rfl
  | cons i items ih =>
    have h := item_bare registers constant g i
    rw [List.map_cons, List.foldlM_cons, List.foldlM_cons]
    cases hnext : item registers constant g i with
    | error e =>
      rw [hnext] at h
      cases hbare : item registers constant (bareState g) i.bare with
      | error e' => rfl
      | ok next => simp [hbare, Except.toOption] at h
    | ok next =>
      rw [hnext] at h
      cases hbare : item registers constant (bareState g) i.bare with
      | error e' => simp [hbare, Except.toOption] at h
      | ok next' =>
        obtain rfl : next' = bareState next := by simpa [hbare, Except.toOption] using h
        apply ih

/-- The code of a queue does not depend on the locations of its items. -/
theorem compile_map_bare {items : List Item} {slot : Slot} {registers : Nat} {location : Location}
    {code : List Operation} :
  compile (items.map Item.bare) slot registers location = .ok code ↔
    compile items slot registers location = .ok code
  := by
  have hconstant : isConstant (items.map Item.bare) = isConstant items := by
    rw [isConstant, List.all_map]
    congr 1
    funext i
    cases i <;> rfl
  have h := foldlM_item_bare registers (isConstant items) items ⟨[], []⟩
  rw [compile_eq_ok_iff, compile_eq_ok_iff, hconstant]
  constructor
  · rintro ⟨g, result, hg, hlive, rfl⟩
    rw [show bareState ⟨[], []⟩ = ⟨[], []⟩ from rfl, hg] at h
    cases hg' : items.foldlM (item registers (isConstant items)) ⟨[], []⟩ with
    | error e => simp [hg', Except.toOption] at h
    | ok g' =>
      obtain rfl : g = bareState g' := by simpa [hg', Except.toOption] using h
      obtain ⟨result', hlive', rfl⟩ := List.map_eq_singleton_iff.mp hlive
      exact ⟨g', result', rfl, hlive', rfl⟩
  · rintro ⟨g, result, hg, hlive, rfl⟩
    rw [show bareState ⟨[], []⟩ = ⟨[], []⟩ from rfl, hg] at h
    cases hg' : (items.map Item.bare).foldlM (item registers (isConstant items)) ⟨[], []⟩ with
    | error e => simp [hg', Except.toOption] at h
    | ok g' =>
      obtain rfl : g' = bareState g := by simpa [hg', Except.toOption] using h
      exact ⟨bareState g, ⟨result.value, .start⟩, rfl, by simp [bareState, hlive], rfl⟩

end Expression

end SilFront
