import SilFront.Proofs.Machine

/-!
# Executing the code of a queue

The operations that `Expression.compile` makes of a queue bring the value of the queue where it is
wanted, from any state of the machine. There are two ways to that code, each with an invariant of
its own that every item of the queue keeps:

* if all operands are numbers, nothing is executed on the way, and the live values are the numbers
  that the stack of values holds (`Folded`);
* otherwise the code executed so far leaves the values of the stack in the registers below its
  height (`Loaded`).
-/

namespace SilFront

/-- The tokens that are numbers. -/
theorem Token.number?_isSome {token : Token} :
  token.number?.isSome = true ↔ ∃ n, token = .number n
  := by
  cases token <;> simp [number?]

namespace Expression

/-! ### What reading an item can do -/

/-- Reading an operand makes it live; unless all operands are numbers, it is loaded as well. -/
theorem operand_eq_ok {registers : Nat} {constant : Bool} {g g' : Generation}
    {token : Located Token} (h : operand registers constant g token = .ok g') :
  g.live.length < registers ∧ g'.live = ⟨token.value.number?, token.location⟩ :: g.live ∧
    ((constant = true ∧ g'.code = g.code) ∨
      (constant = false ∧ ∃ value, Value.ofToken? token.value = some value ∧
        g'.code = .load g.live.length value :: g.code))
  := by
  simp only [operand, refuse] at h
  split at h
  · cases h
  · rename_i hlive
    split at h
    · rename_i hconstant
      obtain rfl := Except.ok.inj h
      exact ⟨Nat.lt_of_not_le hlive, rfl, .inl ⟨hconstant, rfl⟩⟩
    · rename_i hconstant
      split at h
      · rename_i value hvalue
        obtain rfl := Except.ok.inj h
        exact ⟨Nat.lt_of_not_le hlive, rfl,
          .inr ⟨eq_false_of_ne_true hconstant, value, hvalue, rfl⟩⟩
      · cases h

/-- Reading an operator replaces the two values that came to live last: by the number that it makes
of them if all operands are numbers, and otherwise by the result of an operation on the two topmost
registers. -/
theorem operator_eq_ok {constant : Bool} {g g' : Generation} {op : Located BinaryOp}
    (h : operator constant g op = .ok g') :
  ∃ rhs lhs live, g.live = rhs :: lhs :: live ∧
    ((constant = true ∧ ∃ a b n, lhs.value = some a ∧ rhs.value = some b ∧
        Number.apply op.value a b = some n ∧ g' = ⟨⟨some n, op.location⟩ :: live, g.code⟩) ∨
      ((constant = true → lhs.value = none ∨ rhs.value = none) ∧
        g' = ⟨⟨none, op.location⟩ :: live,
          .binary live.length live.length op.value (live.length + 1) :: g.code⟩))
  := by
  simp only [operator, refuse] at h
  split at h
  · rename_i rhs lhs live hlive
    use rhs, lhs, live, hlive
    split at h
    · cases h
    · split at h
      · rename_i a b ha hb
        split at h
        · rename_i n hn
          obtain rfl := Except.ok.inj h
          exact .inl ⟨rfl, a, b, n, ha, hb, hn, rfl⟩
        · cases h
      · rename_i hnot
        obtain rfl := Except.ok.inj h
        refine .inr ⟨?_, rfl⟩
        intro hconstant
        cases ha : lhs.value with
        | none => exact .inl rfl
        | some a =>
          cases hb : rhs.value with
          | none => exact .inr rfl
          | some b => exact (hnot a b hconstant ha hb).elim
  · cases h

/-- An expression compiles if its items leave exactly one live value, and then its code is theirs
and what delivers that value. -/
theorem compile_eq_ok_iff {items : List Item} {slot : Slot} {registers : Nat} {location : Location}
    {code : List Operation} :
  compile items slot registers location = .ok code ↔
    ∃ g result, items.foldlM (item registers (isConstant items)) ⟨[], []⟩ = .ok g ∧
      g.live = [result] ∧ code = g.code.reverse ++ deliver (isConstant items) slot result
  := by
  simp only [compile]
  cases hg : items.foldlM (item registers (isConstant items)) ⟨[], []⟩ with
  | error e => simp [bind, Except.bind]
  | ok g =>
    obtain ⟨live, ops⟩ := g
    rcases live with _ | ⟨result, _ | ⟨other, rest⟩⟩
    · simp [bind, Except.bind, refuse]
    · simp [bind, Except.bind, pure, Except.pure, eq_comm]
    · simp [bind, Except.bind, refuse]

end Expression

namespace Interpretation

variable {α : Type*} (I : Interpretation α)

/-- If every item of a queue takes related states to related states, so does the whole queue. -/
theorem stack?_of_related
    {registers : Nat} {constant : Bool} (returned : α) (R : Generation → List α → Prop) :
  ∀ {items : List Item} {g g' : Generation} {stack : List α},
    (∀ item ∈ items, ∀ g g' stack, R g stack → Expression.item registers constant g item = .ok g' →
      ∃ stack', I.push? returned stack item = some stack' ∧ R g' stack') →
    R g stack → items.foldlM (Expression.item registers constant) g = .ok g' →
    ∃ stack', I.stack? returned stack items = some stack' ∧ R g' stack'
  | [], g, g', stack, _, hR, hg => by
      obtain rfl : g = g' := Except.ok.inj hg
      use stack, rfl
  | item :: items, g, g', stack, hstep, hR, hg => by
      rw [List.foldlM_cons] at hg
      cases hnext : Expression.item registers constant g item with
      | error e =>
        rw [hnext] at hg
        cases hg
      | ok next =>
        rw [hnext] at hg
        obtain ⟨stack₁, hstack₁, hR₁⟩ := hstep item List.mem_cons_self g next stack hR hnext
        obtain ⟨stack', hstack', hR'⟩ := stack?_of_related returned R
          (fun item hitem => hstep item (List.mem_cons_of_mem _ hitem)) hR₁ hg
        use stack'
        constructor
        · rw [stack?, List.foldlM_cons, hstack₁]
          apply hstack'
        · apply hR'

/-! ### Queues of numbers -/

/-- The live values are numbers, the same as on a stack of values, and there is no code yet. -/
def Folded (g : Generation) (stack : List α) : Prop :=
  g.code = [] ∧
    ∃ numbers : List Number, g.live.map Located.value = numbers.map some ∧ stack = numbers.map I.number

variable {I} in
/-- An item of a queue of numbers keeps the live values those on the stack. -/
theorem Folded.item {registers : Nat} {returned : α} {item : Item} {g g' : Generation}
    {stack : List α} (hI : I.Folds) (hitem : Expression.isConstant [item] = true)
    (hg : I.Folded g stack) (h : Expression.item registers true g item = .ok g') :
  ∃ stack', I.push? returned stack item = some stack' ∧ I.Folded g' stack'
  := by
  obtain ⟨hcode, numbers, hlive, rfl⟩ := hg
  cases item with
  | operand token =>
    obtain ⟨-, hlive', hcase⟩ := Expression.operand_eq_ok h
    obtain ⟨-, hcode'⟩ : true = true ∧ g'.code = g.code := by simpa using hcase
    obtain ⟨n, hn⟩ := Token.number?_isSome.mp (by simpa [Expression.isConstant] using hitem)
    use (n :: numbers).map I.number
    constructor
    · simp [push?, operand?, hn]
    · use hcode'.trans hcode, n :: numbers
      simp [hlive', hlive, hn, Token.number?]
  | operator op =>
    replace h : Expression.operator true g op = .ok g' := h
    obtain ⟨rhs, lhs, live, hg, hcase⟩ := Expression.operator_eq_ok h
    rw [hg] at hlive
    obtain _ | ⟨b, _ | ⟨a, rest⟩⟩ := numbers
    · simp at hlive
    · simp at hlive
    · simp only [List.map_cons, List.cons.injEq] at hlive
      obtain ⟨hb, ha, hrest⟩ := hlive
      obtain ⟨-, a', b', n, ha', hb', hn, rfl⟩ | ⟨hnone, -⟩ := hcase
      · obtain rfl : a = a' := Option.some.inj (ha.symm.trans ha')
        obtain rfl : b = b' := Option.some.inj (hb.symm.trans hb')
        use (n :: rest).map I.number
        constructor
        · simp [push?, hI _ _ _ _ hn]
        · use hcode, n :: rest
          simp [hrest]
      · simp [ha, hb] at hnone

/-! ### Other queues -/

/-- The code so far, executed from a state of the machine, leaves the values of a stack in the
registers below its height, and changes nothing but registers. -/
structure Loaded (arity : String → Nat) (m : Machine α) (g : Generation) (stack : List α) : Prop where
  height : g.live.length = stack.length
  keeps : (I.run arity m g.code.reverse).Keeps stack
  pushed : (I.run arity m g.code.reverse).pushed = m.pushed
  returned : (I.run arity m g.code.reverse).returned = m.returned

variable {I} in
/-- Executing the code of an item keeps the values of the stack in the registers below its
height. -/
theorem Loaded.item {registers : Nat} {arity : String → Nat} {m : Machine α} {item : Item}
    {g g' : Generation} {stack : List α} (hg : I.Loaded arity m g stack)
    (h : Expression.item registers false g item = .ok g') :
  ∃ stack', I.push? m.returned stack item = some stack' ∧ I.Loaded arity m g' stack'
  := by
  cases item with
  | operand token =>
    obtain ⟨-, hlive', hcase⟩ := Expression.operand_eq_ok h
    obtain ⟨value, hvalue, hcode'⟩ : ∃ value, Value.ofToken? token.value = some value ∧
        g'.code = .load g.live.length value :: g.code := by simpa using hcase
    have hread := I.operand?_eq_read hvalue (I.run arity m g.code.reverse)
    rw [hg.returned] at hread
    use I.read (I.run arity m g.code.reverse) value :: stack
    constructor
    · simp [push?, hread]
    · constructor
      · simp [hlive', hg.height]
      · rw [hcode', List.reverse_cons, run_append, hg.height]
        apply hg.keeps.cons
      · rw [hcode', List.reverse_cons, run_append]
        apply hg.pushed
      · rw [hcode', List.reverse_cons, run_append]
        apply hg.returned
  | operator op =>
    replace h : Expression.operator false g op = .ok g' := h
    obtain ⟨rhs, lhs, live, hlive, hcase⟩ := Expression.operator_eq_ok h
    obtain rfl : g' = ⟨⟨none, op.location⟩ :: live,
        .binary live.length live.length op.value (live.length + 1) :: g.code⟩ := by
      simpa using hcase
    have hheight := hg.height
    rw [hlive] at hheight
    obtain _ | ⟨b, _ | ⟨a, rest⟩⟩ := stack
    · cases hheight
    · cases hheight
    · have hlength : live.length = rest.length := by simpa using hheight
      obtain ⟨hb, ha, hrest⟩ := hg.keeps
      use I.operator op.value a b :: rest
      constructor
      · rfl
      · constructor
        · simp [hlength]
        · rw [List.reverse_cons, run_append, hlength]
          rw [List.length_cons] at hb
          have h := hrest.cons (I.operator op.value a b)
          rw [← ha, ← hb] at h ⊢
          apply h
        · rw [List.reverse_cons, run_append]
          apply hg.pushed
        · rw [List.reverse_cons, run_append]
          apply hg.returned

/-! ### Whole queues -/

variable {I}

/-- The code of a queue of numbers delivers its value, which is a number, and calls nothing. -/
theorem delivers_of_isConstant {items : List Item} {slot : Slot} {registers : Nat}
    {location : Location} {code : List Operation} (hI : I.Folds)
    (hconstant : Expression.isConstant items = true)
    (h : Expression.compile items slot registers location = .ok code)
    (arity : String → Nat) (m : Machine α) :
  ∃ v, I.value? m.returned items = some v ∧ Machine.Delivers slot m (I.run arity m code) v ∧
    (I.run arity m code).returned = m.returned
  := by
  obtain ⟨g, result, hg, hlive, rfl⟩ := Expression.compile_eq_ok_iff.mp h
  rw [hconstant] at hg ⊢
  have hitem : ∀ item ∈ items, Expression.isConstant [item] = true := by
    simpa [Expression.isConstant] using hconstant
  have hempty : I.Folded ⟨[], []⟩ [] := ⟨rfl, [], rfl, rfl⟩
  obtain ⟨stack, hstack, hcode, numbers, hnumbers, rfl⟩ := I.stack?_of_related m.returned I.Folded
    (fun item hmem _ _ _ hR => Folded.item hI (hitem item hmem) hR) hempty hg
  rw [hlive] at hnumbers
  obtain _ | ⟨n, _ | ⟨n', rest⟩⟩ := numbers
  · simp at hnumbers
  · have hresult : result.value = some n := by simpa using hnumbers
    use I.number n
    constructor
    · rw [value?, hstack]
      rfl
    · cases slot with
      | register => simp [hcode, Expression.deliver, hresult, step, read, Machine.Delivers]
      | stack => simp [hcode, Expression.deliver, hresult, step, read, Machine.Delivers]
  · simp at hnumbers

/-- The code of a queue with an operand that is no number delivers its value, which it has computed
in register zero, and calls nothing. -/
theorem delivers_of_not_isConstant {items : List Item} {slot : Slot} {registers : Nat}
    {location : Location} {code : List Operation} (hconstant : Expression.isConstant items = false)
    (h : Expression.compile items slot registers location = .ok code)
    (arity : String → Nat) (m : Machine α) :
  ∃ v, I.value? m.returned items = some v ∧ Machine.Delivers slot m (I.run arity m code) v ∧
    (I.run arity m code).returned = m.returned
  := by
  obtain ⟨g, result, hg, hlive, rfl⟩ := Expression.compile_eq_ok_iff.mp h
  rw [hconstant] at hg ⊢
  have hempty : I.Loaded arity m ⟨[], []⟩ [] := ⟨rfl, trivial, rfl, rfl⟩
  obtain ⟨stack, hstack, hloaded⟩ := I.stack?_of_related m.returned (I.Loaded arity m)
    (fun item _ _ _ _ hR => Loaded.item hR) hempty hg
  have hheight := hloaded.height
  rw [hlive] at hheight
  obtain _ | ⟨v, _ | ⟨w, rest⟩⟩ := stack
  · cases hheight
  · have hv : (I.run arity m g.code.reverse).registers 0 = v := hloaded.keeps.1
    have hpushed := hloaded.pushed
    have hreturned := hloaded.returned
    use v
    constructor
    · rw [value?, hstack]
    · cases slot with
      | register => simp [Expression.deliver, Machine.Delivers, hv, hpushed, hreturned]
      | stack => simp [Expression.deliver, Machine.Delivers, step, read, hv, hpushed, hreturned]
  · cases hheight

/-- Executing the code of a queue, from any state of the machine, brings the value of the queue
where it is wanted: into register zero while nothing is pushed, or on top of what is pushed. -/
theorem value_of_compile {items : List Item} {slot : Slot} {registers : Nat} {location : Location}
    {code : List Operation} (hI : I.Folds)
    (h : Expression.compile items slot registers location = .ok code)
    (arity : String → Nat) (m : Machine α) :
  ∃ v, I.value? m.returned items = some v ∧ Machine.Delivers slot m (I.run arity m code) v
  := by
  cases hconstant : Expression.isConstant items with
  | true =>
    obtain ⟨v, hv, hdelivers, -⟩ := delivers_of_isConstant hI hconstant h arity m
    use v, hv, hdelivers
  | false =>
    obtain ⟨v, hv, hdelivers, -⟩ := delivers_of_not_isConstant hconstant h arity m
    use v, hv, hdelivers

/-- The code of `x + 2 * 3` pushes its value. -/
theorem value_of_compile_sum :
  let I := ofNumbers (fun _ => .int 7) (fun _ _ => .int 0)
  let items : List Item := [.operand ⟨.ident "x", .start⟩, .operand ⟨.number (.int 2), .start⟩,
    .operand ⟨.number (.int 3), .start⟩, .operator ⟨.mul, .start⟩, .operator ⟨.add, .start⟩]
  let code : List Operation := [.load 0 (.variable "x"), .load 1 (.number (.int 2)),
    .load 2 (.number (.int 3)), .binary 1 1 .mul 2, .binary 0 0 .add 1, .push (.register 0)]
  let m : Machine Number := ⟨fun _ => .int 0, [.int 5], .int 0⟩
  Expression.compile items .stack 3 .start = .ok code ∧
    ∃ v, I.value? m.returned items = some v ∧
      Machine.Delivers .stack m (I.run (fun _ => 0) m code) v
  := by
  intro I items code m
  have h : Expression.compile items .stack 3 .start = .ok code := by decide
  exact ⟨h, value_of_compile (folds_ofNumbers _ _) h _ m⟩

end Interpretation

end SilFront
