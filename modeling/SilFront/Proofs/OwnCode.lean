import SilFront.Proofs.Execution
import SilFront.Proofs.Outline
import SilFront.Proofs.Sequences

/-!
# The own code of an expression

The operations that `Expression.compile` makes of a queue are straight: loads and operators that
write registers, and at the end one operation that brings the value where it is wanted. Every
register that they read is written before in the same code, no register is beyond those that the
machine has, and nothing is loaded but the operands of the queue and numbers.

As for its meaning, there are two ways to the code of a queue: if all operands are numbers it is a
single operation, and otherwise every item of the queue keeps an invariant (`Generation.Straight`).
-/

namespace SilFront

/-- The registers that a value is read from. -/
def Value.reads : Value → List Nat
  | .register index => [index]
  | _ => []

namespace Operation

/-- The register that an operation writes. -/
def dest? : Operation → Option Nat
  | .load dest _ => some dest
  | .binary dest _ _ _ => some dest
  | _ => none

/-- The registers that an operation reads. -/
def reads : Operation → List Nat
  | .load _ value => value.reads
  | .binary _ lhs _ rhs => [lhs, rhs]
  | .push value => value.reads
  | .call _ => []

/-- The registers that an operation names. -/
def registers (op : Operation) : List Nat :=
  op.dest?.toList ++ op.reads

/-- Whether an operation brings a value where it is wanted. -/
def Delivers (op : Operation) : Slot → Prop
  | .register => op.dest? = some 0
  | .stack => op = .push (.register 0) ∨ ∃ n, op = .push (.number n)

end Operation

/-- Every register that code reads is written before, in the code itself. -/
def WritesBeforeReads (code : List Operation) : Prop :=
  ∀ before op after, code = before ++ op :: after →
    ∀ r ∈ op.reads, ∃ w ∈ before, w.dest? = some r

theorem writesBeforeReads_nil :
  WritesBeforeReads []
  := by
  intro before op after h
  simp at h

/-- An operation may follow code that writes what the operation reads. -/
theorem WritesBeforeReads.append_singleton {code : List Operation} {op : Operation}
    (h : WritesBeforeReads code) (hop : ∀ r ∈ op.reads, ∃ w ∈ code, w.dest? = some r) :
  WritesBeforeReads (code ++ [op])
  := by
  intro before op' after heq
  obtain ⟨back, hcode, -⟩ | ⟨front, rfl, hlast⟩ := append_eq_append_cons heq
  · apply h before op' back hcode
  · obtain ⟨rfl, rfl⟩ := eq_of_singleton_eq hlast
    simpa using hop

/-! ### Queues with an operand that is no number -/

/-- The state of code generation in which every live value is in its register. -/
structure Generation.Straight (registers : Nat) (items : List Item) (g : Generation) : Prop where
  bounded : g.live.length ≤ registers
  writes : ∀ op ∈ g.code, op.dest?.isSome
  within : ∀ op ∈ g.code, ∀ r ∈ op.registers, r < registers
  live : ∀ k < g.live.length, ∃ w ∈ g.code, w.dest? = some k
  order : WritesBeforeReads g.code.reverse
  latest : g.live ≠ [] → ∃ op ∈ g.code.head?, op.dest? = some (g.live.length - 1)
  loads : ∀ dest value, .load dest value ∈ g.code →
    ∃ token, .operand token ∈ items ∧ Value.ofToken? token.value = some value

/-- The state of code generation in which every live value is a known number. -/
structure Generation.Known (registers : Nat) (g : Generation) : Prop where
  bounded : g.live.length ≤ registers
  code : g.code = []
  known : ∀ v ∈ g.live, v.value.isSome

namespace Generation

variable {registers : Nat} {items : List Item} {g g' : Generation}

theorem straight_empty :
  (⟨[], []⟩ : Generation).Straight registers items
  where
  bounded := Nat.zero_le _
  writes := by simp
  within := by simp
  live := by simp
  order := writesBeforeReads_nil
  latest := by simp
  loads := by simp

/-- A load puts an operand into the next free register. -/
theorem Straight.load (hg : g.Straight registers items) {token : Located Token} {value : Value}
    {v : Live} (hmem : .operand token ∈ items) (hvalue : Value.ofToken? token.value = some value)
    (hlive : g.live.length < registers) :
  (⟨v :: g.live, .load g.live.length value :: g.code⟩ : Generation).Straight registers items
  := by
  have hreads : (Operation.load g.live.length value).reads = [] := by
    unfold Value.ofToken? at hvalue
    split at hvalue <;> simp at hvalue <;> subst hvalue <;> rfl
  constructor
  · exact hlive
  · simpa [Operation.dest?] using hg.writes
  · rw [List.forall_mem_cons]
    exact ⟨by simpa [Operation.registers, hreads, Operation.dest?] using hlive, hg.within⟩
  · intro k hk
    rw [List.length_cons, Nat.lt_succ_iff_lt_or_eq] at hk
    obtain hk | rfl := hk
    · obtain ⟨w, hw, hdest⟩ := hg.live k hk
      exact ⟨w, List.mem_cons_of_mem _ hw, hdest⟩
    · exact ⟨_, List.mem_cons_self, rfl⟩
  · rw [List.reverse_cons]
    apply hg.order.append_singleton
    simp [hreads]
  · intro _
    exact ⟨_, rfl, rfl⟩
  · intro dest value' h
    rw [List.mem_cons] at h
    obtain h | h := h
    · cases h
      exact ⟨token, hmem, hvalue⟩
    · apply hg.loads dest value' h

/-- An operator takes the two values on top and leaves its result in the lower of their
registers. -/
theorem Straight.binary (hg : g.Straight registers items) {op : BinaryOp} {rhs lhs v : Live}
    {live : List Live} (hlive : g.live = rhs :: lhs :: live) :
  (⟨v :: live, .binary live.length live.length op (live.length + 1) :: g.code⟩ :
    Generation).Straight registers items
  := by
  have hlength : g.live.length = live.length + 2 := by simp [hlive]
  have hbounded := hg.bounded
  constructor
  · rw [List.length_cons]
    omega
  · simpa [Operation.dest?] using hg.writes
  · rw [List.forall_mem_cons]
    refine ⟨?_, hg.within⟩
    simp only [Operation.registers, Operation.dest?, Operation.reads, Option.toList_some,
      List.singleton_append, List.mem_cons, List.not_mem_nil, or_false]
    omega
  · intro k hk
    rw [List.length_cons] at hk
    obtain ⟨w, hw, hdest⟩ := hg.live k (by omega)
    exact ⟨w, List.mem_cons_of_mem _ hw, hdest⟩
  · rw [List.reverse_cons]
    apply hg.order.append_singleton
    intro r hr
    have hr : r = live.length ∨ r = live.length + 1 := by simpa [Operation.reads] using hr
    obtain ⟨w, hw, hdest⟩ := hg.live r (by omega)
    exact ⟨w, List.mem_reverse.mpr hw, hdest⟩
  · intro _
    exact ⟨_, rfl, rfl⟩
  · intro dest value h
    rw [List.mem_cons] at h
    obtain h | h := h
    · cases h
    · apply hg.loads dest value h

/-- Every item keeps the code straight. -/
theorem Straight.item (hg : g.Straight registers items) {i : Item} (hi : i ∈ items)
    (h : Expression.item registers false g i = .ok g') :
  g'.Straight registers items
  := by
  cases i with
  | operand token =>
    obtain ⟨hlive, hlive', hcase⟩ := Expression.operand_eq_ok h
    obtain ⟨value, hvalue, hcode'⟩ : ∃ value, Value.ofToken? token.value = some value ∧
        g'.code = .load g.live.length value :: g.code := by simpa using hcase
    obtain ⟨live', code'⟩ := g'
    simp only at hlive' hcode'
    subst hlive' hcode'
    apply hg.load hi hvalue hlive
  | operator op =>
    replace h : Expression.operator false g op = .ok g' := h
    obtain ⟨rhs, lhs, live, hlive, hcase⟩ := Expression.operator_eq_ok h
    obtain rfl : g' = ⟨⟨none, op.location⟩ :: live,
        .binary live.length live.length op.value (live.length + 1) :: g.code⟩ := by
      simpa using hcase
    apply hg.binary hlive

/-! ### Queues of numbers -/

/-- Every item of a queue of numbers keeps the live values known. -/
theorem Known.item (hg : g.Known registers) {i : Item} (hi : Expression.isConstant [i] = true)
    (h : Expression.item registers true g i = .ok g') :
  g'.Known registers
  := by
  cases i with
  | operand token =>
    obtain ⟨hlive, hlive', hcase⟩ := Expression.operand_eq_ok h
    have hcode' : g'.code = g.code := by simpa using hcase
    constructor
    · rw [hlive', List.length_cons]
      exact hlive
    · rw [hcode', hg.code]
    · rw [hlive', List.forall_mem_cons]
      exact ⟨by simpa [Expression.isConstant] using hi, hg.known⟩
  | operator op =>
    replace h : Expression.operator true g op = .ok g' := h
    obtain ⟨rhs, lhs, live, hlive, hcase⟩ := Expression.operator_eq_ok h
    have hbounded := hg.bounded
    have hknown := hg.known
    rw [hlive] at hknown hbounded
    simp only [List.forall_mem_cons] at hknown
    obtain ⟨hrhs, hlhs, hrest⟩ := hknown
    obtain ⟨-, a, b, n, -, -, -, rfl⟩ | ⟨hnone, -⟩ := hcase
    · constructor
      · simp only [List.length_cons] at hbounded ⊢
        omega
      · exact hg.code
      · rw [List.forall_mem_cons]
        exact ⟨rfl, hrest⟩
    · obtain hnone | hnone := hnone rfl
      · simp [hnone] at hlhs
      · simp [hnone] at hrhs

end Generation

/-! ### Whole queues -/

namespace Expression

/-- What every item of a queue keeps, the whole queue keeps. -/
theorem foldlM_item_induction {registers : Nat} {constant : Bool} {P : Generation → Prop}
    {items : List Item}
    (hstep : ∀ i ∈ items, ∀ {g g'}, P g → item registers constant g i = .ok g' → P g')
    {g g' : Generation} (hg : P g)
    (h : items.foldlM (item registers constant) g = .ok g') :
  P g'
  := by
  induction items generalizing g with
  | nil =>
    obtain rfl := Except.ok.inj h
    exact hg
  | cons i items ih =>
    obtain ⟨hfirst, hrest⟩ := List.forall_mem_cons.mp hstep
    rw [List.foldlM_cons] at h
    cases hnext : item registers constant g i with
    | error e =>
      rw [hnext] at h
      cases h
    | ok next =>
      rw [hnext] at h
      apply ih hrest (hfirst hg hnext) h

/-- The code of a queue: operations that write registers, and in the end one that delivers the
value. -/
structure Straight (registers : Nat) (slot : Slot) (items : List Item) (code : List Operation) :
    Prop where
  within : ∀ op ∈ code, ∀ r ∈ op.registers, r < registers
  order : WritesBeforeReads code
  loads : ∀ dest value, .load dest value ∈ code →
    (∃ n, value = .number n) ∨
      ∃ token, .operand token ∈ items ∧ Value.ofToken? token.value = some value
  delivers : ∃ body last, code = body ++ [last] ∧ (∀ op ∈ body, op.dest?.isSome) ∧
    last.Delivers slot

/-- The code of a queue writes registers and may push what it delivers, and does nothing else. -/
theorem Straight.writes_or_pushes {registers : Nat} {slot : Slot} {items : List Item}
    {code : List Operation} (h : Straight registers slot items code) :
  ∀ op ∈ code, op.dest?.isSome ∨ op = .push (.register 0) ∨ ∃ n, op = .push (.number n)
  := by
  obtain ⟨body, last, rfl, hbody, hlast⟩ := h.delivers
  rw [List.forall_mem_append, List.forall_mem_singleton]
  constructor
  · intro op hop
    exact .inl (hbody op hop)
  · cases slot with
    | register => exact .inl (Option.isSome_of_eq_some hlast)
    | stack => exact .inr hlast

/-- A single operation on a number that delivers it. -/
theorem straight_deliver_known {registers : Nat} {slot : Slot} {items : List Item} {n : Number}
    {location : Location} (h : 0 < registers) :
  Straight registers slot items (deliver true slot ⟨some n, location⟩)
  := by
  cases slot with
  | register =>
    constructor
    · simpa [deliver, Operation.registers, Operation.dest?, Operation.reads, Value.reads] using h
    · apply writesBeforeReads_nil.append_singleton
      simp [Operation.reads, Value.reads]
    · intro dest value hmem
      have hmem : dest = 0 ∧ value = .number n := by simpa [deliver] using hmem
      exact .inl ⟨n, hmem.2⟩
    · exact ⟨[], _, rfl, by simp, rfl⟩
  | stack =>
    constructor
    · simp [deliver, Operation.registers, Operation.dest?, Operation.reads, Value.reads]
    · apply writesBeforeReads_nil.append_singleton
      simp [Operation.reads, Value.reads]
    · simp [deliver]
    · exact ⟨[], _, rfl, by simp, .inr ⟨n, rfl⟩⟩

/-- Code that has left one value in register zero delivers it. -/
theorem straight_deliver {registers : Nat} {slot : Slot} {items : List Item} {g : Generation}
    {result : Live} (hg : g.Straight registers items) (hlive : g.live = [result]) :
  Straight registers slot items (g.code.reverse ++ deliver false slot result)
  := by
  have hlatest := hg.latest (by simp [hlive])
  rw [hlive] at hlatest
  obtain ⟨op, hop, hdest⟩ := hlatest
  obtain ⟨rest, hcode⟩ : ∃ rest, g.code = op :: rest := List.head?_eq_some_iff.mp hop
  have hwritten : ∃ w ∈ g.code.reverse, w.dest? = some 0 := ⟨op, by simp [hcode], hdest⟩
  have hpositive : 0 < registers := by
    have hbounded := hg.bounded
    rwa [hlive] at hbounded
  have hloads : ∀ dest value, .load dest value ∈ g.code.reverse →
      (∃ n, value = .number n) ∨
        ∃ token, .operand token ∈ items ∧ Value.ofToken? token.value = some value := by
    intro dest value hmem
    exact .inr (hg.loads dest value (List.mem_reverse.mp hmem))
  cases slot with
  | register =>
    have hdeliver : deliver false .register result = [] := rfl
    rw [hdeliver, List.append_nil]
    constructor
    · simpa using hg.within
    · exact hg.order
    · exact hloads
    · refine ⟨rest.reverse, op, by simp [hcode], ?_, hdest⟩
      intro op hop
      apply hg.writes
      rw [hcode]
      apply List.mem_cons_of_mem _ (List.mem_reverse.mp hop)
  | stack =>
    have hdeliver : deliver false .stack result = [.push (.register 0)] := rfl
    rw [hdeliver]
    constructor
    · rw [List.forall_mem_append, List.forall_mem_singleton]
      refine ⟨by simpa using hg.within, ?_⟩
      simpa [Operation.registers, Operation.dest?, Operation.reads, Value.reads] using hpositive
    · apply hg.order.append_singleton
      simpa [Operation.reads, Value.reads] using hwritten
    · intro dest value hmem
      apply hloads dest value
      simpa using hmem
    · exact ⟨g.code.reverse, _, rfl, by simpa using hg.writes, .inl rfl⟩

/-- The code of every queue that compiles is straight. -/
theorem straight_of_compile {items : List Item} {slot : Slot} {registers : Nat}
    {location : Location} {code : List Operation}
    (h : compile items slot registers location = .ok code) :
  Straight registers slot items code
  := by
  obtain ⟨g, result, hg, hlive, rfl⟩ := compile_eq_ok_iff.mp h
  cases hconstant : isConstant items with
  | true =>
    have hitem : ∀ i ∈ items, isConstant [i] = true := by
      simpa [isConstant] using hconstant
    rw [hconstant] at hg
    have hknown : g.Known registers := by
      apply foldlM_item_induction (fun i hi _ _ hP => hP.item (hitem i hi)) _ hg
      exact ⟨Nat.zero_le _, rfl, by simp⟩
    obtain ⟨value, location⟩ := result
    have hvalue := hknown.known ⟨value, location⟩ (by simp [hlive])
    obtain ⟨n, rfl⟩ := Option.isSome_iff_exists.mp hvalue
    have hbounded := hknown.bounded
    rw [hlive] at hbounded
    rw [hknown.code]
    apply straight_deliver_known hbounded
  | false =>
    rw [hconstant] at hg
    have hstraight : g.Straight registers items := by
      apply foldlM_item_induction (fun i hi _ _ hP => hP.item hi) Generation.straight_empty hg
    apply straight_deliver hstraight hlive

end Expression

/-- The code of an expression ends with the operation that delivers its value, whatever calls come
before. -/
theorem Outline.Compiles.exists_delivers {T : SymbolTable} {registers : Nat} {slot : Slot}
    {y : Yard} {e : Outline} (h : e.Compiles T registers slot y) :
  ∃ front op, e.operations = front ++ [op] ∧ op.Delivers slot
  := by
  induction h with
  | done _ compiles =>
    obtain ⟨body, last, rfl, -, hlast⟩ := (Expression.straight_of_compile compiles).delivers
    exact ⟨body, last, rfl, hlast⟩
  | token _ _ ih => exact ih
  | @call _ _ name _ arguments _ _ _ _ _ _ _ _ ih =>
    obtain ⟨front, op, hrest, hop⟩ := ih
    refine ⟨operationsOf arguments ++ .call name :: front, op, ?_, hop⟩
    rw [operations, hrest, List.append_assoc, List.cons_append]

theorem Outline.Compiles.operations_ne_nil {T : SymbolTable} {registers : Nat} {slot : Slot}
    {y : Yard} {e : Outline} (h : e.Compiles T registers slot y) :
  e.operations ≠ []
  := by
  obtain ⟨front, op, hoperations, -⟩ := h.exists_delivers
  simp [hoperations]

end SilFront
