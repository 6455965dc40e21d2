import SilFront.Expression.Code
import Mathlib.Logic.Function.Basic
import Mathlib.Tactic.Common

/-!
# Executing operations

An `Interpretation` gives the literals, variables, operators and functions of the language a meaning
in a type of values. A `Machine` holds a value in every register, the values that are pushed for
calls and the value that the last call returned, and `Interpretation.run` executes operations on it.

`Interpretation.value?` gives a queue a meaning without any register: operands go on a stack, and an
operator replaces the two values on top of it by its result.
-/

namespace SilFront

/-- Meanings of literals, variables, operators and functions in a type of values. -/
structure Interpretation (α : Type*) where
  number : Number → α
  string : String → α
  /-- What a variable holds. -/
  content : String → α
  operator : BinaryOp → α → α → α
  function : String → List α → α

/-- A register machine: the registers, the values that are pushed, the latest first, and the value
that the last call returned. -/
structure Machine (α : Type*) where
  registers : Nat → α
  pushed : List α
  returned : α

namespace Machine

variable {α : Type*}

/-- Puts a value into a register. -/
def load (m : Machine α) (dest : Nat) (v : α) : Machine α :=
  { m with registers := Function.update m.registers dest v }

/-- Pushes a value. -/
def push (m : Machine α) (v : α) : Machine α :=
  { m with pushed := v :: m.pushed }

/-- Takes `arity` values from those that are pushed, and puts what a function makes of them, in the
order in which they were pushed, where the last call returned its value. -/
def call (m : Machine α) (arity : Nat) (function : List α → α) : Machine α :=
  { m with
    pushed := m.pushed.drop arity
    returned := function (m.pushed.take arity).reverse }

/-- Loading changes one register. -/
@[simp]
theorem registers_load (m : Machine α) (dest : Nat) (v : α) :
  (m.load dest v).registers = Function.update m.registers dest v
  := rfl

@[simp]
theorem pushed_load (m : Machine α) (dest : Nat) (v : α) :
  (m.load dest v).pushed = m.pushed
  := rfl

@[simp]
theorem returned_load (m : Machine α) (dest : Nat) (v : α) :
  (m.load dest v).returned = m.returned
  := rfl

@[simp]
theorem pushed_push (m : Machine α) (v : α) :
  (m.push v).pushed = v :: m.pushed
  := rfl

@[simp]
theorem returned_push (m : Machine α) (v : α) :
  (m.push v).returned = m.returned
  := rfl

/-- The values of a stack, the latest first, are those of the registers below its height. -/
def Keeps (m : Machine α) : List α → Prop
  | [] => True
  | v :: stack => m.registers stack.length = v ∧ m.Keeps stack

/-- Changing a register at or above the height of a stack leaves its values where they are. -/
theorem Keeps.load {m : Machine α} {dest : Nat} (v : α) :
  ∀ {stack : List α}, m.Keeps stack → stack.length ≤ dest → (m.load dest v).Keeps stack
  | [], _, _ => trivial
  | w :: stack, ⟨hw, hstack⟩, hdest => by
      have hlt : stack.length < dest := hdest
      constructor
      · rw [registers_load, Function.update_of_ne (Nat.ne_of_lt hlt)]
        apply hw
      · apply hstack.load v (Nat.le_of_lt hlt)

/-- Loading the register at the height of a stack puts a value on top of it. -/
theorem Keeps.cons {m : Machine α} {stack : List α} (h : m.Keeps stack) (v : α) :
  (m.load stack.length v).Keeps (v :: stack)
  := by
  constructor
  · apply Function.update_self
  · apply h.load v (Nat.le_refl _)

/-- From one state of a machine to another, a value has come where it is wanted: into register zero
while nothing was pushed, or on top of the values that were pushed before. -/
def Delivers (slot : Slot) (m m' : Machine α) (v : α) : Prop :=
  match slot with
  | .register => m'.registers 0 = v ∧ m'.pushed = m.pushed
  | .stack => m'.pushed = v :: m.pushed

/-- Where a value is delivered depends on what was pushed before only. -/
theorem Delivers.of_pushed_eq {slot : Slot} {m₁ m₂ m' : Machine α} {v : α}
    (h : Delivers slot m₁ m' v) (hpushed : m₁.pushed = m₂.pushed) :
  Delivers slot m₂ m' v
  := by
  unfold Delivers at h ⊢
  rw [← hpushed]
  exact h

/-- At most one value is delivered. -/
theorem Delivers.unique {slot : Slot} {m m' : Machine α} {v w : α}
    (hv : Delivers slot m m' v) (hw : Delivers slot m m' w) :
  v = w
  := by
  cases slot with
  | register => apply hv.1.symm.trans hw.1
  | stack => apply List.head_eq_of_cons_eq (hv.symm.trans hw)

end Machine

namespace Interpretation

variable {α : Type*} (I : Interpretation α)

/-- Operators make of two numbers what working out a constant makes of them. -/
def Folds : Prop :=
  ∀ op a b c, Number.apply op a b = some c → I.operator op (I.number a) (I.number b) = I.number c

/-- The numbers of the language as values. Zero stands for every string, and for the results that
operators lack. -/
def ofNumbers (content : String → Number) (function : String → List Number → Number) :
    Interpretation Number where
  number n := n
  string _ := .int 0
  content := content
  operator op a b := (Number.apply op a b).getD (.int 0)
  function := function

/-- Numbers compute constants as the compiler folds them. -/
theorem folds_ofNumbers (content : String → Number) (function : String → List Number → Number) :
  (ofNumbers content function).Folds
  := by
  intro op a b c h
  simp only [ofNumbers, h, Option.getD_some]

/-! ### Operations -/

/-- The value that an operation reads. -/
def read (m : Machine α) : Value → α
  | .register index => m.registers index
  | .number n => I.number n
  | .string s => I.string s
  | .variable name => I.content name
  | .returned => m.returned

/-- Executes an operation; `arity` tells how many values a function takes. -/
def step (arity : String → Nat) (m : Machine α) : Operation → Machine α
  | .load dest value => m.load dest (I.read m value)
  | .binary dest lhs op rhs => m.load dest (I.operator op (m.registers lhs) (m.registers rhs))
  | .call function => m.call (arity function) (I.function function)
  | .push value => m.push (I.read m value)

/-- Executes operations in order. -/
def run (arity : String → Nat) (m : Machine α) (code : List Operation) : Machine α :=
  code.foldl (I.step arity) m

@[simp]
theorem run_nil (arity : String → Nat) (m : Machine α) :
  I.run arity m [] = m
  := rfl

@[simp]
theorem run_cons (arity : String → Nat) (m : Machine α) (op : Operation) (code : List Operation) :
  I.run arity m (op :: code) = I.run arity (I.step arity m op) code
  := rfl

/-- Code in turn runs from where the code before it ends. -/
@[simp]
theorem run_append (arity : String → Nat) (m : Machine α) (first second : List Operation) :
  I.run arity m (first ++ second) = I.run arity (I.run arity m first) second
  := List.foldl_append

/-! ### Queues -/

/-- The value of an operand, where `returned` is what the last call returned. -/
def operand? (returned : α) : Token → Option α
  | .number n => some (I.number n)
  | .string s => some (I.string s)
  | .ident name => some (I.content name)
  | .returnValue => some returned
  | _ => none

/-- Reads an item of a queue on a stack of values, the latest first. -/
def push? (returned : α) (stack : List α) : Item → Option (List α)
  | .operand token => (I.operand? returned token.value).map (· :: stack)
  | .operator op =>
    match stack with
    | b :: a :: rest => some (I.operator op.value a b :: rest)
    | _ => none

/-- The stack that the items of a queue leave. -/
def stack? (returned : α) (stack : List α) (items : List Item) : Option (List α) :=
  items.foldlM (I.push? returned) stack

/-- Items in turn are evaluated on the stack that the items before them leave. -/
theorem stack?_append (returned : α) (stack : List α) (first second : List Item) :
  I.stack? returned stack (first ++ second) =
    (I.stack? returned stack first).bind fun stack => I.stack? returned stack second
  := List.foldlM_append

/-- The value of a queue: the only one on the stack in the end. -/
def value? (returned : α) (items : List Item) : Option α :=
  match I.stack? returned [] items with
  | some [v] => some v
  | _ => none

/-- An operand that an operation can load has the value that is loaded. -/
theorem operand?_eq_read {token : Token} {value : Value} (h : Value.ofToken? token = some value)
    (m : Machine α) :
  I.operand? m.returned token = some (I.read m value)
  := by
  unfold Value.ofToken? at h
  split at h
  · obtain rfl := Option.some.inj h
    rfl
  · obtain rfl := Option.some.inj h
    rfl
  · obtain rfl := Option.some.inj h
    rfl
  · obtain rfl := Option.some.inj h
    rfl
  · cases h

end Interpretation

end SilFront
