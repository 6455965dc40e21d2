import SilFront.Diagnostic
import SilFront.Expression.Queue

/-!
# Code for expressions

The values of an expression are kept on a stack, and the value at height `k` is in register `k`. An
operand is loaded into the next free register; an operator takes the two topmost values and leaves
its result in the lower of their registers. No more values than there are registers may be live at
once.

An expression of which every operand is a number is worked out instead: only its value is loaded or
pushed.
-/

namespace SilFront

/-- Where the value of an expression is wanted. -/
inductive Slot where
  /-- In register zero. -/
  | register
  /-- On the stack of arguments. -/
  | stack
deriving DecidableEq, Repr

/-- A live value: where it was read, and which number it is, if that is known. -/
abbrev Live :=
  Located (Option Number)

/-- The state of code generation. -/
structure Generation where
  /-- The live values, the latest first. -/
  live : List Live
  /-- The operations, the latest first. -/
  code : List Operation
deriving DecidableEq

namespace Expression

/-- Whether every operand of a queue is a number. -/
def isConstant (items : List Item) : Bool :=
  items.all fun
    | .operand token => token.value.number?.isSome
    | .operator _ => true

/-- A syntax error at a location. -/
def refuse {α : Type} (cause : SyntaxError) (location : Location) :
    Except (Located SyntaxError) α :=
  .error ⟨cause, location⟩

/-- Reads an operand. -/
def operand (registers : Nat) (constant : Bool) (g : Generation) (token : Located Token) :
    Except (Located SyntaxError) Generation :=
  let live := ⟨token.value.number?, token.location⟩ :: g.live
  if registers ≤ g.live.length then refuse (.tooManyValues registers) token.location
  else if constant then .ok { g with live }
  else match Value.ofToken? token.value with
    | some value => .ok ⟨live, .load g.live.length value :: g.code⟩
    | none => refuse (.unexpectedOperand token.value) token.location

/-- Reads an operator. -/
def operator (constant : Bool) (g : Generation) (op : Located BinaryOp) :
    Except (Located SyntaxError) Generation :=
  match g.live with
  | rhs :: lhs :: live =>
    if op.value = .div ∧ rhs.value.any Number.isZero then refuse .divideByZero op.location
    else match constant, lhs.value, rhs.value with
      | true, some a, some b =>
        match Number.apply op.value a b with
        | some n => .ok { g with live := ⟨some n, op.location⟩ :: live }
        | none => refuse .divideByZero op.location
      | _, _, _ =>
        let dest := live.length
        .ok ⟨⟨none, op.location⟩ :: live, .binary dest dest op.value (dest + 1) :: g.code⟩
  | _ => refuse (.missingOperands op.value) op.location

/-- Reads an item of a queue. -/
def item (registers : Nat) (constant : Bool) (g : Generation) :
    Item → Except (Located SyntaxError) Generation
  | .operand token => operand registers constant g token
  | .operator op => operator constant g op

/-- The operations that bring the value of a whole expression where it is wanted. -/
def deliver (constant : Bool) (slot : Slot) (result : Live) : List Operation :=
  match constant, result.value, slot with
  | true, some n, .stack => [.push (.number n)]
  | true, some n, .register => [.load 0 (.number n)]
  | _, _, .stack => [.push (.register 0)]
  | _, _, .register => []

/-- The operations of an expression that begins at a location. -/
def compile (items : List Item) (slot : Slot) (registers : Nat) (location : Location) :
    Except (Located SyntaxError) (List Operation) := do
  let constant := isConstant items
  let g ← items.foldlM (item registers constant) ⟨[], []⟩
  match g.live with
  | [result] => return g.code.reverse ++ deliver constant slot result
  | [] => refuse .emptyExpression location
  | extra :: _ => refuse .missingOperator extra.location

end Expression

end SilFront
