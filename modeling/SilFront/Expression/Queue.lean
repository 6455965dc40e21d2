import SilFront.Location
import SilFront.Token.Basic

/-!
# Expressions as queues

An expression is kept as a queue of operands and operators in which an operator follows its two
operands. A `Yard` turns the infix order of the source into that order: operands go straight into
the queue, while operators and opening parentheses wait on a stack until an operator that binds
less tightly, a closing parenthesis or the end of the expression lets them go.
-/

namespace SilFront

/-- An item of a queue. -/
inductive Item where
  | operand (token : Located Token)
  | operator (op : Located BinaryOp)
deriving DecidableEq

/-- What waits on the stack of a yard. -/
inductive Waiting where
  | operator (op : Located BinaryOp)
  | parenthesis
deriving DecidableEq

/-- An expression that is read in part. -/
structure Yard where
  /-- The items that have left the yard, the latest first. -/
  output : List Item
  /-- The operators and parentheses that wait, the latest first. -/
  waiting : List Waiting
  /-- How many parentheses have been opened and not closed. -/
  unclosed : Nat
deriving DecidableEq

namespace Yard

/-- The yard before anything is read. -/
def empty : Yard :=
  ⟨[], [], 0⟩

/-- Reads an operand. -/
def operand (y : Yard) (token : Located Token) : Yard :=
  { y with output := .operand token :: y.output }

/-- Reads an opening parenthesis. -/
def openParenthesis (y : Yard) : Yard :=
  { y with waiting := .parenthesis :: y.waiting, unclosed := y.unclosed + 1 }

/-- Lets the operators on top of the stack go for as long as they satisfy `p`. -/
def release (p : BinaryOp → Bool) (unclosed : Nat) (output : List Item) : List Waiting → Yard
  | .operator op :: rest =>
    if p op.value then release p unclosed (.operator op :: output) rest
    else ⟨output, .operator op :: rest, unclosed⟩
  | waiting => ⟨output, waiting, unclosed⟩

/-- Reads an operator: those that bind at least as tightly go first. -/
def operator (y : Yard) (op : Located BinaryOp) : Yard :=
  let y := release (fun waiting => waiting.drainsBefore op.value) y.unclosed y.output y.waiting
  { y with waiting := .operator op :: y.waiting }

/-- Lets every operator on top of the stack go. -/
def drain (y : Yard) : Yard :=
  release (fun _ => true) y.unclosed y.output y.waiting

/-- Reads a closing parenthesis: what waits above the latest open one goes. -/
def closeParenthesis (y : Yard) : Yard :=
  let y := y.drain
  { y with waiting := y.waiting.tail, unclosed := y.unclosed - 1 }

/-- The queue of the whole expression. -/
def queue (y : Yard) : List Item :=
  y.drain.output.reverse

end Yard

end SilFront
