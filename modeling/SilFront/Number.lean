import SilFront.Decimal.Text

/-!
# Numbers

The numbers of the language: signed 64-bit integers, whose arithmetic wraps around, and double
precision floating point numbers.

`Number.apply` is the arithmetic of constants. Two integers give an integer; as soon as one side is
floating point, the other is rounded to floating point first. A comparison gives the integer one or
zero, and a division by zero of either kind gives nothing. The divisor is tested after it is rounded.
-/

namespace SilFront

/-- A number of the language. -/
inductive Number where
  | int (value : Int64)
  | float (value : Float)
deriving DecidableEq

namespace Number

/-- The text of a number. -/
def text : Number → String
  | .int n => toString n.toInt
  | .float x => Decimal.floatText x

/-- The floating point number nearest to a number. -/
def toFloat : Number → Float
  | .int n => Float.ofInt n.toInt
  | .float x => x

/-- Whether a number is zero, of either sign. -/
def isZero : Number → Bool
  | .int n => n == 0
  | .float x => Float.beq x 0.0

/-- One for true and zero for false. -/
def ofBool (b : Bool) : Number :=
  .int (if b then 1 else 0)

end Number

/-! ### Operators -/

/-- The binary operators. -/
inductive BinaryOp where
  | add | sub | mul | div
  | lt | le | gt | ge
  | eq | ne
deriving DecidableEq, Repr

namespace BinaryOp

/-- The spelling of an operator. -/
def symbol : BinaryOp → String
  | .add => "+"
  | .sub => "-"
  | .mul => "*"
  | .div => "/"
  | .lt => "<"
  | .le => "<="
  | .gt => ">"
  | .ge => ">="
  | .eq => "=="
  | .ne => "!="

/-- Every operator, in the order of their declaration. -/
def all : List BinaryOp :=
  [.add, .sub, .mul, .div, .lt, .le, .gt, .ge, .eq, .ne]

end BinaryOp

/-- The precedence classes of the operators, the loosest first. -/
inductive Precedence where
  | additive
  | multiplicative
  | relational
  | equality
deriving DecidableEq, Repr

/-- The rank of a precedence class: the higher, the tighter it binds. -/
def Precedence.rank : Precedence → Nat
  | .additive => 0
  | .multiplicative => 1
  | .relational => 2
  | .equality => 3

namespace BinaryOp

/-- The precedence class of an operator. -/
def precedence : BinaryOp → Precedence
  | .add | .sub => .additive
  | .mul | .div => .multiplicative
  | .lt | .le | .gt | .ge => .relational
  | .eq | .ne => .equality

/-- Whether a waiting operator takes its operands before an incoming one is put to wait. Operators
of equal rank associate to the left. -/
def drainsBefore (waiting incoming : BinaryOp) : Bool :=
  incoming.precedence.rank ≤ waiting.precedence.rank

/-- The value of an operator on two integers, and nothing for a division by zero. -/
def onInts (op : BinaryOp) (a b : Int64) : Option Number :=
  match op with
  | .add => some (.int (a + b))
  | .sub => some (.int (a - b))
  | .mul => some (.int (a * b))
  | .div => if b = 0 then none else some (.int (a / b))
  | .lt => some (.ofBool (decide (a < b)))
  | .le => some (.ofBool (decide (a ≤ b)))
  | .gt => some (.ofBool (decide (b < a)))
  | .ge => some (.ofBool (decide (b ≤ a)))
  | .eq => some (.ofBool (decide (a = b)))
  | .ne => some (.ofBool (decide (a ≠ b)))

/-- The value of an operator on two floating point numbers, and nothing for a division by zero. -/
def onFloats (op : BinaryOp) (a b : Float) : Option Number :=
  match op with
  | .add => some (.float (a + b))
  | .sub => some (.float (a - b))
  | .mul => some (.float (a * b))
  | .div => if Float.beq b 0.0 then none else some (.float (a / b))
  | .lt => some (.ofBool (Float.lt a b))
  | .le => some (.ofBool (Float.le a b))
  | .gt => some (.ofBool (Float.lt b a))
  | .ge => some (.ofBool (Float.le b a))
  | .eq => some (.ofBool (Float.beq a b))
  | .ne => some (.ofBool (!Float.beq a b))

end BinaryOp

/-- The value of an operator on two numbers, and nothing for a division by zero. -/
def Number.apply (op : BinaryOp) (a b : Number) : Option Number :=
  match a, b with
  | .int m, .int n => op.onInts m n
  | _, _ => op.onFloats a.toFloat b.toFloat

end SilFront
