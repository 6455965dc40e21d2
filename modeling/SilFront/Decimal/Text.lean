import SilFront.Decimal.Shortest

/-!
# The text of a floating point number

A number is written with the fewest digits that read back as it. The notation is positional, with
at least one digit after the point, when the leading digit stands for a power of ten from `10 ^ -4`
to `10 ^ 15`; otherwise it is scientific, with an exponent that has no plus sign. Zeros and
infinities keep their sign, and every not-a-number is written alike.
-/

namespace SilFront.Decimal

/-- The three parts of a double precision bit pattern. -/
structure Parts where
  negative : Bool
  exponent : Nat
  fraction : Nat
deriving DecidableEq, Repr

namespace Parts

/-- The number of fractions: the field for them has 52 bits. -/
def fractions : Nat :=
  0x10000000000000

/-- The number of exponents: the field for them has 11 bits. -/
def exponents : Nat :=
  0x800

/-- The parts of a floating point number. -/
def ofFloat (x : Float) : Parts :=
  let bits := x.toBits.toNat
  { negative := bits / fractions / exponents == 1
    exponent := bits / fractions % exponents
    fraction := bits % fractions }

/-- The exponent field of the infinities and of not-a-number. -/
def special : Nat :=
  0x7FF

/-- Whether the parts are those of a number: not infinite, and not not-a-number. -/
def isFinite (p : Parts) : Bool :=
  p.exponent != special

/-- The interval of the reals that round to a finite nonzero number, its sign aside. -/
def rounding (p : Parts) : Rounding :=
  if p.exponent = 0 then .ofBinary p.fraction (-1074) false
  else .ofBinary (fractions + p.fraction) (p.exponent - 1075) (p.fraction == 0 && p.exponent > 1)

end Parts

/-- Whether a floating point number is neither infinite nor not-a-number. -/
def isFinite (x : Float) : Bool :=
  (Parts.ofFloat x).isFinite

/-- The powers of ten of a leading digit for which the notation is positional. -/
def isPositional (top : Int) : Bool :=
  -4 ≤ top && top ≤ 15

/-- Digits with a point after the first `n` of them, filled up with zeros on either side. -/
def positional (digits : List Char) (n : Int) : List Char :=
  let whole := (digits.take n.toNat).rightpad n.toNat '0'
  let fraction := List.replicate (-n).toNat '0' ++ digits.drop n.toNat
  (if whole.isEmpty then ['0'] else whole) ++ '.' :: (if fraction.isEmpty then ['0'] else fraction)

/-- Digits with a point after the first of them, and the exponent of that digit. -/
def scientific (digits : List Char) (top : Int) : List Char :=
  let mantissa := match digits with
    | first :: second :: rest => first :: '.' :: second :: rest
    | short => short
  mantissa ++ 'e' :: (toString top).toList

/-- The text of a positive decimal. -/
def text (d : Decimal) : String :=
  let digits := Nat.toDigits 10 d.digits
  let top := d.exponent + digits.length - 1
  String.ofList (if isPositional top then positional digits (top + 1) else scientific digits top)

/-- The text of a floating point number. -/
def floatText (x : Float) : String :=
  let p := Parts.ofFloat x
  let magnitude :=
    if p.exponent = Parts.special then "inf"
    else if p.exponent = 0 ∧ p.fraction = 0 then "0.0"
    else (shortest p.rounding).text
  if p.exponent = Parts.special ∧ p.fraction ≠ 0 then "NaN"
  else if p.negative then "-" ++ magnitude
  else magnitude

end SilFront.Decimal
