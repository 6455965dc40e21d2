/-!
# The fewest digits that read back

A finite positive binary number is `m * 2 ^ q`. The reals that round to it form an interval around
it, closed when `m` is even and open otherwise. `shortest` finds the decimal of that interval with
the fewest digits; of two with equally many digits it takes the nearer one, and of two equally
near ones the larger.

All arithmetic is exact. The number and the ends of its interval are fractions over one
denominator, and the decimals with `n` digits form a grid on which only the two neighbours of the
number have to be tried: an interval that reaches past a neighbour holds the neighbour too.
-/

namespace SilFront

/-- The decimal `digits * 10 ^ exponent`. -/
structure Decimal where
  digits : Nat
  exponent : Int
deriving DecidableEq, Repr

namespace Decimal

/-- The power of ten with an exponent, and one for a negative exponent. -/
def tens (exponent : Int) : Nat :=
  Nat.pow 10 exponent.toNat

/-- The power of two with an exponent, and one for a negative exponent. -/
def twos (exponent : Int) : Nat :=
  Nat.pow 2 exponent.toNat

/-- A positive number with the interval of the reals that round to it, as fractions over one
denominator. -/
structure Rounding where
  /-- The numerator of the number. -/
  value : Nat
  /-- The numerator of the lower end of the interval. -/
  low : Nat
  /-- The numerator of the upper end of the interval. -/
  high : Nat
  /-- The denominator of all three. -/
  unit : Nat
  /-- Whether the ends belong to the interval. -/
  closed : Bool
deriving DecidableEq, Repr

namespace Rounding

/-- The interval of `m * 2 ^ q`. The gap below is half as wide as the gap above when `m` is the
least mantissa of its binade, which `narrow` tells. -/
def ofBinary (m : Nat) (q : Int) (narrow : Bool) : Rounding :=
  let scale := twos (q - 2)
  { value := 4 * m * scale
    low := (4 * m - if narrow then 1 else 2) * scale
    high := (4 * m + 2) * scale
    unit := twos (2 - q)
    closed := m % 2 == 0 }

/-- Whether `n * 10 ^ e` lies in the interval. -/
def holds (r : Rounding) (n : Nat) (e : Int) : Bool :=
  let point := n * r.unit * tens e
  let low := r.low * tens (-e)
  let high := r.high * tens (-e)
  if r.closed then low ≤ point && point ≤ high else low < point && point < high

/-- The whole number of units `10 ^ e` that the number reaches. -/
def floor (r : Rounding) (e : Int) : Nat :=
  r.value * tens (-e) / (r.unit * tens e)

/-- Whether the number lies nearer to `n * 10 ^ e` than to the next point of that grid. -/
def below (r : Rounding) (n : Nat) (e : Int) : Bool :=
  2 * (r.value * tens (-e)) < (2 * n + 1) * (r.unit * tens e)

/-- The decimal of the grid of step `10 ^ e` that lies in the interval and is nearest to the
number. -/
def onGrid? (r : Rounding) (e : Int) : Option Decimal :=
  let n := r.floor e
  match r.holds n e, r.holds (n + 1) e with
  | true, true => some ⟨if r.below n e then n else n + 1, e⟩
  | true, false => some ⟨n, e⟩
  | false, true => some ⟨n + 1, e⟩
  | false, false => none

end Rounding

/-- The number of decimal digits of a positive number, and zero for zero. -/
def length (n : Nat) : Nat :=
  if n = 0 then 0 else length (n / 10) + 1
termination_by n
decreasing_by omega

/-- The exponent below which no positive binary number of double precision lies. -/
def leastExponent : Nat :=
  400

/-- The exponent of the leading decimal digit of the number. -/
def Rounding.magnitude (r : Rounding) : Int :=
  (length (r.floor (-leastExponent)) : Int) - 1 - leastExponent

/-- The digits without the zeros at their end, which move into the exponent. -/
def strip (d : Decimal) : Decimal :=
  if h : 0 < d.digits ∧ d.digits % 10 = 0 then
    strip ⟨d.digits / 10, d.exponent + 1⟩
  else d
termination_by d.digits
decreasing_by exact Nat.div_lt_self h.1 (by decide)

/-- The number of digits that always suffices for double precision. -/
def mostDigits : Nat :=
  17

/-- The decimal with the fewest digits that reads back as the number. -/
def shortest (r : Rounding) : Decimal :=
  let top := r.magnitude
  let grids := (List.range mostDigits).map fun (n : Nat) => top - n
  ((grids.findSome? r.onGrid?).getD ⟨r.floor (top + 1 - mostDigits), top + 1 - mostDigits⟩).strip

end Decimal

end SilFront
