import Mathlib.Data.Int.ModEq
import Mathlib.Data.Nat.Log
import SilFront.Expression.Code

/-!
# Arithmetic of constants

What `Number.apply` gives, said without the machine words that it is worked out with. Sums,
differences and products of integers are the exact ones as far as 64 bits tell them apart, quotients
are cut off towards zero, and comparisons ask for the order of the integers.

The one failure is a division by zero. A divisor that is an integer may be rounded to floating point
before it is tested, but no integer other than zero is rounded to a zero
(`Binary64.beq_ofInt_zero`): the mantissa of a rounded integer has its full length, and keeps it when
the number is stored. So it makes no difference whether a divisor is tested before or after it is
rounded (`Number.beq_toFloat_zero`).
-/

namespace SilFront

/-! ### Integers in floating point -/

namespace Binary64

open Float.Model Float.Model.UnpackedFloat

/-- A finite number with a mantissa of full length, and an exponent in a range. -/
def Normal (least most : Int) (x : UnpackedFloat) : Prop :=
  ∃ sign mantissa exponent, ∃ h : 0 < mantissa, x = .finite sign mantissa exponent h ∧
    mantissa.log2 = 52 ∧ least ≤ exponent ∧ exponent ≤ most

/-- Dividing by a power of two takes away as many bits. -/
theorem log2_div_pow (m k : Nat) :
  (m / 2 ^ k).log2 = m.log2 - k
  := by
  rw [Nat.log2_eq_log_two, Nat.log2_eq_log_two, Nat.log_div_base_pow]

theorem log2_shiftLeft {m : Nat} (hm : m ≠ 0) (k : Nat) :
  (m <<< k).log2 = m.log2 + k
  := by
  induction k with
  | zero => rfl
  | succ k ih =>
    have hne : m <<< k ≠ 0 := by
      rw [Nat.shiftLeft_eq]
      exact Nat.mul_ne_zero hm (Nat.two_pow_pos k).ne'
    rw [Nat.shiftLeft_succ, Nat.log2_two_mul hne, ih, Nat.add_assoc]

theorem pos_of_log2_eq {m : Nat} (h : m.log2 = 52) :
  0 < m
  := by
  by_contra hm
  simp [Nat.eq_zero_of_not_pos hm] at h

/-- Shifting a mantissa to the right divides it by a power of two. -/
theorem mantissa_shiftRight (x : ExtendedMantissa) (k : Nat) :
  (x >>> k).mantissa = x.mantissa / 2 ^ k
  := by
  induction k with
  | zero => exact (Nat.div_one _).symm
  | succ k ih =>
    change (x >>> k).mantissa / 2 = _
    rw [ih, Nat.div_div_eq_div_mul, Nat.pow_succ]

/-- Rounding adds at most one to a mantissa. -/
theorem roundedMantissa_bounds (x : ExtendedMantissa) :
  x.mantissa ≤ x.roundedMantissa ∧ x.roundedMantissa ≤ x.mantissa + 1
  := by
  obtain ⟨m, _ | _, _ | _⟩ := x <;>
    simp only [ExtendedMantissa.roundedMantissa, ExtendedMantissa.accuracy,
      Accuracy.roundToNearestEven] <;> omega

/-- A number that is not too small is rounded to 53 bits. -/
theorem targetExponent_totalExponent {m : Nat} {e : Int} (h : -1074 ≤ m.log2 - 52 + e) :
  Format.binary64.targetExponent (totalExponent m e) = m.log2 - 52 + e
  := by
  have hleast : Format.binary64.minExponent = -1074 := rfl
  have hbits : Format.binary64.mantissaBits = 53 := rfl
  rw [Format.targetExponent, totalExponent, hleast, hbits]
  omega

/-- A mantissa that is long enough is cut to full length. -/
theorem exists_shiftToTargetExponent_eq {m : Nat} {e : Int} (hm : 52 ≤ m.log2)
    (h : -1074 ≤ m.log2 - 52 + e) :
  ∃ x, shiftToTargetExponent .binary64 m e .exact = (x, m.log2 - 52 + e) ∧ x.mantissa.log2 = 52
  := by
  have hshift : (m.log2 - 52 + e - e).toNat = m.log2 - 52 := by omega
  have hexponent : e + (m.log2 - 52 : Nat) = m.log2 - 52 + e := by omega
  rw [shiftToTargetExponent, targetExponent_totalExponent h, shiftToExponent, hshift, hexponent]
  refine ⟨_, rfl, ?_⟩
  rw [mantissa_shiftRight, log2_div_pow]
  change m.log2 - (m.log2 - 52) = 52
  omega

/-- A mantissa that is long enough is rounded to full length. -/
theorem normal_roundWithAccuracy (sign : Sign) {m : Nat} {e least most : Int} (hm : 52 ≤ m.log2)
    (hrange : -1074 ≤ least) (hleast : least ≤ m.log2 - 52 + e) (hmost : m.log2 - 52 + e < most) :
  Normal least most (roundWithAccuracy .binary64 sign m e .exact)
  := by
  obtain ⟨x, hx, hlog⟩ := exists_shiftToTargetExponent_eq hm (hrange.trans hleast)
  have hdigits := (Nat.log2_eq_iff (pos_of_log2_eq hlog).ne').mp hlog
  -- rounding may carry into one more digit, which the second shift takes away
  have hcarry : 52 ≤ x.roundedMantissa.log2 ∧ x.roundedMantissa.log2 < 54 := by
    obtain ⟨hlower, hupper⟩ := roundedMantissa_bounds x
    rw [Nat.le_log2 (by omega), Nat.log2_lt (by omega)]
    omega
  obtain ⟨y, hy, hlog'⟩ := @exists_shiftToTargetExponent_eq x.roundedMantissa (m.log2 - 52 + e)
    hcarry.1 (by omega)
  rw [roundWithAccuracy, hx]
  dsimp only
  rw [hy]
  dsimp only
  rw [dif_neg (pos_of_log2_eq hlog').ne']
  refine ⟨_, _, _, _, rfl, hlog', ?_, ?_⟩
  · omega
  · omega

/-- A number is rounded to full length, since its mantissa is made long enough before. -/
theorem normal_round (sign : Sign) {m : Nat} {e least most : Int} (hm : 0 < m)
    (hrange : -1074 ≤ least) (hleast : least ≤ m.log2 - 52 + e) (hmost : m.log2 - 52 + e < most) :
  Normal least most (UnpackedFloat.round .binary64 sign m e)
  := by
  have hlog := log2_shiftLeft hm.ne' (e - (m.log2 - 52 + e)).toNat
  rw [UnpackedFloat.round, targetExponent_totalExponent (by omega), decreaseExponent]
  simp only
  apply normal_roundWithAccuracy sign
  · omega
  · omega
  · omega
  · omega

/-- The first digit of a mantissa of full length is not stored. -/
theorem log2_toNat_append (mantissa : BitVec 52) :
  (1#1 ++ mantissa).toNat.log2 = 52
  := by
  have happend : (1#1 ++ mantissa).toNat = 2 ^ 52 + mantissa.toNat := by
    rw [BitVec.toNat_append, ← Nat.shiftLeft_add_eq_or_of_lt mantissa.isLt]
    rfl
  have hlt := mantissa.isLt
  rw [happend, Nat.log2_eq_iff (by omega)]
  omega

section

variable {least most : Int} {x y : UnpackedFloat}

/-- A number of full length is stored with its exponent moved, and without its first digit. -/
theorem pack_finite (sign : Sign) {m : Nat} {e : Int} (hm : 0 < m) (hlog : m.log2 = 52)
    (hleast : -1074 ≤ e) (hmost : e ≤ 971) :
  UnpackedFloat.pack .binary64 (.finite sign m e hm) =
    packComponents .binary64 sign (.ofNat 11 (e + 1023 + 52).toNat) (.ofNat 52 m)
  := by
  change ite (2 ^ 11 ≤ (e + 1023 + 52).toNat + 1) _ (ite (m.log2 + 1 = 53) _ _) = _
  rw [if_neg (by omega), if_pos (by omega)]
  rfl

/-- A number of full length is stored as such. -/
theorem Normal.unpack_pack (h : Normal least most x) (hleast : -1074 ≤ least) (hmost : most ≤ 971) :
  Normal least most (Float.Model.pack x).unpack
  := by
  obtain ⟨sign, m, e, hm, rfl, hlog, hlower, hupper⟩ := h
  have hfield : (BitVec.ofNat 11 (e + 1023 + 52).toNat).toNat = (e + 1023 + 52).toNat := by
    rw [BitVec.toNat_ofNat, Nat.mod_eq_of_lt (by omega)]
  have hones : BitVec.ofNat 11 (e + 1023 + 52).toNat ≠ -1#11 := by
    intro h
    have hnat : (-1#11).toNat = 2047 := rfl
    rw [← h] at hnat
    omega
  have hzeros : BitVec.ofNat 11 (e + 1023 + 52).toNat ≠ 0#11 := by
    intro h
    have hnat : (0#11).toNat = 0 := rfl
    rw [← h] at hnat
    omega
  change Normal least most
    (UnpackedFloat.unpack .binary64 (UnpackedFloat.pack .binary64 (.finite sign m e hm)))
  rw [pack_finite sign hm hlog (hleast.trans hlower) (hupper.trans hmost)]
  change Normal least most
    (ite (@unpackExponent .binary64 _ = -1#11) _ (ite (@unpackExponent .binary64 _ = 0#11) _ _))
  rw [unpackExponent_packComponents, if_neg hones, if_neg hzeros]
  refine ⟨_, _, _, _, rfl, ?_, ?_, ?_⟩
  · apply log2_toNat_append
  · rw [hfield]
    change least ≤ _ - (1023 + 52)
    omega
  · rw [hfield]
    change _ - (1023 + 52) ≤ most
    omega

/-- The negation of a normal number is normal, with the same bounds. -/
theorem Normal.neg (h : Normal least most x) :
  Normal least most x.neg
  := by
  obtain ⟨sign, m, e, hm, rfl, h⟩ := h
  exact ⟨-sign, m, e, hm, rfl, h⟩

/-- A product is rounded from the exact product of the mantissas. -/
theorem mul_finite (sign sign' : Sign) {m m' : Nat} (e e' : Int) (hm : 0 < m) (hm' : 0 < m') :
  UnpackedFloat.mul .binary64 (.finite sign m e hm) (.finite sign' m' e' hm') =
    roundWithAccuracy .binary64 (sign * sign') (m * m') (e + e') .exact
  := rfl

/-- The product of normal numbers is normal, with bounds that add up. -/
theorem Normal.mul {least' most' : Int} (hx : Normal least most x) (hy : Normal least' most' y)
    (hrange : -1074 ≤ least + least' + 52) :
  Normal (least + least' + 52) (most + most' + 54) (x.mul .binary64 y)
  := by
  obtain ⟨sign, m, e, hm, rfl, hlog, hlower, hupper⟩ := hx
  obtain ⟨sign', m', e', hm', rfl, hlog', hlower', hupper'⟩ := hy
  have hproduct : 104 ≤ (m * m').log2 ∧ (m * m').log2 < 106 := by
    obtain ⟨hle, hlt⟩ := (Nat.log2_eq_iff hm.ne').mp hlog
    obtain ⟨hle', hlt'⟩ := (Nat.log2_eq_iff hm'.ne').mp hlog'
    have hne := (Nat.mul_pos hm hm').ne'
    rw [Nat.le_log2 hne, Nat.log2_lt hne]
    constructor
    · calc 2 ^ 104 = 2 ^ 52 * 2 ^ 52 := by decide
        _ ≤ m * m' := Nat.mul_le_mul hle hle'
    · calc m * m' < 2 ^ 53 * 2 ^ 53 := Nat.mul_lt_mul'' hlt hlt'
        _ = 2 ^ 106 := by decide
  rw [mul_finite]
  apply normal_roundWithAccuracy
  · omega
  · omega
  · omega
  · omega

end

section

variable {n : Nat} (hpos : 0 < n) (hlt : n < 2 ^ 64)

include hpos hlt

/-- An integer of 64 bits that is not zero is a normal number. -/
theorem normal_ofUInt64 :
  Normal (-52) 12 (Float.Model.ofUInt64 n.toUInt64).unpack
  := by
  have hlog : n.log2 < 64 := (Nat.log2_lt hpos.ne').mpr hlt
  apply Normal.unpack_pack _ (by decide) (by decide)
  change Normal (-52) 12 (UnpackedFloat.normalize .binary64 (n.toUInt64.toNat : Int) 0 .positive)
  rw [UInt64.toNat_ofNat_of_lt' hlt, UnpackedFloat.normalize, Int.compare_eq_gt.mpr (by omega)]
  apply normal_round _ hpos (by decide)
  · omega
  · omega

theorem normal_ofScientific :
  Normal (-52) 14 (Float.Model.ofScientific n 0).unpack
  := by
  have hlog : n.log2 < 64 := (Nat.log2_lt hpos.ne').mpr hlt
  have hbits : Format.binary64.mantissaBits = 53 := rfl
  have hdigits : (n <<< Format.binary64.mantissaBits * 10 ^ (0 : Int).toNat).log2 =
      n.log2 + 53 := by
    rw [Int.toNat_zero, Nat.pow_zero, Nat.mul_one, log2_shiftLeft hpos.ne', hbits]
  apply Normal.unpack_pack _ (by decide) (by decide)
  rw [UnpackedFloat.ofScientific, dif_neg hpos.ne', if_neg (by decide),
    if_neg (show ¬(0 : Int) < -(2 ^ 11 + n.log2) by omega), if_pos le_rfl, mul_finite]
  apply normal_roundWithAccuracy
  · omega
  · decide
  · omega
  · omega

/-- A natural number other than zero that 64 bits hold is rounded to a number of full length. -/
theorem normal_ofNat :
  Normal (-52) 14 (Float.ofNat n).toModel.unpack
  := by
  change Normal (-52) 14 (Float.ofScientific n false 0).toModel.unpack
  rw [Float.ofScientific]
  by_cases hsmall : n < 2 ^ 53
  · -- the number is multiplied by the power of ten with exponent zero
    have hone : Normal (-52) (-52) (Float.Model.ofBits 0x3FF0000000000000).unpack :=
      ⟨.positive, 2 ^ 52, -52, by decide, rfl, by decide, by decide, by decide⟩
    rw [dif_pos ⟨hsmall, Nat.zero_le _⟩]
    exact ((normal_ofUInt64 hpos hlt).mul hone (by decide)).unpack_pack (by decide) (by decide)
  · rw [dif_neg (by omega)]
    exact normal_ofScientific hpos hlt

end

/-- What equals zero is one of the two zeros. -/
theorem unpack_eq_zero_of_beq {x : Float} (h : Float.beq x 0.0) :
  ∃ sign, x.toModel.unpack = .zero sign
  := by
  have hbits : (0.0 : Float).toModel.toBits = 0 := by decide +kernel
  have hzero : (0.0 : Float).toModel.unpack = .zero .positive := by
    rw [Float.Model.unpack, hbits]
    rfl
  change UnpackedFloat.beq x.toModel.unpack (0.0 : Float).toModel.unpack = true at h
  rw [hzero] at h
  cases hx : x.toModel.unpack with
  | zero sign => exact ⟨sign, rfl⟩
  | notANumber =>
    rw [hx] at h
    cases h
  | infinity sign =>
    rw [hx] at h
    cases sign <;> cases h
  | finite sign mantissa exponent hmantissa =>
    rw [hx] at h
    cases sign <;> cases h

/-- A normal number is not zero. -/
theorem Normal.beq_zero {least most : Int} {x : Float} (h : Normal least most x.toModel.unpack) :
  Float.beq x 0.0 = false
  := by
  obtain ⟨_, _, _, _, hx, -⟩ := h
  rw [Bool.eq_false_iff]
  intro hbeq
  obtain ⟨sign, hzero⟩ := unpack_eq_zero_of_beq hbeq
  rw [hx] at hzero
  cases hzero

/-- No integer other than zero is rounded to a zero. -/
theorem beq_ofInt_zero {n : Int} (hrange : n.natAbs < 2 ^ 64) :
  Float.beq (Float.ofInt n) 0.0 = decide (n = 0)
  := by
  obtain n | n := n
  · obtain rfl | hpos := n.eq_zero_or_pos
    · decide +kernel
    · have hof : Normal (-52) 14 (Float.ofInt (.ofNat n)).toModel.unpack := normal_ofNat hpos hrange
      rw [hof.beq_zero, decide_eq_false]
      simpa using hpos.ne'
  · have hneg : Normal (-52) 14 (Float.ofInt (.negSucc n)).toModel.unpack :=
      (normal_ofNat n.succ_pos hrange).neg.unpack_pack (by decide) (by decide)
    rw [hneg.beq_zero, decide_eq_false (Int.negSucc_ne_zero n)]

end Binary64

/-! ### Division by zero -/

/-- It makes no difference whether a number is rounded before it is compared with zero. -/
theorem Number.beq_toFloat_zero (n : Number) :
  Float.beq n.toFloat 0.0 = n.isZero
  := by
  cases n with
  | float x => rfl
  | int n =>
    have hlower := n.le_toInt
    have hupper := n.toInt_lt
    rw [toFloat, Binary64.beq_ofInt_zero (by omega), isZero, Bool.eq_iff_iff, decide_eq_true_eq,
      beq_iff_eq, ← Int64.toInt_inj, Int64.toInt_zero]

/-- The only operation that fails on integers is division by zero. -/
theorem BinaryOp.onInts_eq_none_iff {op : BinaryOp} {a b : Int64} :
  op.onInts a b = none ↔ op = .div ∧ b = 0
  := by
  cases op <;> simp [onInts]

/-- The only operation that fails on floating point numbers is division by zero. -/
theorem BinaryOp.onFloats_eq_none_iff {op : BinaryOp} {a b : Float} :
  op.onFloats a b = none ↔ op = .div ∧ Float.beq b 0.0
  := by
  cases op <;> simp [onFloats]

/-- The only operation without a value is a division by zero. -/
theorem Number.apply_eq_none_iff {op : BinaryOp} {a b : Number} :
  apply op a b = none ↔ op = .div ∧ b.isZero
  := by
  have hfloats : op.onFloats a.toFloat b.toFloat = none ↔ op = .div ∧ b.isZero := by
    rw [BinaryOp.onFloats_eq_none_iff, beq_toFloat_zero]
  cases a with
  | float x => exact hfloats
  | int m =>
    cases b with
    | float y => exact hfloats
    | int n => rw [apply, BinaryOp.onInts_eq_none_iff, isZero, beq_iff_eq]

/-- Two numbers are refused by code generation exactly if they cannot be folded. -/
theorem Expression.operator_numbers_eq_error_iff {constant : Bool} {a b : Number}
    {left right : Location} {live : List Live} {code : List Operation} {op : Located BinaryOp}
    {e : Located SyntaxError} :
  operator constant ⟨⟨some b, right⟩ :: ⟨some a, left⟩ :: live, code⟩ op = .error e ↔
    Number.apply op.value a b = none ∧ e = ⟨.divideByZero, op.location⟩
  := by
  rw [operator, Number.apply_eq_none_iff]
  simp only [Option.any_some]
  by_cases hzero : op.value = .div ∧ b.isZero
  · rw [if_pos hzero]
    simp [refuse, hzero, eq_comm]
  · rw [if_neg hzero]
    have hne : Number.apply op.value a b ≠ none := mt Number.apply_eq_none_iff.mp hzero
    obtain ⟨n, hn⟩ := Option.ne_none_iff_exists'.mp hne
    cases constant <;> simp [hn, hzero]

/-! ### Integers -/

namespace BinaryOp

/-- What a sum, a difference or a product of integers is without a bound. -/
def unbounded? : BinaryOp → Option (Int → Int → Int)
  | .add => some (· + ·)
  | .sub => some (· - ·)
  | .mul => some (· * ·)
  | _ => none

/-- The relation of integers that a comparison asks for. -/
def relation? : BinaryOp → Option (Int → Int → Prop)
  | .lt => some (· < ·)
  | .le => some (· ≤ ·)
  | .gt => some (· > ·)
  | .ge => some (· ≥ ·)
  | .eq => some (· = ·)
  | .ne => some (· ≠ ·)
  | _ => none

end BinaryOp

/-- Of the integers with 64 bits, one is congruent to an integer. -/
theorem toInt_modEq_iff {r : Int64} {z : Int} :
  r.toInt ≡ z [ZMOD 2 ^ 64] ↔ r.toInt = z.bmod (2 ^ 64)
  := by
  have hlower := r.le_toInt
  have hupper := r.toInt_lt
  rw [Int.ModEq, Int.bmod]
  omega

/-- Sums, differences and products of integers are the exact ones modulo `2 ^ 64`. -/
theorem Number.apply_of_unbounded? {op : BinaryOp} {f : Int → Int → Int} (h : op.unbounded? = some f)
    (a b : Int64) :
  ∃ r, apply op (.int a) (.int b) = some (.int r) ∧
    ∀ r' : Int64, r'.toInt ≡ f a.toInt b.toInt [ZMOD 2 ^ 64] ↔ r' = r
  := by
  have hunique {r : Int64} {z : Int} (hr : r.toInt = z.bmod (2 ^ 64)) (r' : Int64) :
      r'.toInt ≡ z [ZMOD 2 ^ 64] ↔ r' = r := by
    rw [toInt_modEq_iff, ← hr, Int64.toInt_inj]
  cases op <;> cases h
  · exact ⟨a + b, rfl, hunique (Int64.toInt_add a b)⟩
  · exact ⟨a - b, rfl, hunique (Int64.toInt_sub a b)⟩
  · exact ⟨a * b, rfl, hunique (Int64.toInt_mul a b)⟩

/-- A quotient is cut off towards zero. Only one is out of range, and wraps around. -/
theorem Number.apply_div {a b : Int64} (hb : b ≠ 0) :
  ∃ r : Int64, apply .div (.int a) (.int b) = some (.int r) ∧
    r.toInt = if a.toInt = -2 ^ 63 ∧ b.toInt = -1 then -2 ^ 63 else a.toInt.tdiv b.toInt
  := by
  use a / b
  have hmin : a.toInt = -2 ^ 63 ↔ a = .minValue := by rw [← Int64.toInt_minValue, Int64.toInt_inj]
  have hminus : b.toInt = -1 ↔ b = -1 := by
    rw [← Int64.toInt_inj, show (-1 : Int64).toInt = -1 from rfl]
  refine ⟨by simp [apply, BinaryOp.onInts, hb], ?_⟩
  by_cases hwraps : a.toInt = -2 ^ 63 ∧ b.toInt = -1
  · rw [if_pos hwraps, hmin.mp hwraps.1, hminus.mp hwraps.2]
    rfl
  · rw [if_neg hwraps]
    rcases not_and_or.mp hwraps with ha | hb
    · apply Int64.toInt_div_of_ne_left a b (mt hmin.mpr ha)
    · apply Int64.toInt_div_of_ne_right a b (mt hminus.mpr hb)

/-- Comparisons of integers are one or zero. -/
theorem Number.apply_of_relation? {op : BinaryOp} {R : Int → Int → Prop}
    (h : op.relation? = some R) (a b : Int64) :
  R a.toInt b.toInt ∧ apply op (.int a) (.int b) = some (.int 1) ∨
    ¬R a.toInt b.toInt ∧ apply op (.int a) (.int b) = some (.int 0)
  := by
  have hof (p : Prop) [Decidable p] : p ∧ some (ofBool (decide p)) = some (int 1) ∨
      ¬p ∧ some (ofBool (decide p)) = some (int 0) := by
    by_cases hp : p <;> simp [ofBool, hp]
  cases op <;> cases h <;>
    simp only [apply, BinaryOp.onInts, Int64.lt_iff_toInt_lt, Int64.le_iff_toInt_le,
      ← Int64.toInt_inj, gt_iff_lt, ge_iff_le, ne_eq] <;>
    apply hof

/-! ### Kinds of values -/

/-- A number is an integer. -/
def Number.IsInt (n : Number) : Prop :=
  ∃ m, n = .int m

theorem Number.isInt_ofBool (b : Bool) :
  (ofBool b).IsInt
  := ⟨_, rfl⟩

/-- Operations on integers result in integers. -/
theorem BinaryOp.isInt_of_onInts {op : BinaryOp} {a b : Int64} {r : Number}
    (h : op.onInts a b = some r) :
  r.IsInt
  := by
  cases op <;> simp only [onInts, Option.some.injEq, Option.ite_none_left_eq_some] at h
  case div => exact ⟨_, h.2.symm⟩
  all_goals exact ⟨_, h.symm⟩

/-- Of the operations on floating point numbers, the comparisons result in integers. -/
theorem BinaryOp.isInt_iff_of_onFloats {op : BinaryOp} {a b : Float} {r : Number}
    (h : op.onFloats a b = some r) :
  r.IsInt ↔ op.relation?.isSome
  := by
  cases op <;> simp only [onFloats, Option.some.injEq, Option.ite_none_left_eq_some] at h
  case add | sub | mul => simp [Number.IsInt, ← h, relation?]
  case div => simp [Number.IsInt, ← h.2, relation?]
  all_goals simp [← h, Number.isInt_ofBool, relation?]

/-- A comparison gives an integer, and any other operation gives one for integers only. -/
theorem Number.isInt_iff_of_apply {op : BinaryOp} {a b r : Number} (h : apply op a b = some r) :
  r.IsInt ↔ op.relation?.isSome ∨ a.IsInt ∧ b.IsInt
  := by
  cases a with
  | float x =>
    have hx : ¬(Number.float x).IsInt := by simp [IsInt]
    rw [BinaryOp.isInt_iff_of_onFloats h]
    simp [hx]
  | int m =>
    cases b with
    | float y =>
      have hy : ¬(Number.float y).IsInt := by simp [IsInt]
      rw [BinaryOp.isInt_iff_of_onFloats h]
      simp [hy]
    | int n => exact iff_of_true (BinaryOp.isInt_of_onInts h) (.inr ⟨⟨m, rfl⟩, ⟨n, rfl⟩⟩)

/-- Folding integers is exact arithmetic with 64 bits, and folding any two numbers fails exactly for a
division by a zero of either kind, which is what code generation refuses too. -/
theorem Number.folds_exactly (op : BinaryOp) :
  (∀ a b : Int64,
    (∀ f ∈ op.unbounded?, ∃ r, apply op (.int a) (.int b) = some (.int r) ∧
      ∀ r' : Int64, r'.toInt ≡ f a.toInt b.toInt [ZMOD 2 ^ 64] ↔ r' = r) ∧
    (op = .div → b ≠ 0 → ∃ r : Int64, apply op (.int a) (.int b) = some (.int r) ∧
      r.toInt = if a.toInt = -2 ^ 63 ∧ b.toInt = -1 then -2 ^ 63 else a.toInt.tdiv b.toInt) ∧
    ∀ R ∈ op.relation?, R a.toInt b.toInt ∧ apply op (.int a) (.int b) = some (.int 1) ∨
      ¬R a.toInt b.toInt ∧ apply op (.int a) (.int b) = some (.int 0)) ∧
  ∀ a b : Number,
    (apply op a b = none ↔ op = .div ∧ b.isZero) ∧
    Float.beq b.toFloat 0.0 = b.isZero ∧
    (∀ constant left right live code location e,
      Expression.operator constant ⟨⟨some b, right⟩ :: ⟨some a, left⟩ :: live, code⟩ ⟨op, location⟩ =
          .error e ↔
        apply op a b = none ∧ e = ⟨.divideByZero, location⟩) ∧
    ∀ r, apply op a b = some r → (r.IsInt ↔ op.relation?.isSome ∨ a.IsInt ∧ b.IsInt)
  := by
  constructor
  · intro a b
    refine ⟨fun f hf => apply_of_unbounded? hf a b, ?_, fun R hR => apply_of_relation? hR a b⟩
    rintro rfl hb
    apply apply_div hb
  · intro a b
    refine ⟨apply_eq_none_iff, b.beq_toFloat_zero, ?_, fun r => isInt_iff_of_apply⟩
    intros
    apply Expression.operator_numbers_eq_error_iff

/-- The least integer divided by minus one is itself, and a floating point number cannot be divided
by minus zero either. -/
theorem Number.folds_exactly_extremes :
  apply .div (.int .minValue) (.int (-1)) = some (.int .minValue) ∧
    apply .div (.float 1.0) (.float (-0.0)) = none
  := by
  obtain ⟨hints, hnumbers⟩ := folds_exactly .div
  obtain ⟨r, hr, hvalue⟩ := (hints .minValue (-1)).2.1 rfl (by decide)
  rw [if_pos ⟨rfl, rfl⟩, ← Int64.toInt_minValue, Int64.toInt_inj] at hvalue
  refine ⟨hvalue ▸ hr, ?_⟩
  rw [(hnumbers _ _).1]
  exact ⟨rfl, by decide +kernel⟩

end SilFront
