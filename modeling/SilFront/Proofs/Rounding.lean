import Mathlib.Algebra.Order.Field.Power
import Mathlib.Tactic.Linarith
import Mathlib.Tactic.NormNum
import Mathlib.Tactic.Positivity
import Mathlib.Tactic.Ring
import SilFront.Decimal.Text

/-!
# Decimals that round to a number

The decimal that `Decimal.shortest` finds lies in the interval of the reals that round to the
number (`contains_shortest`): the leading digit is never too high, and the grid of the last digit
is finer than the interval is wide, so one of the two neighbours that are tried lies in it.

The intervals of the binary numbers that are not negative follow one another without a gap. Two
neighbours share an end, which belongs to only one of them, so a decimal lies in the interval of
one number only (`Parts.index_eq_of_value_decimal`).
-/

namespace SilFront.Decimal

/-- The number that a decimal denotes. -/
def value (d : Decimal) : ℚ :=
  d.digits * 10 ^ d.exponent

/-- Zeros at the end of a decimal can be taken off. -/
theorem value_strip (d : Decimal) :
  d.strip.value = d.value
  := by
  fun_induction strip d with
  | case1 d h ih =>
    have hdigits : (d.digits : ℚ) = (d.digits / 10 : ℕ) * 10 := by
      exact_mod_cast (Nat.div_mul_cancel (Nat.dvd_of_mod_eq_zero h.2)).symm
    rw [ih, value, value, hdigits, zpow_add_one₀ (by norm_num)]
    ring
  | case2 => rfl

/-- The power of a base with an exponent as the quotient of two powers, one of which is one. -/
theorem cast_pow_toNat {b : ℕ} (hb : b ≠ 0) (e : ℤ) :
  ((Nat.pow b e.toNat : ℕ) : ℚ) = (b : ℚ) ^ e * (Nat.pow b (-e).toNat : ℕ)
  := by
  have hb' : (b : ℚ) ≠ 0 := by exact_mod_cast hb
  obtain ⟨n, rfl | rfl⟩ := e.eq_nat_or_neg
  · simp
  · simp [hb']

/-- The numerator of a power of ten is that power times its denominator. -/
theorem cast_tens (e : ℤ) :
  (tens e : ℚ) = 10 ^ e * tens (-e)
  := by
  exact_mod_cast cast_pow_toNat (b := 10) (by norm_num) e

/-- The numerator of a power of two is that power times its denominator. -/
theorem cast_twos (e : ℤ) :
  (twos e : ℚ) = 2 ^ e * twos (-e)
  := by
  exact_mod_cast cast_pow_toNat (b := 2) (by norm_num) e

theorem tens_pos (e : ℤ) :
  0 < tens e
  := Nat.pow_pos (by norm_num)

theorem twos_pos (e : ℤ) :
  0 < twos e
  := Nat.pow_pos (by norm_num)

/-! ### Intervals -/

namespace Rounding

variable (r : Rounding)

/-- The number in the interval. -/
def center : ℚ :=
  r.value / r.unit

/-- The lower end of the interval. -/
def lower : ℚ :=
  r.low / r.unit

/-- The upper end of the interval. -/
def upper : ℚ :=
  r.high / r.unit

/-- The numbers in the interval. -/
def Contains (q : ℚ) : Prop :=
  if r.closed then r.lower ≤ q ∧ q ≤ r.upper else r.lower < q ∧ q < r.upper

variable {r} {q : ℚ}

theorem Contains.lower_le (h : r.Contains q) :
  r.lower ≤ q
  := by
  unfold Contains at h
  split at h
  · exact h.1
  · exact h.1.le

theorem Contains.le_upper (h : r.Contains q) :
  q ≤ r.upper
  := by
  unfold Contains at h
  split at h
  · exact h.2
  · exact h.2.le

/-- An open interval does not contain its ends. -/
theorem Contains.of_not_closed (h : r.Contains q) (hopen : r.closed = false) :
  r.lower < q ∧ q < r.upper
  := by
  rwa [Contains, hopen, if_neg Bool.false_ne_true] at h

/-- What lies strictly between the ends is contained. -/
theorem contains_of_lt (hlower : r.lower < q) (hupper : q < r.upper) :
  r.Contains q
  := by
  unfold Contains
  split
  · exact ⟨hlower.le, hupper.le⟩
  · exact ⟨hlower, hupper⟩

/-- The test by integers decides whether a decimal lies in the interval. -/
theorem holds_iff (hunit : 0 < r.unit) (n : ℕ) (e : ℤ) :
  r.holds n e ↔ r.Contains (n * 10 ^ e)
  := by
  have hunit' : (0 : ℚ) < r.unit := by exact_mod_cast hunit
  have htens : (0 : ℚ) < tens (-e) := by exact_mod_cast tens_pos (-e)
  have hpoint : ((n * r.unit * tens e : ℕ) : ℚ) = n * 10 ^ e * r.unit * tens (-e) := by
    push_cast
    rw [cast_tens e]
    ring
  unfold holds Contains lower upper
  cases r.closed with
  | true =>
    rw [if_pos rfl, if_pos rfl, Bool.and_eq_true, decide_eq_true_eq, decide_eq_true_eq,
      ← Nat.cast_le (α := ℚ), ← Nat.cast_le (α := ℚ), hpoint, Nat.cast_mul, Nat.cast_mul,
      mul_le_mul_iff_left₀ htens, mul_le_mul_iff_left₀ htens, div_le_iff₀ hunit',
      le_div_iff₀ hunit']
  | false =>
    rw [if_neg Bool.false_ne_true, if_neg Bool.false_ne_true, Bool.and_eq_true,
      decide_eq_true_eq, decide_eq_true_eq, ← Nat.cast_lt (α := ℚ), ← Nat.cast_lt (α := ℚ), hpoint,
      Nat.cast_mul, Nat.cast_mul, mul_lt_mul_iff_left₀ htens, mul_lt_mul_iff_left₀ htens,
      div_lt_iff₀ hunit', lt_div_iff₀ hunit']

/-- The number lies between neighbours on a grid. -/
theorem floor_spec (hunit : 0 < r.unit) (e : ℤ) :
  r.floor e * 10 ^ e ≤ r.center ∧ r.center < r.floor e * 10 ^ e + 10 ^ e
  := by
  have hunit' : (0 : ℚ) < r.unit := by exact_mod_cast hunit
  have htens : (0 : ℚ) < tens (-e) := by exact_mod_cast tens_pos (-e)
  have hle : ((r.floor e * (r.unit * tens e) : ℕ) : ℚ) ≤ (r.value * tens (-e) : ℕ) := by
    exact_mod_cast Nat.div_mul_le_self ..
  have hlt : ((r.value * tens (-e) : ℕ) : ℚ) <
      (r.floor e * (r.unit * tens e) + r.unit * tens e : ℕ) := by
    exact_mod_cast Nat.lt_div_mul_add (Nat.mul_pos hunit (tens_pos e))
  push_cast at hle hlt
  rw [cast_tens e] at hle hlt
  rw [center, le_div_iff₀ hunit', div_lt_iff₀ hunit', ← mul_le_mul_iff_left₀ htens,
    ← mul_lt_mul_iff_left₀ htens]
  constructor
  · linarith
  · linarith

/-- A decimal that is found on a grid lies in the interval. -/
theorem holds_of_onGrid? {e : ℤ} {d : Decimal} (h : r.onGrid? e = some d) :
  r.holds d.digits d.exponent
  := by
  unfold onGrid? at h
  cases hn : r.holds (r.floor e) e <;> cases hn' : r.holds (r.floor e + 1) e <;>
    simp only [hn, hn', Option.some.injEq, reduceCtorEq] at h
  · rw [← h, hn']
  · rw [← h, hn]
  · rw [← h]
    split
    · exact hn
    · exact hn'

/-- An interval that is wider than the step of a grid holds a point of it. -/
theorem isSome_onGrid? (hunit : 0 < r.unit) {e : ℤ} (hlower : r.lower < r.center)
    (hupper : r.center < r.upper) (hwidth : 10 ^ e < r.upper - r.lower) :
  (r.onGrid? e).isSome
  := by
  obtain ⟨hle, hlt⟩ := floor_spec hunit e
  have hneighbour : r.holds (r.floor e) e ∨ r.holds (r.floor e + 1) e := by
    rw [holds_iff hunit, holds_iff hunit]
    push_cast
    by_cases hlow : r.lower < r.floor e * 10 ^ e
    · exact .inl (contains_of_lt hlow (by linarith))
    · exact .inr (contains_of_lt (by linarith) (by linarith))
  unfold onGrid?
  rcases hneighbour with h | h
  · cases hn' : r.holds (r.floor e + 1) e <;> simp [h, hn']
  · cases hn : r.holds (r.floor e) e <;> simp [h, hn]

end Rounding

/-! ### The leading digit -/

/-- A number other than zero is at least the power of ten with as many digits. -/
theorem pow_length_le {n : ℕ} (h : n ≠ 0) :
  10 ^ length n ≤ 10 * n
  := by
  fun_induction length n with
  | case1 => contradiction
  | case2 n hn ih =>
    by_cases hzero : n / 10 = 0
    · rw [hzero, length, if_pos rfl]
      omega
    · have hrest := ih hzero
      rw [pow_succ]
      omega

namespace Rounding

variable {r : Rounding}

/-- The leading digit stands for a power of ten that the number reaches. -/
theorem pow_magnitude_le (hunit : 0 < r.unit) (hleast : 10 ^ (-leastExponent : ℤ) ≤ r.center) :
  10 ^ r.magnitude ≤ r.center
  := by
  obtain ⟨hle, hlt⟩ := floor_spec hunit (-leastExponent)
  have hpos : r.floor (-leastExponent) ≠ 0 := by
    intro hzero
    rw [hzero] at hlt
    simp only [Nat.cast_zero, zero_mul, zero_add] at hlt
    linarith
  have hlength : (10 : ℚ) ^ length (r.floor (-leastExponent)) ≤
      10 * (r.floor (-leastExponent) : ℕ) := by
    exact_mod_cast pow_length_le hpos
  calc (10 : ℚ) ^ r.magnitude
      = 10 ^ length (r.floor (-leastExponent)) / 10 * 10 ^ (-leastExponent : ℤ) := by
        rw [magnitude, sub_eq_add_neg, zpow_add₀ (by norm_num), zpow_sub_one₀ (by norm_num),
          zpow_natCast, div_eq_mul_inv]
    _ ≤ r.floor (-leastExponent) * 10 ^ (-leastExponent : ℤ) := by
        gcongr
        linarith
    _ ≤ r.center := hle

end Rounding

/-! ### The shortest decimal -/

/-- The shortest decimal lies in the interval, when the interval is not too narrow for the
digits. -/
theorem contains_shortest {r : Rounding} (hunit : 0 < r.unit) (hlower : r.lower < r.center)
    (hupper : r.center < r.upper) (hleast : 10 ^ (-leastExponent : ℤ) ≤ r.center)
    (hwidth : r.center < 10 ^ (mostDigits - 1) * (r.upper - r.lower)) :
  r.Contains (shortest r).value
  := by
  have hlast : (r.onGrid? (r.magnitude - (mostDigits - 1 : ℕ))).isSome := by
    apply Rounding.isSome_onGrid? hunit hlower hupper
    have hdigits : (0 : ℚ) < 10 ^ (mostDigits - 1) := by positivity
    rw [zpow_sub₀ (by norm_num), zpow_natCast, div_lt_iff₀' hdigits]
    exact (Rounding.pow_magnitude_le hunit hleast).trans_lt hwidth
  obtain ⟨d, hfound⟩ : ∃ d, ((List.range mostDigits).map fun (n : ℕ) =>
      r.magnitude - n).findSome? r.onGrid? = some d := by
    rw [← Option.isSome_iff_exists, List.findSome?_isSome_iff]
    exact ⟨_, List.mem_map_of_mem (List.mem_range.mpr (by decide)), hlast⟩
  have hvalue : (shortest r).value = d.value := by
    rw [shortest, value_strip, hfound, Option.getD_some]
  obtain ⟨e, -, he⟩ := List.exists_of_findSome?_eq_some hfound
  rw [hvalue, value, ← Rounding.holds_iff hunit]
  exact Rounding.holds_of_onGrid? he

/-! ### Intervals of binary numbers -/

namespace Rounding

variable {m : ℕ} {q : ℤ} {narrow : Bool}

/-- The scale of an interval over its denominator. -/
theorem twos_div_twos (q : ℤ) :
  (twos (q - 2) : ℚ) / twos (2 - q) = 2 ^ (q - 2)
  := by
  have hpos : (twos (2 - q) : ℚ) ≠ 0 := by exact_mod_cast (twos_pos (2 - q)).ne'
  rw [cast_twos (q - 2), neg_sub, mul_div_cancel_right₀ _ hpos]

theorem center_ofBinary :
  (ofBinary m q narrow).center = (4 * m : ℕ) * 2 ^ (q - 2)
  := by
  rw [← twos_div_twos, center, ofBinary, Nat.cast_mul, mul_div_assoc]

theorem lower_ofBinary :
  (ofBinary m q narrow).lower = (4 * m - if narrow then 1 else 2 : ℕ) * 2 ^ (q - 2)
  := by
  rw [← twos_div_twos, lower, ofBinary, Nat.cast_mul, mul_div_assoc]

theorem upper_ofBinary :
  (ofBinary m q narrow).upper = (4 * m + 2 : ℕ) * 2 ^ (q - 2)
  := by
  rw [← twos_div_twos, upper, ofBinary, Nat.cast_mul, mul_div_assoc]

theorem contains_zero_ofBinary :
  (ofBinary 0 q narrow).Contains 0
  := by
  rw [Contains, lower_ofBinary, upper_ofBinary, Nat.mul_zero, Nat.zero_sub, Nat.cast_zero,
    zero_mul]
  exact ⟨le_rfl, by positivity⟩

/-- The shortest decimal of a binary number rounds to it, when its mantissa is short enough. -/
theorem contains_shortest_ofBinary (hm : 0 < m) (hq : -1074 ≤ q)
    (hdigits : 4 * m < 10 ^ 16 * if narrow then 3 else 4) :
  (ofBinary m q narrow).Contains (shortest (ofBinary m q narrow)).value
  := by
  have hscale : (0 : ℚ) < 2 ^ (q - 2) := by positivity
  apply contains_shortest (twos_pos _)
  · rw [lower_ofBinary, center_ofBinary]
    gcongr
    split <;> omega
  · rw [center_ofBinary, upper_ofBinary]
    gcongr
    omega
  · rw [center_ofBinary]
    calc (10 : ℚ) ^ (-leastExponent : ℤ)
        ≤ 8 ^ (-leastExponent : ℤ) := by
          rw [zpow_neg, zpow_neg, zpow_natCast, zpow_natCast]
          gcongr
          norm_num
      _ = 2 ^ (3 * -leastExponent : ℤ) := by
          rw [zpow_mul]
          norm_num
      _ ≤ 2 ^ (-1074 : ℤ) := zpow_le_zpow_right₀ (by norm_num) (by decide)
      _ ≤ 2 ^ q := zpow_le_zpow_right₀ (by norm_num) hq
      _ = (4 : ℕ) * 2 ^ (q - 2) := by
          rw [zpow_sub₀ (by norm_num)]
          norm_num
          ring
      _ ≤ (4 * m : ℕ) * 2 ^ (q - 2) := by
          gcongr
          omega
  · rw [center_ofBinary, upper_ofBinary, lower_ofBinary, ← sub_mul, ← mul_assoc]
    gcongr
    rw [← Nat.cast_sub (by split <;> omega)]
    have hwidth : 4 * m + 2 - (4 * m - if narrow then 1 else 2) = if narrow then 3 else 4 := by
      split <;> omega
    rw [hwidth]
    exact_mod_cast hdigits

end Rounding

namespace Parts

/-- The parts of the numbers that are not negative, in ascending order. -/
def ofIndex (k : ℕ) : Parts :=
  { negative := false
    exponent := k / fractions
    fraction := k % fractions }

/-- The place of a number among those with its sign. -/
def index (p : Parts) : ℕ :=
  p.exponent * fractions + p.fraction

/-- The interval of a number depends on the place of its magnitude only. -/
theorem rounding_ofIndex_index {p : Parts} (hfraction : p.fraction < fractions) :
  (ofIndex p.index).rounding = p.rounding
  := by
  have hexponent : p.index / fractions = p.exponent := by
    rw [index, mul_comm, Nat.mul_add_div (by decide), Nat.div_eq_of_lt hfraction, add_zero]
  have hrest : p.index % fractions = p.fraction := by
    rw [index, mul_comm, Nat.mul_add_mod, Nat.mod_eq_of_lt hfraction]
  rw [rounding, rounding, ofIndex, hexponent, hrest]

/-- The intervals of neighbours with the same exponent share an end. -/
theorem upper_rounding_within (negative : Bool) (e f : ℕ) :
  (rounding ⟨negative, e, f⟩).upper = (rounding ⟨negative, e, f + 1⟩).lower
  := by
  by_cases hzero : e = 0
  · rw [rounding, rounding, if_pos hzero, if_pos hzero, Rounding.upper_ofBinary,
      Rounding.lower_ofBinary]
    congr 2
  · rw [rounding, rounding, if_neg hzero, if_neg hzero, Rounding.upper_ofBinary,
      Rounding.lower_ofBinary]
    congr 2

/-- The gap below the first number of a binade is half as wide as that above, but for the first
binade. -/
theorem upper_rounding_last (negative : Bool) (e : ℕ) :
  (rounding ⟨negative, e, fractions - 1⟩).upper = (rounding ⟨negative, e + 1, 0⟩).lower
  := by
  rw [rounding, rounding, if_neg (Nat.succ_ne_zero e), Rounding.lower_ofBinary]
  by_cases hzero : e = 0
  · rw [if_pos hzero, Rounding.upper_ofBinary, hzero]
    norm_num [fractions]
  · rw [if_neg hzero, Rounding.upper_ofBinary]
    have hnarrow : e + 1 > 1 := by omega
    have hdouble : (2 : ℚ) ^ ((e + 1 : ℕ) - 1075 - 2 : ℤ) = 2 ^ (e - 1075 - 2 : ℤ) * 2 := by
      rw [← zpow_add_one₀ (by norm_num)]
      congr 1
      push_cast
      ring
    rw [hdouble]
    simp only [hnarrow, fractions]
    norm_num
    ring

/-- Where the interval of a number ends, that of the next one begins. -/
theorem upper_rounding_ofIndex (k : ℕ) :
  (ofIndex k).rounding.upper = (ofIndex (k + 1)).rounding.lower
  := by
  unfold ofIndex
  by_cases hlast : k % fractions + 1 = fractions
  · have hexponent : (k + 1) / fractions = k / fractions + 1 := by
      simp only [fractions] at *
      omega
    have hfirst : (k + 1) % fractions = 0 := by
      simp only [fractions] at *
      omega
    rw [hexponent, hfirst, Nat.eq_sub_of_add_eq hlast]
    exact upper_rounding_last ..
  · have hexponent : (k + 1) / fractions = k / fractions := by
      simp only [fractions] at *
      omega
    have hnext : (k + 1) % fractions = k % fractions + 1 := by
      simp only [fractions] at *
      omega
    rw [hexponent, hnext]
    exact upper_rounding_within ..

/-- No interval is empty. -/
theorem lower_lt_upper_rounding (p : Parts) :
  p.rounding.lower < p.rounding.upper
  := by
  unfold rounding
  split <;>
  · rw [Rounding.lower_ofBinary, Rounding.upper_ofBinary]
    gcongr
    split <;> omega

/-- The intervals of even magnitudes are closed, so that ties are rounded to even. -/
theorem closed_rounding_ofIndex (k : ℕ) :
  (ofIndex k).rounding.closed = (k % 2 == 0)
  := by
  have hfraction : k % fractions % 2 = k % 2 := Nat.mod_mod_of_dvd k (by decide)
  have hmantissa : (fractions + k % fractions) % 2 = k % 2 := by
    rw [Nat.add_mod, hfraction]
    simp [fractions]
  unfold rounding
  split
  · simp only [Rounding.ofBinary, ofIndex, hfraction]
  · simp only [Rounding.ofBinary, ofIndex, hmantissa]

/-- No number rounds to two numbers. -/
theorem index_unique {q : ℚ} {k k' : ℕ} (h : (ofIndex k).rounding.Contains q)
    (h' : (ofIndex k').rounding.Contains q) :
  k = k'
  := by
  have hascending : StrictMono fun k => (ofIndex k).rounding.lower :=
    strictMono_nat_of_lt_succ fun k =>
      upper_rounding_ofIndex k ▸ lower_lt_upper_rounding (ofIndex k)
  wlog hlt : k < k' generalizing k k'
  · rcases Nat.lt_trichotomy k k' with hlt' | heq | hgt
    · contradiction
    · exact heq
    · exact (this h' h hgt).symm
  have hupper := h.le_upper
  have hlower := h'.lower_le
  rw [upper_rounding_ofIndex] at hupper
  -- The two intervals share at most an end, and only neighbours share one.
  have hends : (ofIndex k').rounding.lower ≤ (ofIndex (k + 1)).rounding.lower :=
    hlower.trans hupper
  have hneighbour : k' = k + 1 := by
    have := hascending.le_iff_le.mp hends
    omega
  subst hneighbour
  have hopen : (ofIndex k).rounding.closed = false ∨ (ofIndex (k + 1)).rounding.closed = false := by
    rw [closed_rounding_ofIndex, closed_rounding_ofIndex, beq_eq_false_iff_ne,
      beq_eq_false_iff_ne]
    omega
  rcases hopen with hopen | hopen
  · have := (h.of_not_closed hopen).2
    rw [upper_rounding_ofIndex] at this
    exact absurd hlower this.not_ge
  · exact absurd hupper (h'.of_not_closed hopen).1.not_ge

/-- The decimal that stands for a finite number, its sign aside. -/
def decimal (p : Parts) : Decimal :=
  if p.exponent = 0 ∧ p.fraction = 0 then ⟨0, 0⟩ else shortest p.rounding

/-- The decimal that stands for a number rounds to it. -/
theorem contains_decimal {p : Parts} (hfraction : p.fraction < fractions) :
  p.rounding.Contains p.decimal.value
  := by
  unfold decimal
  split
  next hzero =>
    rw [rounding, if_pos hzero.1, hzero.2, value, Nat.cast_zero, zero_mul]
    exact Rounding.contains_zero_ofBinary
  next hpos =>
    simp only [fractions] at hfraction
    unfold rounding
    split
    next hzero =>
      apply Rounding.contains_shortest_ofBinary
      · exact Nat.pos_of_ne_zero fun h => hpos ⟨hzero, h⟩
      · exact le_rfl
      · norm_num
        omega
    next hexponent =>
      apply Rounding.contains_shortest_ofBinary
      · exact Nat.add_pos_left (by decide) _
      · omega
      · simp only [fractions, Bool.and_eq_true, beq_iff_eq]
        split <;> omega

/-- A decimal stands for one number. -/
theorem index_eq_of_value_decimal {p p' : Parts} (hfraction : p.fraction < fractions)
    (hfraction' : p'.fraction < fractions) (h : p.decimal.value = p'.decimal.value) :
  p.index = p'.index
  := by
  have hcontains := contains_decimal hfraction
  have hcontains' := contains_decimal hfraction'
  rw [← h] at hcontains'
  rw [← rounding_ofIndex_index hfraction] at hcontains
  rw [← rounding_ofIndex_index hfraction'] at hcontains'
  exact index_unique hcontains hcontains'

end Parts

end SilFront.Decimal
