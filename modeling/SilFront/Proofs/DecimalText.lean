import SilFront.Number
import SilFront.Proofs.Rounding
import SilFront.Proofs.Sequences

/-!
# Texts of numbers

The text of a decimal denotes the decimal (`Decimal.read_text`), in either notation. With the
intervals of the binary numbers this gives every floating point number a text of its own
(`Decimal.floatText_injective`); integers have no mark in their texts that floating point numbers
have, so no two numbers are written alike (`Number.text_injective`).

A text begins with a digit or a sign, but for the two words `inf` and `NaN`
(`Number.exists_head_text`).
-/

namespace SilFront.Decimal

/-- The integer that a text denotes. -/
def readInt : List Char → ℤ
  | '-' :: digits => -Nat.ofDigitChars 10 digits 0
  | digits => Nat.ofDigitChars 10 digits 0

/-- The number that digits with a point among them denote, scaled by a power of ten. -/
def readScaled (mantissa : List Char) (exponent : ℤ) : ℚ :=
  let whole := mantissa.takeWhile (· ≠ '.')
  let fraction := (mantissa.dropWhile (· ≠ '.')).drop 1
  Nat.ofDigitChars 10 (whole ++ fraction) 0 * 10 ^ (exponent - fraction.length)

/-- The number that a text denotes: digits with a point among them, and an exponent after them. -/
def read (text : List Char) : ℚ :=
  readScaled (text.takeWhile (· ≠ 'e')) (readInt ((text.dropWhile (· ≠ 'e')).drop 1))

/-! ### Reading back -/

/-- There is no mark among digits. -/
theorem notMem_of_isDigit {xs : List Char} (h : ∀ c ∈ xs, c.isDigit) {mark : Char}
    (hmark : mark.isDigit = false) :
  mark ∉ xs
  := by
  intro hmem
  rw [h mark hmem] at hmark
  contradiction

theorem toList_toString_ofNat (n : ℕ) :
  (toString (Int.ofNat n)).toList = Nat.toDigits 10 n
  := Nat.toList_repr ..

/-- A negative integer is written as a minus sign and its digits. -/
theorem toList_toString_negSucc (n : ℕ) :
  (toString (Int.negSucc n)).toList = '-' :: Nat.toDigits 10 (n + 1)
  := by
  change ("-" ++ (n + 1).repr).toList = _
  rw [String.toList_append, Nat.toList_repr]
  rfl

theorem toList_toString_ne_nil (n : ℤ) :
  (toString n).toList ≠ []
  := by
  cases n with
  | ofNat n =>
    rw [toList_toString_ofNat]
    exact Nat.toDigits_ne_nil
  | negSucc n =>
    rw [toList_toString_negSucc]
    exact List.cons_ne_nil _ _

/-- An integer is written with digits and minus signs. -/
theorem isDigit_of_mem_toString {n : ℤ} {c : Char} (h : c ∈ (toString n).toList) :
  c.isDigit ∨ c = '-'
  := by
  cases n with
  | ofNat n =>
    rw [toList_toString_ofNat] at h
    exact .inl (Nat.isDigit_of_mem_toDigits (by decide) (by decide) h)
  | negSucc n =>
    rw [toList_toString_negSucc, List.mem_cons] at h
    rcases h with h | h
    · exact .inr h
    · exact .inl (Nat.isDigit_of_mem_toDigits (by decide) (by decide) h)

/-- The text of an integer is read as that integer. -/
theorem readInt_toString (n : ℤ) :
  readInt (toString n).toList = n
  := by
  cases n with
  | ofNat n =>
    rw [toList_toString_ofNat]
    have hminus : '-' ∉ Nat.toDigits 10 n :=
      notMem_of_isDigit (fun _ => Nat.isDigit_of_mem_toDigits (by decide) (by decide)) (by decide)
    unfold readInt
    split
    next digits heq =>
      rw [heq] at hminus
      exact absurd List.mem_cons_self hminus
    next => rw [Nat.ofDigitChars_ten_toDigits]; rfl
  | negSucc n =>
    rw [toList_toString_negSucc, readInt, Nat.ofDigitChars_ten_toDigits]
    rfl

/-- Digits after a point count for that many places less. -/
theorem readScaled_point {whole : List Char} (h : '.' ∉ whole) (fraction : List Char) (n : ℤ) :
  readScaled (whole ++ '.' :: fraction) n =
    Nat.ofDigitChars 10 (whole ++ fraction) 0 * 10 ^ (n - fraction.length)
  := by
  rw [readScaled, takeWhile_mark h, dropWhile_mark h, List.drop_one, List.tail_cons]

/-- Digits without a point are scaled as they are. -/
theorem readScaled_whole {whole : List Char} (h : '.' ∉ whole) (n : ℤ) :
  readScaled whole n = Nat.ofDigitChars 10 whole 0 * 10 ^ n
  := by
  rw [readScaled, List.takeWhile_eq_self_iff.mpr (all_ne_of_notMem h),
    List.dropWhile_eq_nil_iff.mpr (all_ne_of_notMem h)]
  simp

/-- A text without an exponent mark is not scaled. -/
theorem read_of_notMem {mantissa : List Char} (h : 'e' ∉ mantissa) :
  read mantissa = readScaled mantissa 0
  := by
  rw [read, List.takeWhile_eq_self_iff.mpr (all_ne_of_notMem h),
    List.dropWhile_eq_nil_iff.mpr (all_ne_of_notMem h)]
  rfl

/-- A mantissa with the text of an exponent is scaled by that exponent. -/
theorem read_exponent {mantissa : List Char} (h : 'e' ∉ mantissa) (n : ℤ) :
  read (mantissa ++ 'e' :: (toString n).toList) = readScaled mantissa n
  := by
  rw [read, takeWhile_mark h, dropWhile_mark h, List.drop_one, List.tail_cons, readInt_toString]

/-! ### The two notations -/

section Digits

variable {digits : List Char}

/-- A point before all digits has zeros between them. -/
theorem positional_before (hdigits : digits ≠ []) (zeros : ℕ) :
  positional digits (-zeros) = ['0'] ++ '.' :: (List.replicate zeros '0' ++ digits)
  := by
  simp [positional, hdigits]

/-- A point among the digits stands where they are cut. -/
theorem positional_within {k : ℕ} (hk : k ≠ 0) (hlt : k < digits.length) :
  positional digits k = digits.take k ++ '.' :: digits.drop k
  := by
  have hwhole : (digits.take k).rightpad k '0' = digits.take k := by
    simp [List.rightpad, hlt.le]
  have hdigits : digits ≠ [] := List.ne_nil_of_length_pos (Nat.zero_lt_of_lt hlt)
  have hrest : digits.drop k ≠ [] := mt List.drop_eq_nil_iff.mp hlt.not_ge
  rw [positional, Int.toNat_natCast, Int.toNat_neg_natCast, hwhole]
  simp [hdigits, hk, hrest]

/-- A point after all digits has zeros between them, and another zero after it. -/
theorem positional_after (hdigits : digits ≠ []) (zeros : ℕ) :
  positional digits (digits.length + zeros : ℕ) = digits ++ List.replicate zeros '0' ++ '.' :: ['0']
  := by
  have hle : digits.length ≤ digits.length + zeros := Nat.le_add_right ..
  have hwhole : (digits.take (digits.length + zeros)).rightpad (digits.length + zeros) '0' =
      digits ++ List.replicate zeros '0' := by
    rw [List.take_of_length_le hle, List.rightpad, Nat.add_sub_cancel_left]
  rw [positional, Int.toNat_natCast, Int.toNat_neg_natCast, hwhole, List.drop_eq_nil_of_le hle]
  simp [hdigits]

/-- A point among digits, with zeros where there are none, keeps their value. -/
theorem exists_positional (hdigits : digits ≠ []) (n : ℤ) :
  ∃ whole fraction, positional digits n = whole ++ '.' :: fraction ∧ whole ≠ [] ∧
    (∀ c ∈ whole ++ fraction, c ∈ digits ∨ c = '0') ∧
    (Nat.ofDigitChars 10 (whole ++ fraction) 0 : ℚ) * 10 ^ (0 - fraction.length : ℤ) =
      Nat.ofDigitChars 10 digits 0 * 10 ^ (n - digits.length)
  := by
  rcases le_or_gt n 0 with hneg | hpos
  · obtain ⟨zeros, rfl⟩ := Int.exists_eq_neg_ofNat hneg
    refine ⟨_, _, positional_before hdigits zeros, by simp, ?_, ?_⟩
    · simp only [List.mem_append, List.mem_singleton, List.mem_replicate]
      tauto
    · have hvalue : Nat.ofDigitChars 10 (['0'] ++ (List.replicate zeros '0' ++ digits)) 0 =
          Nat.ofDigitChars 10 digits 0 := by
        rw [Nat.ofDigitChars_append, Nat.ofDigitChars_append, Nat.ofDigitChars_replicate_zero]
        rfl
      rw [hvalue]
      congr 2
      simp
      ring
  · obtain ⟨k, rfl⟩ := Int.eq_ofNat_of_zero_le hpos.le
    have hk : k ≠ 0 := by rintro rfl; contradiction
    rcases Nat.lt_or_ge k digits.length with hlt | hge
    · refine ⟨_, _, positional_within hk hlt, by simp [hdigits, hk], ?_, ?_⟩
      · rw [List.take_append_drop]
        exact fun c hc => .inl hc
      · rw [List.take_append_drop, List.length_drop, Nat.cast_sub hlt.le]
        congr 2
        ring
    · obtain ⟨zeros, rfl⟩ := Nat.exists_eq_add_of_le hge
      refine ⟨_, _, positional_after hdigits zeros, by simp [hdigits], ?_, ?_⟩
      · simp only [List.mem_append, List.mem_singleton, List.mem_replicate]
        tauto
      · have hvalue : Nat.ofDigitChars 10 (digits ++ List.replicate zeros '0' ++ ['0']) 0 =
            10 * (10 ^ zeros * Nat.ofDigitChars 10 digits 0) := by
          rw [Nat.ofDigitChars_append, Nat.ofDigitChars_append, Nat.ofDigitChars_replicate_zero]
          rfl
        rw [hvalue]
        push_cast
        rw [add_sub_cancel_left, zpow_natCast]
        norm_num
        ring

/-- Digits and points, a digit first. -/
def Mantissa (mantissa : List Char) : Prop :=
  (∃ c cs, mantissa = c :: cs ∧ c.isDigit) ∧ ∀ c ∈ mantissa, c.isDigit ∨ c = '.'

/-- Digits with a point in its place are a mantissa, and are read as the digits scaled by that
place. -/
theorem mantissa_positional (hdigits : digits ≠ []) (hdigit : ∀ c ∈ digits, c.isDigit) (n : ℤ) :
  Mantissa (positional digits n) ∧ '.' ∈ positional digits n ∧
    readScaled (positional digits n) 0 =
      Nat.ofDigitChars 10 digits 0 * 10 ^ (n - digits.length)
  := by
  obtain ⟨whole, fraction, heq, hwhole, hmem, hscaled⟩ := exists_positional hdigits n
  have hall : ∀ c ∈ whole ++ fraction, c.isDigit := by
    intro c hc
    obtain h | rfl := hmem c hc
    · exact hdigit c h
    · decide
  rw [heq]
  refine ⟨⟨?_, ?_⟩, by simp, ?_⟩
  · obtain ⟨c, cs, rfl⟩ := List.exists_cons_of_ne_nil hwhole
    exact ⟨c, _, rfl, hall c (by simp)⟩
  · intro c hc
    obtain h | h := List.mem_append.mp hc
    · exact .inl (hall c (List.mem_append_left _ h))
    · obtain h | h := List.mem_cons.mp h
      · exact .inr h
      · exact .inl (hall c (List.mem_append_right _ h))
  · rw [readScaled_point, hscaled]
    exact notMem_of_isDigit (fun c hc => hall c (List.mem_append_left _ hc)) (by decide)

/-- A point after the first of several digits divides their value by a power of ten. -/
theorem exists_mantissa_scientific (hdigits : digits ≠ []) (hdigit : ∀ c ∈ digits, c.isDigit)
    (top : ℤ) :
  ∃ mantissa, scientific digits top = mantissa ++ 'e' :: (toString top).toList ∧
    Mantissa mantissa ∧
    readScaled mantissa top = Nat.ofDigitChars 10 digits 0 * 10 ^ (top + 1 - digits.length)
  := by
  have hpoint : '.' ∉ digits := notMem_of_isDigit hdigit (by decide)
  match digits, hdigits with
  | [digit], _ =>
    rw [List.forall_mem_singleton] at hdigit
    refine ⟨[digit], rfl, ⟨⟨digit, [], rfl, hdigit⟩, ?_⟩, ?_⟩
    · rw [List.forall_mem_singleton]
      exact .inl hdigit
    · rw [readScaled_whole hpoint]
      simp
  | first :: second :: rest, _ =>
    rw [List.forall_mem_cons] at hdigit
    refine ⟨first :: '.' :: second :: rest, rfl, ⟨⟨first, _, rfl, hdigit.1⟩, ?_⟩, ?_⟩
    · rw [List.forall_mem_cons, List.forall_mem_cons]
      exact ⟨.inl hdigit.1, .inr rfl, fun c hc => .inl (hdigit.2 c hc)⟩
    · have hfirst : '.' ∉ [first] := by
        simp only [List.mem_cons, not_or] at hpoint
        simpa using hpoint.1
      have hread := readScaled_point hfirst (second :: rest) top
      rw [List.singleton_append, List.singleton_append] at hread
      rw [hread]
      congr 2
      simp

end Digits

/-- The text of a decimal is digits around a point, or digits with an exponent after them, and
denotes the decimal. -/
theorem exists_written (d : Decimal) :
  ∃ mantissa rest, d.text.toList = mantissa ++ rest ∧ Mantissa mantissa ∧
    (rest = [] ∧ '.' ∈ mantissa ∧ readScaled mantissa 0 = d.value ∨
      ∃ n : ℤ, rest = 'e' :: (toString n).toList ∧ readScaled mantissa n = d.value)
  := by
  have hvalue : Nat.ofDigitChars 10 (Nat.toDigits 10 d.digits) 0 = d.digits :=
    Nat.ofDigitChars_ten_toDigits
  have hne : Nat.toDigits 10 d.digits ≠ [] := Nat.toDigits_ne_nil
  have hdigit : ∀ c ∈ Nat.toDigits 10 d.digits, c.isDigit := fun _ =>
    Nat.isDigit_of_mem_toDigits (by decide) (by decide)
  rw [text, String.toList_ofList]
  generalize Nat.toDigits 10 d.digits = digits at hvalue hne hdigit
  split
  · obtain ⟨hmantissa, hpoint, hscaled⟩ :=
      mantissa_positional hne hdigit (d.exponent + digits.length - 1 + 1)
    refine ⟨_, [], (List.append_nil _).symm, hmantissa, .inl ⟨rfl, hpoint, ?_⟩⟩
    rw [hscaled, hvalue, value]
    congr 2
    ring
  · obtain ⟨mantissa, heq, hmantissa, hscaled⟩ :=
      exists_mantissa_scientific hne hdigit (d.exponent + digits.length - 1)
    refine ⟨mantissa, _, heq, hmantissa, .inr ⟨_, rfl, ?_⟩⟩
    rw [hscaled, hvalue, value]
    congr 2
    ring

/-- The text of a decimal denotes it. -/
theorem read_text (d : Decimal) :
  read d.text.toList = d.value
  := by
  obtain ⟨mantissa, rest, htext, ⟨-, hmem⟩, hrest⟩ := exists_written d
  have hmark : 'e' ∉ mantissa := by
    intro h
    rcases hmem 'e' h with h | h <;> contradiction
  rw [htext]
  rcases hrest with ⟨rfl, -, hread⟩ | ⟨n, rfl, hread⟩
  · rw [List.append_nil, read_of_notMem hmark, hread]
  · rw [read_exponent hmark, hread]

/-- Decimals with the same text denote the same number. -/
theorem value_eq_of_text {d d' : Decimal} (h : d.text = d'.text) :
  d.value = d'.value
  := by
  rw [← read_text, ← read_text, h]

/-- The text of a decimal begins with a digit. -/
theorem exists_digit_text (d : Decimal) :
  ∃ c cs, d.text.toList = c :: cs ∧ c.isDigit
  := by
  obtain ⟨_, rest, htext, ⟨⟨c, cs, rfl, hc⟩, -⟩, -⟩ := exists_written d
  exact ⟨c, cs ++ rest, htext, hc⟩

/-- The text of a decimal has a point or an exponent mark, so that it is no integer. -/
theorem exists_mark_text (d : Decimal) :
  ∃ c ∈ d.text.toList, c = '.' ∨ c = 'e'
  := by
  obtain ⟨mantissa, rest, htext, -, ⟨-, hpoint, -⟩ | ⟨n, rfl, -⟩⟩ := exists_written d
  · exact ⟨'.', htext ▸ List.mem_append_left rest hpoint, .inl rfl⟩
  · exact ⟨'e', by simp [htext], .inr rfl⟩

/-- The characters of the texts of numbers. -/
def marks : List Char :=
  "-.einfNa".toList

/-- Nothing but digits and marks is written. -/
theorem isDigit_of_mem_text {d : Decimal} {c : Char} (h : c ∈ d.text.toList) :
  c.isDigit ∨ c ∈ marks
  := by
  obtain ⟨mantissa, rest, htext, ⟨-, hmem⟩, hrest⟩ := exists_written d
  rw [htext, List.mem_append] at h
  rcases h with h | h
  · rcases hmem c h with h | rfl
    · exact .inl h
    · exact .inr (by decide)
  · rcases hrest with ⟨rfl, -⟩ | ⟨n, rfl, -⟩
    · exact absurd h List.not_mem_nil
    · rcases List.mem_cons.mp h with rfl | h
      · exact .inr (by decide)
      · rcases isDigit_of_mem_toString h with h | rfl
        · exact .inl h
        · exact .inr (by decide)

/-! ### Floating point numbers -/

namespace Parts

theorem fraction_ofFloat_lt (x : Float) :
  (ofFloat x).fraction < fractions
  := Nat.mod_lt _ (by decide)

/-- The bits of a number from its parts. -/
theorem toNat_toBits (x : Float) :
  x.toBits.toNat =
    ((ofFloat x).negative.toNat * exponents + (ofFloat x).exponent) * fractions +
      (ofFloat x).fraction
  := by
  have hbits : x.toBits.toNat < 2 ^ 64 := x.toBits.toNat_lt
  simp only [ofFloat, fractions, exponents]
  cases hneg : x.toBits.toNat / 4503599627370496 / 2048 == 1 with
  | false =>
    rw [beq_eq_false_iff_ne] at hneg
    rw [Bool.toNat_false]
    omega
  | true =>
    rw [beq_iff_eq] at hneg
    rw [Bool.toNat_true]
    omega

theorem eq_of_toBits {x y : Float} (h : x.toBits = y.toBits) :
  x = y
  := by
  obtain ⟨⟨bits, _⟩⟩ := x
  obtain ⟨⟨bits', _⟩⟩ := y
  change bits = bits' at h
  subst h
  rfl

/-- The parts of a floating point number tell it. -/
theorem ofFloat_injective {x y : Float} (h : ofFloat x = ofFloat y) :
  x = y
  := by
  apply eq_of_toBits
  apply UInt64.toNat_inj.mp
  rw [toNat_toBits, toNat_toBits, h]

open Float.Model in
/-- There is one not-a-number. -/
theorem toBits_of_special {x : Float} (hexponent : (ofFloat x).exponent = special)
    (hfraction : (ofFloat x).fraction ≠ 0) :
  x.toBits.toBitVec = UnpackedFloat.packedNaN Format.binary64
  := by
  apply x.toModel.valid.eq_packedNaN
  · apply BitVec.eq_of_toNat_eq
    rw [UnpackedFloat.unpackExponent, BitVec.toNat_cast, BitVec.extractLsb_toNat,
      Nat.shiftRight_eq_div_pow]
    exact hexponent
  · intro hzero
    apply hfraction
    have hmantissa := congrArg BitVec.toNat hzero
    rw [UnpackedFloat.unpackMantissa, BitVec.toNat_cast, BitVec.extractLsb_toNat] at hmantissa
    exact hmantissa

/-- Whether the parts are those of not-a-number. -/
def IsNaN (p : Parts) : Prop :=
  p.exponent = special ∧ p.fraction ≠ 0

instance (p : Parts) : Decidable p.IsNaN :=
  inferInstanceAs (Decidable (_ ∧ _))

/-- There is only one `NaN`. -/
theorem eq_of_isNaN {x y : Float} (hx : (ofFloat x).IsNaN) (hy : (ofFloat y).IsNaN) :
  x = y
  := by
  apply eq_of_toBits
  apply UInt64.toBitVec_inj.mp
  rw [toBits_of_special hx.1 hx.2, toBits_of_special hy.1 hy.2]

/-- The parts of the positive infinity. -/
def infinity : Parts :=
  { negative := false
    exponent := special
    fraction := 0 }

/-- The text of a number that is not not-a-number, its sign aside. -/
def magnitude (p : Parts) : String :=
  if p.exponent = special then "inf" else p.decimal.text

/-- A magnitude begins with a digit, unless it is infinite. -/
theorem exists_head_magnitude (p : Parts) :
  ∃ c cs, p.magnitude.toList = c :: cs ∧ (c.isDigit ∨ p.exponent = special ∧ c = 'i')
  := by
  unfold magnitude
  split
  next h => exact ⟨'i', ['n', 'f'], rfl, .inr ⟨h, rfl⟩⟩
  next =>
    obtain ⟨c, cs, htext, hc⟩ := exists_digit_text p.decimal
    exact ⟨c, cs, htext, .inl hc⟩

/-- The text of a magnitude tells its place among all magnitudes. -/
theorem index_eq_of_magnitude {p p' : Parts} (hnumber : ¬ p.IsNaN) (hnumber' : ¬ p'.IsNaN)
    (hfraction : p.fraction < fractions) (hfraction' : p'.fraction < fractions)
    (h : p.magnitude = p'.magnitude) :
  p.index = p'.index
  := by
  have hinfinite : ∀ d : Decimal, d.text ≠ "inf" := by
    intro d hd
    obtain ⟨c, cs, htext, hc⟩ := exists_digit_text d
    rw [hd] at htext
    obtain rfl : 'i' = c := (List.cons.inj htext).1
    contradiction
  unfold magnitude at h
  split at h <;> split at h
  next hexponent hexponent' =>
    have hzero : p.fraction = 0 := not_not.mp fun hne => hnumber ⟨hexponent, hne⟩
    have hzero' : p'.fraction = 0 := not_not.mp fun hne => hnumber' ⟨hexponent', hne⟩
    rw [index, index, hexponent, hexponent', hzero, hzero']
  next => exact absurd h.symm (hinfinite _)
  next => exact absurd h (hinfinite _)
  next => exact index_eq_of_value_decimal hfraction hfraction' (value_eq_of_text h)

/-- The sign of a number and the place of its magnitude tell its parts. -/
theorem eq_of_index {p p' : Parts} (hfraction : p.fraction < fractions)
    (hfraction' : p'.fraction < fractions) (hnegative : p.negative = p'.negative)
    (h : p.index = p'.index) :
  p = p'
  := by
  obtain ⟨negative, exponent, fraction⟩ := p
  obtain ⟨negative', exponent', fraction'⟩ := p'
  simp only [index, fractions] at *
  rw [Parts.mk.injEq]
  refine ⟨hnegative, ?_, ?_⟩ <;> omega

end Parts

theorem floatText_of_isNaN {x : Float} (h : (Parts.ofFloat x).IsNaN) :
  floatText x = "NaN"
  := if_pos h

/-- A number is written as its sign, if it is negative, and its magnitude. -/
theorem floatText_of_not_isNaN {x : Float} (h : ¬ (Parts.ofFloat x).IsNaN) :
  floatText x =
    (if (Parts.ofFloat x).negative then "-" else "") ++ (Parts.ofFloat x).magnitude
  := by
  have hmagnitude : (Parts.ofFloat x).magnitude =
      if (Parts.ofFloat x).exponent = Parts.special then "inf"
      else if (Parts.ofFloat x).exponent = 0 ∧ (Parts.ofFloat x).fraction = 0 then "0.0"
      else (shortest (Parts.ofFloat x).rounding).text := by
    rw [Parts.magnitude, Parts.decimal, apply_ite text]
    rfl
  have hnumber :
    ¬ ((Parts.ofFloat x).exponent = Parts.special ∧ (Parts.ofFloat x).fraction ≠ 0) := h
  rw [hmagnitude, floatText, if_neg hnumber]
  split
  · rfl
  · rw [String.empty_append]

theorem floatText_of_infinity {x : Float} (h : Parts.ofFloat x = .infinity) :
  floatText x = "inf"
  := by
  rw [floatText_of_not_isNaN, h]
  · rfl
  · rw [h]
    decide

/-- A number is written with a digit or a sign first, or as infinity. -/
theorem exists_head_floatText {x : Float} (h : ¬ (Parts.ofFloat x).IsNaN) :
  ∃ c cs, (floatText x).toList = c :: cs ∧
    (c.isDigit ∨ c = '-' ∨ Parts.ofFloat x = .infinity ∧ c = 'i')
  := by
  rw [floatText_of_not_isNaN h]
  cases hnegative : (Parts.ofFloat x).negative with
  | false =>
    obtain ⟨c, cs, htext, hc⟩ := Parts.exists_head_magnitude (Parts.ofFloat x)
    refine ⟨c, cs, by simpa using htext, hc.imp_right fun ⟨hexponent, hc⟩ => .inr ⟨?_, hc⟩⟩
    have hzero : (Parts.ofFloat x).fraction = 0 := not_not.mp fun hne => h ⟨hexponent, hne⟩
    exact (Parts.mk.injEq ..).mpr ⟨hnegative, hexponent, hzero⟩
  | true => exact ⟨'-', (Parts.ofFloat x).magnitude.toList, by simp, .inr (.inl rfl)⟩

/-- What is no number is not written as a number is. -/
theorem floatText_ne_of_isNaN {x y : Float} (hx : (Parts.ofFloat x).IsNaN)
    (hy : ¬ (Parts.ofFloat y).IsNaN) :
  floatText x ≠ floatText y
  := by
  intro h
  obtain ⟨c, cs, htext, hc⟩ := exists_head_floatText hy
  rw [← h, floatText_of_isNaN hx] at htext
  obtain rfl : 'N' = c := (List.cons.inj htext).1
  rcases hc with hc | hc | ⟨-, hc⟩ <;> contradiction

/-- The text of a floating point number tells it. -/
theorem floatText_injective {x y : Float} (h : floatText x = floatText y) :
  x = y
  := by
  by_cases hx : (Parts.ofFloat x).IsNaN <;> by_cases hy : (Parts.ofFloat y).IsNaN
  · exact Parts.eq_of_isNaN hx hy
  · exact absurd h (floatText_ne_of_isNaN hx hy)
  · exact absurd h.symm (floatText_ne_of_isNaN hy hx)
  rw [floatText_of_not_isNaN hx, floatText_of_not_isNaN hy] at h
  have hsign : ∀ p p' : Parts, "-" ++ p.magnitude ≠ "" ++ p'.magnitude := by
    intro p p' heq
    obtain ⟨c, cs, htext, hc⟩ := p'.exists_head_magnitude
    rw [String.empty_append] at heq
    rw [← heq, String.toList_append] at htext
    obtain rfl : '-' = c := (List.cons.inj htext).1
    rcases hc with hc | ⟨-, hc⟩ <;> contradiction
  apply Parts.ofFloat_injective
  have hmagnitude : (Parts.ofFloat x).negative = (Parts.ofFloat y).negative →
      Parts.ofFloat x = Parts.ofFloat y := by
    intro hnegative
    rw [hnegative] at h
    apply Parts.eq_of_index (Parts.fraction_ofFloat_lt x) (Parts.fraction_ofFloat_lt y) hnegative
    apply Parts.index_eq_of_magnitude hx hy (Parts.fraction_ofFloat_lt x)
      (Parts.fraction_ofFloat_lt y)
    exact (String.append_right_inj _).mp h
  cases hnegative : (Parts.ofFloat x).negative <;>
    cases hnegative' : (Parts.ofFloat y).negative <;> rw [hnegative, hnegative'] at h
  · exact hmagnitude (hnegative.trans hnegative'.symm)
  · exact absurd h.symm (hsign _ _)
  · exact absurd h (hsign _ _)
  · exact hmagnitude (hnegative.trans hnegative'.symm)

/-- Floating point numbers are written with digits and marks. -/
theorem isDigit_of_mem_floatText {x : Float} {c : Char} (h : c ∈ (floatText x).toList) :
  c.isDigit ∨ c ∈ marks
  := by
  have hwords : "NaN".toList ++ "inf".toList ⊆ marks := by decide
  have hmagnitude : ∀ p : Parts, c ∈ p.magnitude.toList → c.isDigit ∨ c ∈ marks := by
    intro p hc
    unfold Parts.magnitude at hc
    split at hc
    · exact .inr (hwords (List.mem_append_right _ hc))
    · exact isDigit_of_mem_text hc
  by_cases hx : (Parts.ofFloat x).IsNaN
  · rw [floatText_of_isNaN hx] at h
    exact .inr (hwords (List.mem_append_left _ h))
  · rw [floatText_of_not_isNaN hx, String.toList_append, List.mem_append] at h
    rcases h with h | h
    · split at h
      · rw [List.mem_singleton.mp h]
        exact .inr (by decide)
      · exact absurd h List.not_mem_nil
    · exact hmagnitude _ h

/-- The text of a floating point number has a mark that no integer has. -/
theorem exists_mark_floatText (x : Float) :
  ∃ c ∈ (floatText x).toList, c.isDigit = false ∧ c ≠ '-'
  := by
  by_cases hx : (Parts.ofFloat x).IsNaN
  · exact ⟨'N', by rw [floatText_of_isNaN hx]; decide, by decide⟩
  · rw [floatText_of_not_isNaN hx]
    have hmagnitude : ∀ p : Parts, ∃ c ∈ p.magnitude.toList, c.isDigit = false ∧ c ≠ '-' := by
      intro p
      unfold Parts.magnitude
      split
      · exact ⟨'i', by decide⟩
      · obtain ⟨c, hc, rfl | rfl⟩ := exists_mark_text p.decimal
        · exact ⟨_, hc, by decide⟩
        · exact ⟨_, hc, by decide⟩
    obtain ⟨c, hc, hmark⟩ := hmagnitude (Parts.ofFloat x)
    exact ⟨c, by simp [hc], hmark⟩

end SilFront.Decimal

namespace SilFront.Number

theorem isDigit_of_mem_text {n : Number} {c : Char} (h : c ∈ n.text.toList) :
  c.isDigit ∨ c ∈ Decimal.marks
  := by
  cases n with
  | int n =>
    rcases Decimal.isDigit_of_mem_toString h with h | rfl
    · exact .inl h
    · exact .inr (by decide)
  | float x => exact Decimal.isDigit_of_mem_floatText h

/-- A number is written with a digit or a sign first, or with one of two words. -/
theorem exists_head_text (n : Number) :
  (∃ c cs, n.text.toList = c :: cs ∧ (c.isDigit ∨ c = '-')) ∨
    ∃ x, n = .float x ∧ ((Decimal.Parts.ofFloat x).IsNaN ∨ Decimal.Parts.ofFloat x = .infinity)
  := by
  cases n with
  | int n =>
    left
    obtain ⟨c, cs, htext⟩ := List.exists_cons_of_ne_nil (Decimal.toList_toString_ne_nil n.toInt)
    exact ⟨c, cs, htext, Decimal.isDigit_of_mem_toString (htext ▸ List.mem_cons_self)⟩
  | float x =>
    by_cases hx : (Decimal.Parts.ofFloat x).IsNaN
    · exact .inr ⟨x, rfl, .inl hx⟩
    · obtain ⟨c, cs, htext, hc | hc | ⟨hinfinity, -⟩⟩ := Decimal.exists_head_floatText hx
      · exact .inl ⟨c, cs, htext, .inl hc⟩
      · exact .inl ⟨c, cs, htext, .inr hc⟩
      · exact .inr ⟨x, rfl, .inr hinfinity⟩

/-- The text of a number tells it, and whether it is an integer. -/
theorem text_injective {n n' : Number} (h : n.text = n'.text) :
  n = n'
  := by
  have hkind : ∀ (n : Int64) (x : Float), toString n.toInt ≠ Decimal.floatText x := by
    intro n x heq
    obtain ⟨c, hc, hdigit, hminus⟩ := Decimal.exists_mark_floatText x
    rw [← heq] at hc
    rcases Decimal.isDigit_of_mem_toString hc with h | h
    · rw [h] at hdigit
      contradiction
    · contradiction
  cases n with
  | int n =>
    cases n' with
    | int n' =>
      have hread := congrArg (fun text : String => Decimal.readInt text.toList) h
      simp only [text, Decimal.readInt_toString] at hread
      rw [Int64.toInt_inj.mp hread]
    | float x => exact absurd h (hkind n x)
  | float x =>
    cases n' with
    | int n => exact absurd h.symm (hkind n x)
    | float y => rw [Decimal.floatText_injective h]

end SilFront.Number
