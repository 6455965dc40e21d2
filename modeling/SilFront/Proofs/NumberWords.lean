import SilFront.Proofs.NumberStages

/-!
# The longest match of a number

Reading a number goes on for as long as some word begins with what is read, whether the word is
completed or not; then the word, if it is one, tells the number (`Token.reads_longest_match`).

The readers use up as many characters as the automaton of the words does, one lemma for each of
them, up to `Token.used_scanNumber`.
-/

namespace SilFront

namespace Token

/-! ### What the readers use up -/

section Used

variable {first c : Char} {whole fraction text rest : List Char}

/-- After a base mark, the reader uses up the digits of the base. -/
theorem used_scanRadix (radix : Radix) :
  (scanRadix radix rest).used = ((Stage.base radix).reach rest).length
  := by
  have hreach : (Stage.base radix).reach rest = rest.takeWhile (isDigitOf radix) :=
    Stage.reach_eq_takeWhile (fun _ => rfl) fun _ => rfl
  rw [hreach]
  fun_cases scanRadix radix rest with
  | case1 digits hdigits => exact (List.length_eq_zero_iff.mpr (List.isEmpty_iff.mp hdigits)).symm
  | case2 => rfl
  | case3 => rfl

/-- The reader of the digits of an exponent uses up what is reached after a sign. -/
theorem used_scanExponentDigits (sign : Int) :
  (scanExponentDigits sign rest).used = (Stage.sign.reach rest).length
  := by
  have hreach : Stage.sign.reach rest = rest.takeWhile Char.isDigit :=
    Stage.reach_eq_takeWhile (fun _ => rfl) fun _ => rfl
  rw [hreach]
  fun_cases scanExponentDigits sign rest with
  | case1 digits hdigits => exact (List.length_eq_zero_iff.mpr (List.isEmpty_iff.mp hdigits)).symm
  | case2 => rfl

/-- The reader of exponents uses up what is reached after an exponent mark. -/
theorem used_scanExponent :
  (scanExponent rest).used = (Stage.mark.reach rest).length
  := by
  fun_cases scanExponent rest with
  | case1 rest =>
    have hsign : Stage.mark.next? '+' = some .sign := rfl
    rw [Stage.reach_cons hsign, List.length_cons, Nat.add_comm, ← used_scanExponentDigits 1]
    rfl
  | case2 rest =>
    have hsign : Stage.mark.next? '-' = some .sign := rfl
    rw [Stage.reach_cons hsign, List.length_cons, Nat.add_comm, ← used_scanExponentDigits (-1)]
    rfl
  | case3 rest hplus hminus =>
    rw [used_scanExponentDigits]
    cases rest with
    | nil => rfl
    | cons c rest =>
      have hc : Stage.mark.next? c = Stage.sign.next? c := by
        apply Stage.next?_mark
        · rintro rfl
          exact hplus rest rfl
        · rintro rfl
          exact hminus rest rfl
      rw [Stage.reach, Stage.reach, hc]

/-- The reader of scales uses up what is reached after a fraction, if no digit follows it. -/
theorem used_scanScale (h : ∀ c ∈ rest.head?, c.isDigit = false) :
  (scanScale whole fraction rest).used = (Stage.fraction.reach rest).length
  := by
  fun_cases scanScale whole fraction rest with
  | case1 => rfl
  | case2 c rest hmark =>
    rw [Stage.reach_cons (takesExponent_fraction c hmark), List.length_cons, Nat.add_comm,
      ← used_scanExponent]
    rfl
  | case3 c rest hmark =>
    have hc : Stage.fraction.next? c = none := by
      simp [Stage.next?, h c rfl, hmark]
    rw [Stage.reach_eq_nil_iff.mpr (by simpa using hc)]
    rfl

/-- The reader of fractions uses up what is reached after a point. -/
theorem used_scanFraction :
  (scanFraction whole rest).used = (Stage.point.reach rest).length
  := by
  fun_cases scanFraction whole rest with
  | case1 fraction hfraction =>
    have hhead : ∀ c ∈ rest.head?, Stage.point.next? c = none := by
      intro c hc
      have hdigit := head?_drop_takeWhile Char.isDigit rest c
      rw [show rest.takeWhile Char.isDigit = [] from List.isEmpty_iff.mp hfraction] at hdigit
      simp [Stage.next?, hdigit hc]
    rw [Stage.reach_eq_nil_iff.mpr hhead]
    rfl
  | case2 fraction hfraction =>
    have hne : fraction ≠ [] := mt List.isEmpty_iff.mpr hfraction
    have hrun : Stage.point.run fraction = some .fraction :=
      Stage.run_point hne fun c hc => List.mem_takeWhile_imp hc
    have hrest : rest = fraction ++ rest.drop fraction.length := by
      rw [drop_length_takeWhile, List.takeWhile_append_dropWhile]
    have hscale : (scanScale whole fraction (rest.drop fraction.length)).used = _ :=
      used_scanScale (head?_drop_takeWhile Char.isDigit rest)
    conv_rhs => rw [hrest, Stage.reach_append hrun, List.length_append, ← hscale]
    rfl

/-- Checking the range of a number uses up nothing. -/
theorem used_inRange (s : Scan Float) :
  (inRange text s).used = s.used
  := by
  fun_cases inRange text s <;> rfl

/-- Decimal digits are used up, of which the first does not count. -/
theorem used_scanDecimal :
  (scanDecimal whole).used = whole.length - 1
  := by
  fun_cases scanDecimal whole <;> rfl

/-- A number is read as far as the automaton goes, whatever comes of it. -/
theorem used_scanNumber (hfirst : first.isDigit) (rest : List Char) :
  (scanNumber first rest).used + 1 = (Stage.start.reach (first :: rest)).length
  := by
  -- all digits are reached, and from there on the reader and the automaton go by what follows them
  have hreach : Stage.start.reach (first :: rest) =
      (first :: rest.takeWhile Char.isDigit) ++
        (Stage.afterDigits (first :: rest.takeWhile Char.isDigit)).reach
          (rest.drop (rest.takeWhile Char.isDigit).length) := by
    have hdigits : ∀ c ∈ first :: rest.takeWhile Char.isDigit, c.isDigit := by
      rw [List.forall_mem_cons]
      exact ⟨hfirst, fun c hc => List.mem_takeWhile_imp hc⟩
    rw [← Stage.reach_append (Stage.run_start (List.cons_ne_nil _ _) hdigits), List.cons_append,
      drop_length_takeWhile, List.takeWhile_append_dropWhile]
  have hhead := head?_drop_takeWhile Char.isDigit rest
  rw [hreach, List.length_append]
  fun_cases scanNumber first rest with
  | case1 digits whole htail =>
    rw [htail, used_scanDecimal]
    rfl
  | case2 digits whole c tail htail radix hradix hzero =>
    rw [htail, show first :: rest.takeWhile Char.isDigit = ['0'] from hzero]
    have hmark : Stage.zero.next? c = some (.base radix) := by simp [Stage.next?, hradix]
    change 1 + (scanRadix radix tail).used + 1 = 1 + (Stage.zero.reach (c :: tail)).length
    rw [Stage.reach_cons hmark, used_scanRadix, List.length_cons]
    omega
  | case3 digits whole c tail htail radix hradix hzero =>
    have hstop : (Stage.afterDigits whole).next? c = none := by
      rw [Stage.afterDigits, if_neg hzero, ← Radix.letter_of_ofLetter? hradix]
      cases radix <;> rfl
    rw [htail, Stage.reach_eq_nil_iff.mpr (by simpa using hstop)]
    rfl
  | case4 digits whole tail htail hradix =>
    have hpoint : (Stage.afterDigits whole).next? '.' = some .point := Stage.next?_afterDigits rfl
    have hfraction : (scanFraction whole tail).used = _ := used_scanFraction
    rw [htail, Stage.reach_cons hpoint, used_inRange]
    change digits.length + 1 + (scanFraction whole tail).used + 1 =
      digits.length + 1 + ((Stage.point.reach tail).length + 1)
    rw [hfraction, Nat.add_assoc]
  | case5 digits whole c tail htail hradix hpoint hmark =>
    -- without a fraction, an exponent is read as after one
    have hc : (Stage.afterDigits whole).next? c = some .mark := takesExponent_afterDigits c hmark
    rw [htail] at hhead
    have hscale : (scanScale whole [] (c :: tail)).used = _ := used_scanScale hhead
    rw [Stage.reach_cons (takesExponent_fraction c hmark)] at hscale
    rw [htail, Stage.reach_cons hc, used_inRange]
    change digits.length + (scanScale whole [] (c :: tail)).used + 1 = digits.length + 1 + _
    rw [hscale]
    omega
  | case6 digits whole c tail htail hradix hpoint hmark =>
    have hstop : (Stage.afterDigits whole).next? c = none := by
      rw [htail] at hhead
      rw [Stage.next?_afterDigits hradix]
      simp [Stage.afterDigits?, hhead c rfl, hpoint, hmark]
    rw [htail, Stage.reach_eq_nil_iff.mpr (by simpa using hstop), used_scanDecimal]
    rfl

end Used

/-! ### What comes of a word -/

section Results

variable {first c : Char} {whole fraction scale digits tail rest : List Char} {value places : Nat}
variable {exponent : Int}

/-- The value of digits is the value of the numeral that they are. -/
theorem digitsValue_of_numeral {base : Nat} (h : Numeral base digits value) :
  digitsValue base digits = value
  := by
  induction h with
  | digit hc _ => simp [digitsValue, hc]
  | snoc _ hc _ ih =>
    rw [digitsValue] at ih ⊢
    rw [List.foldl_append, ih]
    simp [hc]

/-- An integer in range has 64 bits. -/
theorem int64?_of_inRange (h : (Meaning.integer value).InRange) :
  int64? value = some (Int64.ofNat value)
  := if_pos (Nat.lt_of_le_pred (by decide) h)

/-- Decimal digits are read as the integer that they denote. -/
theorem result_scanDecimal (h : Numeral 10 digits value) (hrange : (Meaning.integer value).InRange) :
  (scanDecimal digits).result = .ok (.int (Int64.ofNat value))
  := by
  rw [scanDecimal, digitsValue_of_numeral h, int64?_of_inRange hrange]
  rfl

/-- Digits of a base are read as the integer that they denote, where no other such digit follows. -/
theorem result_scanRadix {radix : Radix} (h : Numeral radix.base digits value)
    (hrest : ∀ c ∈ rest.head?, isDigitOf radix c = false)
    (hrange : (Meaning.integer value).InRange) :
  (scanRadix radix (digits ++ rest)).result = .ok (.int (Int64.ofNat value))
  := by
  have hne : ¬ digits.isEmpty := mt List.isEmpty_iff.mp (Fragment.ne_nil_of_numeral h)
  simp only [scanRadix, takeWhile_append_of_head? hrest,
    List.takeWhile_eq_self_iff.mpr (isDigitOf_of_numeral h), if_neg hne, digitsValue_of_numeral h,
    int64?_of_inRange hrange]
  rfl

/-- Digits of an exponent are read with its sign, where no other digit follows. -/
theorem result_scanExponentDigits {sign : Int} (h : Numeral 10 digits value)
    (hrest : ∀ c ∈ rest.head?, c.isDigit = false) :
  (scanExponentDigits sign (digits ++ rest)).result = .ok (sign * value)
  := by
  have hne : ¬ digits.isEmpty := mt List.isEmpty_iff.mp (Fragment.ne_nil_of_numeral h)
  simp only [scanExponentDigits, takeWhile_append_of_head? hrest,
    List.takeWhile_eq_self_iff.mpr (Fragment.isDigit_of_numeral h),
    if_neg hne, digitsValue_of_numeral h]
  rfl

/-- An exponent that begins with a digit has no sign. -/
theorem scanExponent_of_isDigit (h : c.isDigit) :
  scanExponent (c :: rest) = scanExponentDigits 1 (c :: rest)
  := by
  unfold scanExponent
  split
  · rename_i heq
    exact absurd (List.cons.inj heq).1 (ne_of_isDigit h rfl)
  · rename_i heq
    exact absurd (List.cons.inj heq).1 (ne_of_isDigit h rfl)
  · rfl

/-- Digits with an exponent are read as the floating point number that they denote. -/
theorem result_scanScale_exponent (h : Exponent scale exponent)
    (hrest : ∀ c ∈ rest.head?, c.isDigit = false) :
  (scanScale whole fraction (scale ++ rest)).result = .ok (floatOf whole fraction exponent)
  := by
  cases h with
  | unsigned hmark h =>
    obtain ⟨c, tail, rfl⟩ := List.exists_cons_of_ne_nil (Fragment.ne_nil_of_numeral h)
    have hc : c.isDigit := Fragment.isDigit_of_numeral h c List.mem_cons_self
    have hdigits : (scanExponentDigits 1 (c :: (tail ++ rest))).result = _ :=
      result_scanExponentDigits h hrest
    simp only [List.cons_append, scanScale, if_pos hmark, Scan.after, Scan.map,
      scanExponent_of_isDigit hc, hdigits, Int.one_mul]
    rfl
  | plus hmark h =>
    simp only [List.cons_append, scanScale, if_pos hmark, Scan.after, Scan.map, scanExponent,
      result_scanExponentDigits h hrest, Int.one_mul]
    rfl
  | minus hmark h =>
    simp only [List.cons_append, scanScale, if_pos hmark, Scan.after, Scan.map, scanExponent,
      result_scanExponentDigits h hrest, Int.neg_one_mul]
    rfl

/-- Where no exponent mark follows, the exponent is zero. -/
theorem result_scanScale_nil (hrest : ∀ c ∈ rest.head?, isExponentMark c = false) :
  (scanScale whole fraction rest).result = .ok (floatOf whole fraction 0)
  := by
  cases rest with
  | nil => rfl
  | cons c rest => rw [scanScale, hrest c rfl]; rfl

/-- The digits of a fraction are taken to those before the point, and what follows them is their
scale. -/
theorem result_scanFraction (hne : fraction ≠ []) (h : ∀ c ∈ fraction, c.isDigit)
    (hrest : ∀ c ∈ rest.head?, c.isDigit = false) :
  (scanFraction whole (fraction ++ rest)).result = (scanScale whole fraction rest).result
  := by
  simp only [scanFraction, takeWhile_append_of_head? hrest, List.takeWhile_eq_self_iff.mpr h,
    List.drop_left, if_neg (mt List.isEmpty_iff.mp hne)]
  rfl

/-- A finite number is in range. -/
theorem result_inRange {text : List Char} {s : Scan Float} {x : Float} (h : s.result = .ok x)
    (hfinite : Decimal.isFinite x) :
  (inRange text s).result = .ok (.float x)
  := by
  rw [inRange, h]
  simp only [if_pos hfinite]
  rfl

/-! ### Numbers by what follows their digits -/

/-- Digits are read as a decimal number where nothing follows that can go on with them. -/
theorem scanNumber_of_stop (h : ∀ c ∈ tail, c.isDigit)
    (hrest : ∀ c ∈ rest.head?, Radix.ofLetter? c = none ∧ Stage.afterDigits? c = none) :
  scanNumber first (tail ++ rest) = scanDecimal (first :: tail)
  := by
  have hdigits : ∀ c ∈ rest.head?, c.isDigit = false := by
    intro c hc
    by_contra hdigit
    have hstop := (hrest c hc).2
    rw [Stage.afterDigits?, if_pos (Bool.eq_true_of_not_eq_false hdigit)] at hstop
    cases hstop
  simp only [scanNumber, takeWhile_append_of_head? hdigits, List.takeWhile_eq_self_iff.mpr h,
    List.drop_left]
  cases rest with
  | nil => rfl
  | cons c rest =>
    obtain ⟨hradix, hstop⟩ := hrest c rfl
    simp only [Stage.afterDigits?, hdigits c rfl] at hstop
    simp only [hradix]
    split
    · rename_i hpoint
      simp [hpoint] at hstop
    split
    · rename_i hpoint hmark
      simp [hpoint, hmark] at hstop
    · rfl

theorem ofLetter?_letter (radix : Radix) :
  Radix.ofLetter? radix.letter = some radix
  := by cases radix <;> rfl

/-- A base mark after a zero begins a number of that base. -/
theorem scanNumber_radix (radix : Radix) :
  scanNumber '0' (radix.letter :: rest) = (scanRadix radix rest).after 1
  := by
  cases radix <;> simp [scanNumber, Radix.letter, Radix.ofLetter?]

/-- A base mark after other digits is refused. -/
theorem scanNumber_misplaced {radix : Radix} (h : ∀ c ∈ tail, c.isDigit)
    (hzero : first :: tail ≠ ['0']) :
  scanNumber first (tail ++ radix.letter :: rest) = .fail tail.length (.misplacedBase radix)
  := by
  have hletter : ∀ c ∈ (radix.letter :: rest).head?, c.isDigit = false := by
    cases radix <;> simp [Radix.letter]
  simp only [scanNumber, takeWhile_append_of_head? hletter, List.takeWhile_eq_self_iff.mpr h,
    List.drop_left, ofLetter?_letter, if_neg hzero]

/-- Digits with a point are read as what the reader of fractions makes of them, if that is
finite. -/
theorem result_scanNumber_point {x : Float} (h : ∀ c ∈ tail, c.isDigit)
    (hx : (scanFraction (first :: tail) rest).result = .ok x) (hfinite : Decimal.isFinite x) :
  (scanNumber first (tail ++ '.' :: rest)).result = .ok (.float x)
  := by
  have hpoint : Char.isDigit '.' = false := rfl
  simp only [scanNumber, takeWhile_append_cons hpoint, List.takeWhile_eq_self_iff.mpr h,
    List.drop_left, Radix.ofLetter?]
  exact result_inRange hx hfinite

/-- An exponent mark is no digit. -/
theorem isDigit_head?_mark (hmark : isExponentMark c) :
  ∀ d ∈ (c :: rest).head?, d.isDigit = false
  := by
  rcases isExponentMark_iff.mp hmark with rfl | rfl <;> simp

/-- Digits with an exponent mark are read as what the reader of scales makes of them, if that is
finite. -/
theorem result_scanNumber_mark {x : Float} (h : ∀ c ∈ tail, c.isDigit) (hmark : isExponentMark c)
    (hx : (scanScale (first :: tail) [] (c :: rest)).result = .ok x) (hfinite : Decimal.isFinite x) :
  (scanNumber first (tail ++ c :: rest)).result = .ok (.float x)
  := by
  have hradix : Radix.ofLetter? c = none := by
    rcases isExponentMark_iff.mp hmark with rfl | rfl <;> rfl
  have hpoint : c ≠ '.' := by
    rcases isExponentMark_iff.mp hmark with rfl | rfl <;> decide
  simp only [scanNumber, takeWhile_append_of_head? (isDigit_head?_mark hmark),
    List.takeWhile_eq_self_iff.mpr h, List.drop_left, hradix, if_neg hpoint, if_pos hmark]
  exact result_inRange hx hfinite

/-! ### Words and what follows them -/

/-- Digits are a number by themselves where neither a digit, a point, an exponent mark nor a base
mark follows. -/
theorem stop_digits_iff (h : ∀ c ∈ digits, c.isDigit) :
  (∀ c ∈ rest.head?, (Stage.afterDigits digits).next? c = none) ∧ ¬ MisplacedMark digits rest ↔
    ∀ c ∈ rest.head?, Radix.ofLetter? c = none ∧ Stage.afterDigits? c = none
  := by
  cases rest with
  | nil =>
    have hmark : ¬ MisplacedMark digits [] := fun ⟨_, _, _, hmark⟩ => nomatch hmark
    simp [hmark]
  | cons c rest =>
    simp only [List.head?_cons, Option.mem_some_iff, forall_eq']
    cases hc : Radix.ofLetter? c with
    | none =>
      have hmark : ¬ MisplacedMark digits (c :: rest) := by
        rintro ⟨-, -, radix, hmark⟩
        obtain rfl := Option.some.inj hmark
        rw [ofLetter?_letter] at hc
        cases hc
      simp [hmark, Stage.next?_afterDigits hc]
    | some radix =>
      simp only [reduceCtorEq, false_and, iff_false, not_and, not_not]
      intro hnext
      refine ⟨h, ?_, radix, by rw [Radix.letter_of_ofLetter? hc]; rfl⟩
      rintro rfl
      simp [Stage.afterDigits, Stage.next?, hc] at hnext

/-- An exponent begins with its mark. -/
theorem exists_mark_of_exponent (h : Exponent scale exponent) :
  ∃ mark body, scale = mark :: body ∧ isExponentMark mark
  := by
  cases h with
  | unsigned hmark | plus hmark | minus hmark => exact ⟨_, _, rfl, hmark⟩

/-- Digits are read as a floating point number with what the reader of scales makes of the rest. -/
theorem result_of_mantissa (h : Mantissa (first :: tail) value places)
    (hhead : ∀ c ∈ rest.head?, c.isDigit = false)
    (hscale : ∀ whole fraction, (scanScale whole fraction rest).result =
      .ok (floatOf whole fraction exponent))
    (hmark : 0 < places ∨ ∃ c more, rest = c :: more ∧ isExponentMark c)
    (hfinite : Decimal.isFinite (decimalFloat value (exponent - places))) :
  (scanNumber first (tail ++ rest)).result = .ok (.float (decimalFloat value (exponent - places)))
  := by
  generalize hv : first :: tail = v at h
  cases h with
  | whole h =>
    subst hv
    obtain ⟨c, more, rfl, hc⟩ : ∃ c more, rest = c :: more ∧ isExponentMark c := by
      simpa using hmark
    -- without a point, only an exponent makes it a floating point number
    have hx := hscale (first :: tail) []
    rw [floatOf, List.append_nil, digitsValue_of_numeral h, List.length_nil] at hx
    apply result_scanNumber_mark _ hc hx hfinite
    exact (List.forall_mem_cons.mp (Fragment.isDigit_of_numeral h)).2
  | @point whole fraction _ hwhole hfraction h =>
    obtain ⟨c, digits, rfl⟩ := List.exists_cons_of_ne_nil hwhole
    rw [List.cons_append] at hv
    obtain ⟨rfl, rfl⟩ := List.cons.inj hv
    obtain ⟨hdigits, hplaces⟩ := List.forall_mem_append.mp (Fragment.isDigit_of_numeral h)
    have hx := hscale (first :: digits) fraction
    rw [floatOf, digitsValue_of_numeral h, ← result_scanFraction hfraction hplaces hhead] at hx
    rw [List.append_assoc]
    exact result_scanNumber_point (List.forall_mem_cons.mp hdigits).2 hx hfinite

/-- A word is read as the number that it denotes where the automaton stops after it, if no base mark
is misplaced. -/
theorem result_of_numberWord {d : Meaning} (hword : NumberWord (first :: tail) d)
    (hreach : Stage.start.reach (first :: tail ++ rest) = first :: tail)
    (hmark : ¬ MisplacedMark (first :: tail) rest) (hrange : d.InRange) :
  (scanNumber first (tail ++ rest)).result = .ok d.number
  := by
  generalize hv : first :: tail = v at hword hreach
  cases hword with
  | digits h =>
    subst hv
    have hdigits := Fragment.isDigit_of_numeral h
    have hstop := (Stage.reach_append_eq_iff (run_numeral h)).mp hreach
    rw [scanNumber_of_stop (List.forall_mem_cons.mp hdigits).2
      ((stop_digits_iff hdigits).mp ⟨hstop, hmark⟩), result_scanDecimal h hrange]
    rfl
  | @radix radix digits value h =>
    obtain ⟨rfl, rfl⟩ := List.cons.inj hv
    have hstop := (Stage.reach_append_eq_iff (run_radixWord h)).mp hreach
    have hrest : ∀ c ∈ rest.head?, isDigitOf radix c = false := by
      intro c hc
      simpa [Stage.next?] using hstop c hc
    rw [List.cons_append, scanNumber_radix]
    exact result_scanRadix h hrest hrange
  | @fraction text value places h hplaces =>
    subst hv
    have hstop := (Stage.reach_append_eq_iff (run_mantissa h)).mp hreach
    rw [if_neg hplaces.ne'] at hstop
    have hrest c (hc : c ∈ rest.head?) := Stage.next?_fraction_eq_none (hstop c hc)
    have hresult := result_of_mantissa h (fun c hc => (hrest c hc).1)
      (fun _ _ => result_scanScale_nil fun c hc => (hrest c hc).2) (.inl hplaces)
    rw [Int.zero_sub] at hresult
    exact hresult hrange
  | @scaled text scale value places exponent hmantissa h =>
    have hstop := (Stage.reach_append_eq_iff (run_scaled hmantissa h)).mp hreach
    have hrest : ∀ c ∈ rest.head?, c.isDigit = false := by
      intro c hc
      simpa [Stage.next?] using hstop c hc
    obtain ⟨c, hc, -⟩ := (Fragment.isRun_of_mantissa hmantissa).1
    obtain ⟨front, rfl⟩ := List.head?_eq_some_iff.mp hc
    rw [List.cons_append] at hv
    obtain ⟨rfl, rfl⟩ := List.cons.inj hv
    obtain ⟨mark, body, rfl, hexponent⟩ := exists_mark_of_exponent h
    rw [List.append_assoc]
    exact result_of_mantissa hmantissa (isDigit_head?_mark hexponent)
      (fun _ _ => result_scanScale_exponent h hrest) (.inr ⟨mark, _, rfl, hexponent⟩) hrange

end Results

/-- A spelling of a number is a word that denotes it. -/
theorem exists_numberWord_of_spelledBy {number : Number} {text : List Char}
    (h : (Token.number number).SpelledBy text) :
  ∃ d, NumberWord text d ∧ d.InRange ∧ d.number = number
  := by
  have hinteger {n : Int64} {value : Nat} (hn : n.toInt = value) :
      (Meaning.integer value).InRange ∧ (Meaning.integer value).number = .int n := by
    have hlt := n.toInt_lt
    have hvalue : value < 2 ^ 63 := by omega
    refine ⟨Nat.le_pred_of_lt hvalue, congrArg Number.int (Int64.toInt_inj.mp ?_)⟩
    rw [Int64.toInt_ofNat_of_lt hvalue, hn]
  cases h with
  | decimal h hn => exact ⟨_, .digits h, hinteger hn⟩
  | radix h hn => exact ⟨_, .radix h, hinteger hn⟩
  | fraction h hplaces hfinite => exact ⟨_, .fraction h hplaces, hfinite, rfl⟩
  | scaled hmantissa h hfinite => exact ⟨_, .scaled hmantissa h, hfinite, rfl⟩

/-! ### Reading numbers -/

section Reading

variable {first : Char} {tail rest : List Char} {number : Number}

/-- A number is the longest match, at least its first digit, and what is left of the text. -/
theorem exists_reach_eq_cons (hfirst : first.isDigit) (rest : List Char) :
  ∃ tail more, rest = tail ++ more ∧ Stage.start.reach (first :: rest) = first :: tail
  := by
  have hused := used_scanNumber hfirst rest
  obtain ⟨more, hmore⟩ := Stage.reach_isPrefix .start (first :: rest)
  cases hreach : Stage.start.reach (first :: rest) with
  | nil => simp [hreach] at hused
  | cons c tail =>
    rw [hreach, List.cons_append] at hmore
    obtain ⟨rfl, rfl⟩ := List.cons.inj hmore
    exact ⟨tail, more, rfl, rfl⟩

/-- As much is used up as is reached, of which the first character does not count. -/
theorem used_of_reach (hfirst : first.isDigit)
    (hreach : Stage.start.reach (first :: (tail ++ rest)) = first :: tail) :
  (scanNumber first (tail ++ rest)).used = tail.length
  := by
  have hused := used_scanNumber hfirst (tail ++ rest)
  rwa [hreach, List.length_cons, Nat.add_right_cancel_iff] at hused

/-- The longest match is read as a number exactly if it is a word that denotes that number, and no
base mark is misplaced after it. -/
theorem result_scanNumber_eq_ok_iff (hfirst : first.isDigit)
    (hreach : Stage.start.reach (first :: (tail ++ rest)) = first :: tail) :
  (scanNumber first (tail ++ rest)).result = .ok number ↔
    ∃ d, NumberWord (first :: tail) d ∧ ¬ MisplacedMark (first :: tail) rest ∧ d.InRange ∧
      d.number = number
  := by
  constructor
  · intro h
    have hspelled := spelledBy_of_scanNumber hfirst h
    rw [used_of_reach hfirst hreach, List.take_left] at hspelled
    obtain ⟨d, hword, hrange, hd⟩ := exists_numberWord_of_spelledBy hspelled
    refine ⟨d, hword, ?_, hrange, hd⟩
    rintro ⟨hdigits, hzero, radix, hmark⟩
    obtain ⟨more, rfl⟩ := List.head?_eq_some_iff.mp hmark
    rw [scanNumber_misplaced (List.forall_mem_cons.mp hdigits).2 hzero] at h
    cases h
  · rintro ⟨d, hword, hmark, hrange, rfl⟩
    exact result_of_numberWord hword hreach hmark hrange

/-- A spelling is read as one number, and nothing of what follows it. -/
def IsReadAs (spelling rest : List Char) (number : Number) : Prop :=
  ∀ l, (⟨spelling ++ rest, l⟩ : Cursor).next =
    (.ok ⟨.number number, l⟩, ⟨rest, l.after spelling⟩)

/-- Nothing is skipped before a digit. -/
theorem gap_of_isDigit (hfirst : first.isDigit) :
  Gap.of (first :: rest) = ⟨0, none⟩
  := by
  have hcomment : first ≠ '#' := ne_of_isDigit hfirst rfl
  have hblank : isBlank first = false := by
    simp only [isBlank, Bool.or_eq_false_iff, beq_eq_false_iff_ne]
    refine ⟨⟨⟨⟨⟨?_, ?_⟩, ?_⟩, ?_⟩, ?_⟩, ?_⟩ <;> exact ne_of_isDigit hfirst rfl
  rw [Gap.of, Gap.scan.eq_3 _ _ (fun _ h _ => hcomment h) hcomment, hblank]
  rfl

theorem scan_of_isDigit (hfirst : first.isDigit) :
  scan first rest = (scanNumber first rest).map .number
  := by
  rw [scan, if_neg (ne_of_isDigit hfirst rfl), if_pos hfirst]

/-- A spelling is read as one number exactly if it is all that is reached, and the reader of numbers
makes that number of it. -/
theorem isReadAs_iff (hfirst : first.isDigit) :
  IsReadAs (first :: tail) rest number ↔
    Stage.start.reach (first :: (tail ++ rest)) = first :: tail ∧
      (scanNumber first (tail ++ rest)).result = .ok number
  := by
  constructor
  · intro h
    have hnext := h .start
    have hrest : (⟨first :: tail ++ rest, .start⟩ : Cursor).rest = first :: (tail ++ rest) := rfl
    rw [Cursor.next_eq_read hrest (gap_of_isDigit hfirst), Cursor.read, scan_of_isDigit hfirst,
      Prod.mk.injEq] at hnext
    obtain ⟨hstep, hcursor⟩ := hnext
    constructor
    · have hfront := Stage.reach_isPrefix .start (first :: (tail ++ rest))
      have hlength := congrArg (fun c : Cursor => c.rest.length) hcursor
      have hused := used_scanNumber hfirst (tail ++ rest)
      have hle := hfront.length_le
      simp only [Cursor.rest_advance, List.length_drop, List.cons_append, List.length_cons,
        List.length_append, Scan.map] at hlength hle
      have heq : (Stage.start.reach (first :: (tail ++ rest))).length = (first :: tail).length := by
        rw [List.length_cons]
        omega
      exact (List.prefix_of_prefix_length_le hfront (List.prefix_append (first :: tail) rest)
        heq.le).eq_of_length heq
    · cases hresult : (scanNumber first (tail ++ rest)).result with
      | error cause => simp [Scan.map, hresult, Except.map] at hstep
      | ok read => simpa [Scan.map, hresult, Except.map] using hstep
  · rintro ⟨hreach, hresult⟩ l
    have hscan : scan first (tail ++ rest) = .done tail.length (.number number) := by
      rw [scan_of_isDigit hfirst, Scan.map, used_of_reach hfirst hreach, hresult]
      rfl
    rw [Cursor.next_of_scan rfl (gap_of_isDigit hfirst) hscan]
    simp [Cursor.advance, Cursor.locationAt]

end Reading

/-! ### Integers -/

/-- Whether a character is taken for a part of the decimal digits before it. -/
def continuesDigits (c : Char) : Bool :=
  c.isDigit || c ∈ ['.', 'e', 'E', 'x', 'o', 'b']

/-- The spellings of an integer, with the characters that are taken for a part of them. -/
inductive IntegerSpelling (value : Nat) : List Char → (Char → Bool) → Prop where
  | decimal {digits : List Char} :
    Numeral 10 digits value → IntegerSpelling value digits continuesDigits
  | radix {radix : Radix} {digits : List Char} :
    Numeral radix.base digits value →
    IntegerSpelling value ('0' :: radix.letter :: digits) (isDigitOf radix)

/-- The digits of a number are a numeral for it. -/
theorem numeral_toDigits {base : Nat} (hbase : 1 < base) (hdigits : base ≤ 16) (n : Nat) :
  Numeral base (Nat.toDigits base n) n
  := by
  induction n using Nat.strongRecOn with
  | ind n ih =>
    rcases Nat.lt_or_ge n base with hn | hn
    · rw [Nat.toDigits_of_lt_base hn]
      exact .digit (Text.hexValue?_digitChar (hn.trans_le hdigits)) hn
    · have hmod : n % base < base := Nat.mod_lt _ (by omega)
      have hsnoc := Numeral.snoc (ih (n / base) (Nat.div_lt_self (by omega) hbase))
        (Text.hexValue?_digitChar (hmod.trans_le hdigits)) hmod
      rwa [Nat.mul_comm, Nat.div_add_mod, ← Nat.toDigits_of_base_le hbase hn] at hsnoc

/-- A character is no part of the digits before it if it is no base mark and leads nowhere from
them. -/
theorem continuesDigits_eq_false_iff {c : Char} :
  continuesDigits c = false ↔ Radix.ofLetter? c = none ∧ Stage.afterDigits? c = none
  := by
  have hradix : Radix.ofLetter? c = none ↔ c ≠ 'x' ∧ c ≠ 'o' ∧ c ≠ 'b' := by
    unfold Radix.ofLetter?
    split <;> simp_all
  have hdigits : Stage.afterDigits? c = none ↔
      c.isDigit = false ∧ c ≠ '.' ∧ isExponentMark c = false := by
    unfold Stage.afterDigits?
    split
    · simp_all
    split
    · simp_all
    split <;> simp_all
  simp only [hradix, hdigits, continuesDigits, isExponentMark, Bool.or_eq_false_iff,
    decide_eq_false_iff_not, List.mem_cons, List.not_mem_nil, not_or, beq_eq_false_iff_ne]
  tauto

/-- A spelling of an integer in range is read as that integer exactly if the character after it is
not taken for a part of it. -/
theorem isReadAs_of_integerSpelling {value : Nat} {spelling rest : List Char} {p : Char → Bool}
    (h : IntegerSpelling value spelling p) (hrange : (Meaning.integer value).InRange) :
  IsReadAs spelling rest (.int (Int64.ofNat value)) ↔ ∀ c ∈ rest.head?, p c = false
  := by
  cases h with
  | decimal h =>
    obtain ⟨first, tail, rfl⟩ := List.exists_cons_of_ne_nil (Fragment.ne_nil_of_numeral h)
    have hdigits := Fragment.isDigit_of_numeral h
    have hfirst := hdigits first List.mem_cons_self
    simp only [continuesDigits_eq_false_iff]
    rw [isReadAs_iff hfirst, ← stop_digits_iff hdigits, ← Stage.reach_append_eq_iff (run_numeral h),
      List.cons_append]
    refine and_congr_right fun hreach => ?_
    constructor
    · intro hresult
      obtain ⟨d, -, hmark, -, -⟩ := (result_scanNumber_eq_ok_iff hfirst hreach).mp hresult
      exact hmark
    · intro hmark
      exact result_of_numberWord (.digits h) hreach hmark hrange
  | @radix radix digits h =>
    have hmark : ¬ MisplacedMark ('0' :: radix.letter :: digits) rest := by
      rintro ⟨hdigits, -, -⟩
      have hletter := hdigits radix.letter (by simp)
      cases radix <;> exact absurd hletter (by decide)
    have hreach : Stage.start.reach ('0' :: radix.letter :: digits ++ rest) =
        '0' :: radix.letter :: digits ↔ ∀ c ∈ rest.head?, isDigitOf radix c = false := by
      rw [Stage.reach_append_eq_iff (run_radixWord h)]
      simp [Stage.next?]
    rw [isReadAs_iff rfl, ← hreach]
    exact and_iff_left_of_imp fun hreach => result_of_numberWord (.radix h) hreach hmark hrange

/-! ### The longest match -/

/-- From a digit on, the longest match of a number is read, and it is read as a number exactly if it
is a word, has no misplaced base mark after it and denotes a number in range. In particular, every
spelling of an integer of 64 bits is read as that integer wherever the character after it is not
taken for a part of it. -/
theorem reads_longest_match :
  (∀ first rest, first.isDigit →
    ∃ v, (∀ w, LongestMatch (first :: rest) w ↔ w = v) ∧
      (scanNumber first rest).used + 1 = v.length ∧
      ∀ number, (scanNumber first rest).result = .ok number ↔
        ∃ d, NumberWord v d ∧ ¬ MisplacedMark v ((first :: rest).drop v.length) ∧ d.InRange ∧
          d.number = number) ∧
  ∀ value : Nat, value ≤ 2 ^ 63 - 1 →
    (∀ spelling p, IntegerSpelling value spelling p → ∀ rest,
      IsReadAs spelling rest (.int (Int64.ofNat value)) ↔ ∀ c ∈ rest.head?, p c = false) ∧
    IntegerSpelling value (Nat.toDigits 10 value) continuesDigits ∧
    ∀ radix : Radix, IntegerSpelling value
      ('0' :: radix.letter :: Nat.toDigits radix.base value) (isDigitOf radix)
  := by
  constructor
  · intro first rest hfirst
    obtain ⟨tail, more, rfl, hreach⟩ := exists_reach_eq_cons hfirst rest
    refine ⟨first :: tail, ?_, ?_, ?_⟩
    · intro w
      rw [longestMatch_iff, hreach]
    · rw [used_of_reach hfirst hreach, List.length_cons]
    · intro number
      rw [List.length_cons, List.drop_succ_cons, List.drop_left]
      exact result_scanNumber_eq_ok_iff hfirst hreach
  · intro value hrange
    refine ⟨fun spelling p h rest => isReadAs_of_integerSpelling h hrange, ?_, ?_⟩
    · exact .decimal (numeral_toDigits (by decide) (by decide) value)
    · intro radix
      exact .radix (numeral_toDigits (by cases radix <;> decide) (by cases radix <;> decide) value)

/-- Of the text `0x1Fg`, the word `0x1F` is read as 31, and the letter after it is left; the greatest
integer is read where a semicolon follows it. -/
theorem reads_longest_match_hex :
  (∃ v, LongestMatch "0x1Fg".toList v ∧ v.length = 4 ∧
    ∃ d, NumberWord v d ∧ d.InRange ∧ d.number = .int 31) ∧
  IsReadAs (Nat.toDigits 10 (2 ^ 63 - 1)) [';'] (.int (Int64.ofNat (2 ^ 63 - 1)))
  := by
  constructor
  · obtain ⟨v, hlongest, hused, hresult⟩ := reads_longest_match.1 '0' "x1Fg".toList (by decide)
    obtain ⟨d, hword, -, hrange, hd⟩ := (hresult (.int 31)).mp (by decide +kernel)
    exact ⟨v, (hlongest v).mpr rfl, hused.symm.trans (by decide +kernel), d, hword, hrange, hd⟩
  · obtain ⟨hread, hdecimal, -⟩ := reads_longest_match.2 (2 ^ 63 - 1) le_rfl
    exact (hread _ _ hdecimal [';']).mpr (by simp [continuesDigits])

end Token

end SilFront
