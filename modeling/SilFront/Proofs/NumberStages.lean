import Mathlib.Algebra.Group.Nat.Defs
import Mathlib.Data.List.Infix
import SilFront.Proofs.Expansion
import SilFront.Proofs.Quoting

/-!
# The words that spell numbers

A number is spelled by digits, by a zero with a base mark and digits of that base, or by digits with
a fraction, an exponent or both. What words begin with is what the stages of an automaton allow
(`Token.beginsWord_iff`), so the longest match in a text is as much of it as the automaton takes
(`Token.longestMatch_iff`).
-/

namespace SilFront

namespace Token

/-! ### Words -/

/-- What a word denotes: an integer, or the number `digits * 10 ^ exponent`. -/
inductive Meaning where
  | integer (value : Nat)
  | decimal (digits : Nat) (exponent : Int)

namespace Meaning

/-- Whether there is a number for a meaning: 64 bits hold the integer, or what the decimal is
rounded to is finite. -/
def InRange : Meaning → Prop
  | .integer value => value ≤ 2 ^ 63 - 1
  | .decimal digits exponent => Decimal.isFinite (decimalFloat digits exponent)

/-- The number that is read for a meaning. -/
def number : Meaning → Number
  | .integer value => .int (Int64.ofNat value)
  | .decimal digits exponent => .float (decimalFloat digits exponent)

end Meaning

/-- The words that spell numbers. -/
inductive NumberWord : List Char → Meaning → Prop where
  | digits {digits : List Char} {value : Nat} :
    Numeral 10 digits value → NumberWord digits (.integer value)
  | radix {radix : Radix} {digits : List Char} {value : Nat} :
    Numeral radix.base digits value →
    NumberWord ('0' :: radix.letter :: digits) (.integer value)
  | fraction {text : List Char} {value places : Nat} :
    Mantissa text value places → 0 < places → NumberWord text (.decimal value (-places))
  | scaled {text scale : List Char} {value places : Nat} {exponent : Int} :
    Mantissa text value places → Exponent scale exponent →
    NumberWord (text ++ scale) (.decimal value (exponent - places))

/-- A text that some word begins with. -/
def BeginsWord (text : List Char) : Prop :=
  ∃ more d, NumberWord (text ++ more) d

/-- The longest beginning of a text that some word begins with too. -/
structure LongestMatch (text read : List Char) : Prop where
  front : read <+: text
  begins : BeginsWord read
  longest : ∀ other, other <+: text → BeginsWord other → other.length ≤ read.length

/-- Digits other than a single zero, and a base mark after them. -/
structure MisplacedMark (text rest : List Char) : Prop where
  digits : ∀ c ∈ text, c.isDigit
  ne_zero : text ≠ ['0']
  mark : ∃ radix : Radix, rest.head? = some radix.letter

/-- A digit differs from every character that is none. -/
theorem ne_of_isDigit {c d : Char} (hc : c.isDigit) (hd : d.isDigit = false) :
  c ≠ d
  := by
  rintro rfl
  rw [hc] at hd
  cases hd

/-! ### The automaton -/

/-- How far a word is read. -/
inductive Stage where
  | start
  /-- A single zero. -/
  | zero
  /-- Other digits. -/
  | whole
  /-- A zero and a base mark. -/
  | base (radix : Radix)
  /-- Digits after a base mark. -/
  | radix (radix : Radix)
  /-- A point after digits. -/
  | point
  /-- Digits after a point. -/
  | fraction
  /-- An exponent mark. -/
  | mark
  /-- The sign of an exponent. -/
  | sign
  /-- Digits of an exponent. -/
  | exponent
deriving DecidableEq

namespace Stage

/-- The stage after a character that continues decimal digits. -/
def afterDigits? (c : Char) : Option Stage :=
  if c.isDigit then some .whole
  else if c = '.' then some .point
  else if isExponentMark c then some .mark
  else none

/-- The stage after one more character, if a word can go on with it. -/
def next? (stage : Stage) (c : Char) : Option Stage :=
  match stage with
  | .start => if c = '0' then some .zero else if c.isDigit then some .whole else none
  | .zero => ((Radix.ofLetter? c).map .base).or (afterDigits? c)
  | .whole => afterDigits? c
  | .base r | .radix r => if isDigitOf r c then some (.radix r) else none
  | .point => if c.isDigit then some .fraction else none
  | .fraction =>
    if c.isDigit then some .fraction else if isExponentMark c then some .mark else none
  | .mark => if c = '+' ∨ c = '-' then some .sign else if c.isDigit then some .exponent else none
  | .sign | .exponent => if c.isDigit then some .exponent else none

/-- The stage after a text, if a word can go on with it. -/
def run (stage : Stage) (text : List Char) : Option Stage :=
  text.foldlM next? stage

/-- The beginning of a text with which a word can go on. -/
def reach : Stage → List Char → List Char
  | _, [] => []
  | stage, c :: rest =>
    match stage.next? c with
    | some next => c :: next.reach rest
    | none => []

variable {stage next last : Stage} {c : Char} {text rest : List Char} {p : Char → Bool}

@[simp]
theorem run_nil :
  stage.run [] = some stage
  := rfl

/-- A text leads on from where its first character leads. -/
theorem run_cons :
  stage.run (c :: rest) = (stage.next? c).bind (run · rest)
  := rfl

/-- A text leads on from where the text before it leads. -/
theorem run_append :
  stage.run (text ++ rest) = (stage.run text).bind (run · rest)
  := List.foldlM_append

theorem reach_cons (h : stage.next? c = some next) :
  stage.reach (c :: rest) = c :: next.reach rest
  := by simp only [reach, h]

/-- Nothing of a text is reached exactly if no word can go on with its first character. -/
theorem reach_eq_nil_iff :
  stage.reach rest = [] ↔ ∀ c ∈ rest.head?, stage.next? c = none
  := by
  cases rest with
  | nil => simp [reach]
  | cons c rest =>
    simp only [reach, List.head?_cons, Option.mem_some_iff, forall_eq']
    cases stage.next? c <;> simp

/-- A text through which words can go on is reached, and what follows it is reached from where it
leads. -/
theorem reach_append (h : stage.run text = some last) :
  stage.reach (text ++ rest) = text ++ last.reach rest
  := by
  induction text generalizing stage with
  | nil =>
    obtain rfl := Option.some.inj h
    rfl
  | cons c text ih =>
    obtain ⟨next, hc, hnext⟩ := Option.bind_eq_some_iff.mp h
    rw [List.cons_append, reach_cons hc, ih hnext, List.cons_append]

/-- A text that is reached as a whole is left where nothing can follow. -/
theorem reach_append_eq_iff (h : stage.run text = some last) :
  stage.reach (text ++ rest) = text ↔ ∀ c ∈ rest.head?, last.next? c = none
  := by rw [reach_append h, List.append_right_eq_self, reach_eq_nil_iff]

/-- The beginnings of a text with which a word can go on are those of the longest one. -/
theorem isSome_run_iff (h : text <+: rest) :
  (stage.run text).isSome ↔ text <+: stage.reach rest
  := by
  induction text generalizing stage rest with
  | nil => simp
  | cons c text ih =>
    obtain ⟨rest, rfl⟩ := h
    rw [List.cons_append, run_cons]
    cases hc : stage.next? c with
    | none => simp [reach, hc]
    | some next =>
      rw [reach_cons hc, List.cons_prefix_cons, ← ih (List.prefix_append ..)]
      simp

/-- What is reached is a beginning of the text. -/
theorem reach_isPrefix (stage : Stage) (text : List Char) :
  stage.reach text <+: text
  := by
  induction text generalizing stage with
  | nil => exact List.prefix_rfl
  | cons c text ih =>
    cases hc : stage.next? c with
    | none => simp [reach, hc]
    | some next =>
      rw [reach_cons hc, List.cons_prefix_cons]
      exact ⟨rfl, ih next⟩

/-! ### Runs of digits -/

/-- Characters of one kind lead to one stage if the first of them does and the others stay there. -/
theorem run_of_forall (hfirst : ∀ c, p c → stage.next? c = some next)
    (hnext : ∀ c, p c → next.next? c = some next) (hne : text ≠ []) (h : ∀ c ∈ text, p c) :
  stage.run text = some next
  := by
  induction text generalizing stage with
  | nil => contradiction
  | cons c text ih =>
    rw [List.forall_mem_cons] at h
    rw [run_cons, hfirst c h.1, Option.bind_some]
    cases text with
    | nil => rfl
    | cons d text => exact ih hnext (List.cons_ne_nil _ _) h.2

/-- Where only characters of one kind can follow, all of them are reached. -/
theorem reach_eq_takeWhile (hfirst : ∀ c, stage.next? c = if p c then some next else none)
    (hnext : ∀ c, next.next? c = if p c then some next else none) :
  stage.reach rest = rest.takeWhile p
  := by
  induction rest generalizing stage with
  | nil => rfl
  | cons c rest ih =>
    rw [reach, hfirst, List.takeWhile_cons]
    by_cases hc : p c
    · simp only [if_pos hc, ih hnext]
    · simp only [if_neg hc]

/-- No digit is a base mark. -/
theorem ofLetter?_of_isDigit (h : c.isDigit) :
  Radix.ofLetter? c = none
  := by
  cases hc : Radix.ofLetter? c with
  | none => rfl
  | some r =>
    rw [← Radix.letter_of_ofLetter? hc] at h
    cases r <;> exact absurd h (by decide)

/-- The stage after decimal digits. -/
def afterDigits (digits : List Char) : Stage :=
  if digits = ['0'] then .zero else .whole

/-- Unless it is a base mark, a character leads to the same stage after a single zero as after other
digits. -/
theorem next?_afterDigits (h : Radix.ofLetter? c = none) :
  (afterDigits text).next? c = afterDigits? c
  := by
  unfold afterDigits
  split
  · simp [next?, h]
  · rfl

theorem next?_afterDigits_of_isDigit (h : c.isDigit) :
  (afterDigits text).next? c = some .whole
  := by rw [next?_afterDigits (ofLetter?_of_isDigit h), afterDigits?, if_pos h]

/-- Decimal digits run through the first stages. -/
theorem run_start (hne : text ≠ []) (h : ∀ c ∈ text, c.isDigit) :
  start.run text = some (afterDigits text)
  := by
  obtain ⟨c, tail, rfl⟩ := List.exists_cons_of_ne_nil hne
  rw [List.forall_mem_cons] at h
  have hfirst : start.next? c = some (afterDigits [c]) := by
    simp only [next?, afterDigits, List.cons.injEq, and_true]
    split
    · rfl
    · rw [if_pos h.1]
  rw [run_cons, hfirst, Option.bind_some]
  cases tail with
  | nil => rfl
  | cons d tail =>
    rw [show afterDigits (c :: d :: tail) = .whole by simp [afterDigits]]
    apply run_of_forall (p := Char.isDigit) _ _ (List.cons_ne_nil _ _) h.2
    · intro c hc
      exact next?_afterDigits_of_isDigit hc
    · intro c hc
      simp [next?, afterDigits?, hc]

/-- After a zero, a base mark and digits of that base run through the stages of the base. -/
theorem run_radix {radix : Radix} (hne : text ≠ []) (h : ∀ c ∈ text, isDigitOf radix c) :
  zero.run (radix.letter :: text) = some (.radix radix)
  := by
  have hletter : zero.next? radix.letter = some (.base radix) := by cases radix <;> rfl
  rw [run_cons, hletter, Option.bind_some]
  apply run_of_forall (p := isDigitOf radix) _ _ hne h
  · intro c hc
    simp [next?, hc]
  · intro c hc
    simp [next?, hc]

/-- Digits after a point are a fraction. -/
theorem run_point (hne : text ≠ []) (h : ∀ c ∈ text, c.isDigit) :
  point.run text = some .fraction
  := by
  apply run_of_forall (p := Char.isDigit) _ _ hne h
  · intro c hc
    simp [next?, hc]
  · intro c hc
    simp [next?, hc]

/-- Digits after the sign of an exponent are those of the exponent. -/
theorem run_sign (hne : text ≠ []) (h : ∀ c ∈ text, c.isDigit) :
  sign.run text = some .exponent
  := by
  apply run_of_forall (p := Char.isDigit) _ _ hne h
  · intro c hc
    simp [next?, hc]
  · intro c hc
    simp [next?, hc]

/-- The digits of an exponent without a sign are reached as those with one. -/
theorem next?_mark (hplus : c ≠ '+') (hminus : c ≠ '-') :
  mark.next? c = sign.next? c
  := by simp [next?, hplus, hminus]

/-- Digits after an exponent mark are those of the exponent, which has no sign then. -/
theorem run_mark (hne : text ≠ []) (h : ∀ c ∈ text, c.isDigit) :
  mark.run text = some .exponent
  := by
  obtain ⟨c, tail, rfl⟩ := List.exists_cons_of_ne_nil hne
  have hc : c.isDigit := h c List.mem_cons_self
  rw [run_cons, next?_mark (ne_of_isDigit hc rfl) (ne_of_isDigit hc rfl), ← run_cons,
    run_sign hne h]

/-- What stops a word after a fraction is neither a digit nor an exponent mark. -/
theorem next?_fraction_eq_none (h : fraction.next? c = none) :
  c.isDigit = false ∧ isExponentMark c = false
  := by
  simp only [next?] at h
  split at h
  · cases h
  split at h
  · cases h
  · simp_all

end Stage

/-! ### Words run through the stages -/

/-- A numeral consists of digits of its base. -/
theorem isDigitOf_of_numeral {radix : Radix} {digits : List Char} {value : Nat}
    (h : Numeral radix.base digits value) :
  ∀ c ∈ digits, isDigitOf radix c
  := Fragment.forall_of_numeral h fun _ _ hc hn => by simp [isDigitOf, hc, hn]

theorem isExponentMark_iff {c : Char} :
  isExponentMark c ↔ c = 'e' ∨ c = 'E'
  := by simp [isExponentMark]

section Runs

variable {text scale digits : List Char} {value places : Nat} {exponent : Int} {c : Char}

/-- Whether an exponent can follow. -/
def Stage.TakesExponent (stage : Stage) : Prop :=
  ∀ c, isExponentMark c → stage.next? c = some .mark

/-- An exponent can follow decimal digits. -/
theorem takesExponent_afterDigits :
  (Stage.afterDigits digits).TakesExponent
  := by
  intro c hc
  rcases isExponentMark_iff.mp hc with rfl | rfl <;> rw [Stage.next?_afterDigits rfl] <;> rfl

/-- An exponent can follow a fraction. -/
theorem takesExponent_fraction :
  Stage.fraction.TakesExponent
  := by
  intro c hc
  rcases isExponentMark_iff.mp hc with rfl | rfl <;> rfl

theorem run_numeral (h : Numeral 10 digits value) :
  Stage.start.run digits = some (.afterDigits digits)
  := Stage.run_start (Fragment.ne_nil_of_numeral h) (Fragment.isDigit_of_numeral h)

theorem run_radixWord {radix : Radix} (h : Numeral radix.base digits value) :
  Stage.start.run ('0' :: radix.letter :: digits) = some (.radix radix)
  := Stage.run_radix (Fragment.ne_nil_of_numeral h) (isDigitOf_of_numeral h)

/-- A mantissa runs to the stage of its fraction, or of its digits if it has none. -/
theorem run_mantissa (h : Mantissa text value places) :
  Stage.start.run text = some (if places = 0 then .afterDigits text else .fraction)
  := by
  cases h with
  | whole h => rw [if_pos rfl, run_numeral h]
  | @point whole fraction _ hwhole hfraction h =>
    obtain ⟨hdigits, hplaces⟩ := List.forall_mem_append.mp (Fragment.isDigit_of_numeral h)
    have hpoint : (Stage.afterDigits whole).next? '.' = some .point := Stage.next?_afterDigits rfl
    rw [if_neg (mt List.length_eq_zero_iff.mp hfraction), Stage.run_append,
      Stage.run_start hwhole hdigits, Option.bind_some, Stage.run_cons, hpoint, Option.bind_some,
      Stage.run_point hfraction hplaces]

/-- An exponent runs to the last stage from wherever it can follow. -/
theorem run_exponent {stage : Stage} (hstage : stage.TakesExponent) (h : Exponent scale exponent) :
  stage.run scale = some .exponent
  := by
  cases h with
  | unsigned hmark h =>
    rw [Stage.run_cons, hstage _ hmark, Option.bind_some,
      Stage.run_mark (Fragment.ne_nil_of_numeral h) (Fragment.isDigit_of_numeral h)]
  | plus hmark h | minus hmark h =>
    rw [Stage.run_cons, hstage _ hmark, Option.bind_some, Stage.run_cons]
    exact Stage.run_sign (Fragment.ne_nil_of_numeral h) (Fragment.isDigit_of_numeral h)

/-- A mantissa with an exponent runs to the last stage. -/
theorem run_scaled (hmantissa : Mantissa text value places) (h : Exponent scale exponent) :
  Stage.start.run (text ++ scale) = some .exponent
  := by
  rw [Stage.run_append, run_mantissa hmantissa, Option.bind_some]
  apply run_exponent _ h
  split
  · exact takesExponent_afterDigits
  · exact takesExponent_fraction

/-- Every word runs through the stages. -/
theorem isSome_run_of_numberWord {d : Meaning} (h : NumberWord text d) :
  (Stage.start.run text).isSome
  := by
  cases h with
  | digits h => rw [run_numeral h, Option.isSome_some]
  | radix h => rw [run_radixWord h, Option.isSome_some]
  | fraction h => rw [run_mantissa h, Option.isSome_some]
  | scaled hmantissa h => rw [run_scaled hmantissa h, Option.isSome_some]

end Runs

/-! ### What is read at a stage -/

/-- A digit of a base has a value below that base. -/
theorem exists_hexValue?_of_isDigitOf {radix : Radix} {c : Char} (h : isDigitOf radix c) :
  ∃ d, Text.hexValue? c = some d ∧ d < radix.base
  := by
  obtain ⟨d, hvalue, hd⟩ := (Option.any_eq_true _ _).mp h
  exact ⟨d, hvalue, of_decide_eq_true hd⟩

section Extend

variable {text scale digits : List Char} {value places : Nat} {exponent : Int} {c : Char}

/-- A decimal numeral with one more digit is a decimal numeral. -/
theorem Numeral.extend (h : Numeral 10 digits value) (hc : c.isDigit) :
  ∃ value, Numeral 10 (digits ++ [c]) value
  := by
  obtain ⟨d, hd, hvalue⟩ := exists_hexValue?_of_isDigit hc
  exact ⟨_, .snoc h hvalue hd⟩

/-- A mantissa that has a fraction goes on with one more digit. -/
theorem Mantissa.extend (h : Mantissa text value places) (hplaces : 0 < places) (hc : c.isDigit) :
  ∃ value, Mantissa (text ++ [c]) value (places + 1)
  := by
  cases h with
  | whole => contradiction
  | @point whole fraction _ hwhole hfraction h =>
    obtain ⟨value, hvalue⟩ := h.extend hc
    rw [List.append_assoc] at hvalue
    have hpoint := Mantissa.point hwhole (List.append_ne_nil_of_left_ne_nil hfraction [c]) hvalue
    rw [List.length_append] at hpoint
    exact ⟨value, by simpa using hpoint⟩

/-- An exponent goes on with one more digit. -/
theorem Exponent.extend (h : Exponent scale exponent) (hc : c.isDigit) :
  ∃ exponent, Exponent (scale ++ [c]) exponent
  := by
  cases h with
  | unsigned hmark h =>
    obtain ⟨value, hvalue⟩ := h.extend hc
    exact ⟨value, .unsigned hmark hvalue⟩
  | plus hmark h =>
    obtain ⟨value, hvalue⟩ := h.extend hc
    exact ⟨value, .plus hmark hvalue⟩
  | minus hmark h =>
    obtain ⟨value, hvalue⟩ := h.extend hc
    exact ⟨-value, .minus hmark hvalue⟩

end Extend

namespace Stage

/-- The texts that lead to a stage. -/
def Reads : Stage → List Char → Prop
  | .start, text => text = []
  | .zero, text => text = ['0']
  | .whole, text => ∃ value, Numeral 10 text value
  | .base r, text => text = ['0', r.letter]
  | .radix r, text => ∃ digits value, Numeral r.base digits value ∧ text = '0' :: r.letter :: digits
  | .point, text => ∃ whole value, Numeral 10 whole value ∧ text = whole ++ ['.']
  | .fraction, text => ∃ value places, Mantissa text value places ∧ 0 < places
  | .mark, text => ∃ front value places c, Mantissa front value places ∧ isExponentMark c ∧
      text = front ++ [c]
  | .sign, text => ∃ front value places c s, Mantissa front value places ∧ isExponentMark c ∧
      (s = '+' ∨ s = '-') ∧ text = front ++ [c, s]
  | .exponent, text => ∃ front value places scale exponent, Mantissa front value places ∧
      Exponent scale exponent ∧ text = front ++ scale

variable {stage next : Stage} {text : List Char} {c : Char}

theorem numeral_zero :
  Numeral 10 ['0'] 0
  := .digit rfl (by decide)

/-- Decimal digits with one more character. -/
theorem Reads.afterDigits? {value : Nat} (h : Numeral 10 text value)
    (hnext : Stage.afterDigits? c = some next) :
  next.Reads (text ++ [c])
  := by
  unfold Stage.afterDigits? at hnext
  split at hnext
  · rename_i hc
    obtain rfl := Option.some.inj hnext
    exact h.extend hc
  split at hnext
  · rename_i hc
    obtain rfl := Option.some.inj hnext
    exact ⟨text, value, h, by rw [hc]⟩
  split at hnext
  · rename_i hc
    obtain rfl := Option.some.inj hnext
    exact ⟨text, value, 0, c, .whole h, hc, rfl⟩
  · cases hnext

/-- A text that is read at a stage, with a character that leads to the next stage, is read there. -/
theorem Reads.step (h : stage.Reads text) (hnext : stage.next? c = some next) :
  next.Reads (text ++ [c])
  := by
  cases stage with
  | start =>
    obtain rfl := h
    simp only [next?] at hnext
    split at hnext
    · rename_i hc
      obtain rfl := Option.some.inj hnext
      rw [hc]
      rfl
    · obtain ⟨hc, hnext⟩ := Option.ite_none_right_eq_some.mp hnext
      obtain rfl := Option.some.inj hnext
      obtain ⟨d, hd, hvalue⟩ := exists_hexValue?_of_isDigit hc
      exact ⟨d, .digit hvalue hd⟩
  | zero =>
    obtain rfl := h
    rcases Option.or_eq_some_iff.mp hnext with hmark | ⟨-, hnext⟩
    · obtain ⟨r, hr, rfl⟩ := Option.map_eq_some_iff.mp hmark
      rw [← Radix.letter_of_ofLetter? hr]
      rfl
    · exact .afterDigits? numeral_zero hnext
  | whole =>
    obtain ⟨value, h⟩ := h
    exact .afterDigits? h hnext
  | base r =>
    obtain rfl := h
    obtain ⟨hc, hnext⟩ := Option.ite_none_right_eq_some.mp hnext
    obtain rfl := Option.some.inj hnext
    obtain ⟨d, hvalue, hd⟩ := exists_hexValue?_of_isDigitOf hc
    exact ⟨[c], d, .digit hvalue hd, rfl⟩
  | radix r =>
    obtain ⟨digits, value, h, rfl⟩ := h
    obtain ⟨hc, hnext⟩ := Option.ite_none_right_eq_some.mp hnext
    obtain rfl := Option.some.inj hnext
    obtain ⟨d, hvalue, hd⟩ := exists_hexValue?_of_isDigitOf hc
    exact ⟨digits ++ [c], _, .snoc h hvalue hd, rfl⟩
  | point =>
    obtain ⟨whole, value, h, rfl⟩ := h
    obtain ⟨hc, hnext⟩ := Option.ite_none_right_eq_some.mp hnext
    obtain rfl := Option.some.inj hnext
    obtain ⟨value, hvalue⟩ := h.extend hc
    refine ⟨value, 1, ?_, Nat.one_pos⟩
    rw [List.append_assoc]
    exact .point (Fragment.ne_nil_of_numeral h) (List.cons_ne_nil _ _) hvalue
  | fraction =>
    obtain ⟨value, places, h, hplaces⟩ := h
    simp only [next?] at hnext
    split at hnext
    · rename_i hc
      obtain rfl := Option.some.inj hnext
      obtain ⟨value, h⟩ := h.extend hplaces hc
      exact ⟨value, places + 1, h, Nat.succ_pos _⟩
    · obtain ⟨hc, hnext⟩ := Option.ite_none_right_eq_some.mp hnext
      obtain rfl := Option.some.inj hnext
      exact ⟨text, value, places, c, h, hc, rfl⟩
  | mark =>
    obtain ⟨front, value, places, mark, h, hmark, rfl⟩ := h
    simp only [next?] at hnext
    split at hnext
    · rename_i hc
      obtain rfl := Option.some.inj hnext
      exact ⟨front, value, places, mark, c, h, hmark, hc, List.append_assoc ..⟩
    · obtain ⟨hc, hnext⟩ := Option.ite_none_right_eq_some.mp hnext
      obtain rfl := Option.some.inj hnext
      obtain ⟨d, hd, hvalue⟩ := exists_hexValue?_of_isDigit hc
      exact ⟨front, value, places, [mark, c], d, h, .unsigned hmark (.digit hvalue hd),
        List.append_assoc ..⟩
  | sign =>
    obtain ⟨front, value, places, mark, s, h, hmark, hs, rfl⟩ := h
    obtain ⟨hc, hnext⟩ := Option.ite_none_right_eq_some.mp hnext
    obtain rfl := Option.some.inj hnext
    obtain ⟨d, hd, hvalue⟩ := exists_hexValue?_of_isDigit hc
    rcases hs with rfl | rfl
    · exact ⟨front, value, places, [mark, '+', c], d, h, .plus hmark (.digit hvalue hd),
        List.append_assoc ..⟩
    · exact ⟨front, value, places, [mark, '-', c], -d, h, .minus hmark (.digit hvalue hd),
        List.append_assoc ..⟩
  | exponent =>
    obtain ⟨front, value, places, scale, exponent, hfront, h, rfl⟩ := h
    obtain ⟨hc, hnext⟩ := Option.ite_none_right_eq_some.mp hnext
    obtain rfl := Option.some.inj hnext
    obtain ⟨exponent, h⟩ := h.extend hc
    exact ⟨front, value, places, scale ++ [c], exponent, hfront, h, List.append_assoc ..⟩

/-- A text that leads to a stage is one of those that are read there. -/
theorem Reads.run (h : start.run text = some stage) :
  stage.Reads text
  := by
  -- the last character is read at the stage to which those before it lead
  induction text using List.reverseRecOn generalizing stage with
  | nil =>
    obtain rfl := Option.some.inj h
    rfl
  | append_singleton text c ih =>
    rw [run_append] at h
    obtain ⟨last, hlast, hc⟩ := Option.bind_eq_some_iff.mp h
    rw [run_cons] at hc
    obtain ⟨next, hnext, hrun⟩ := Option.bind_eq_some_iff.mp hc
    obtain rfl := Option.some.inj hrun
    exact (ih hlast).step hnext

/-- At every stage a word can be completed, by a zero if it is none yet. -/
theorem Reads.beginsWord (h : stage.Reads text) :
  BeginsWord text
  := by
  cases stage with
  | start =>
    obtain rfl := h
    exact ⟨['0'], _, .digits numeral_zero⟩
  | zero =>
    obtain rfl := h
    exact ⟨[], _, .digits numeral_zero⟩
  | whole =>
    obtain ⟨value, h⟩ := h
    exact ⟨[], _, by simpa using .digits h⟩
  | base r =>
    obtain rfl := h
    exact ⟨['0'], _, .radix (.digit rfl (by cases r <;> decide))⟩
  | radix r =>
    obtain ⟨digits, value, h, rfl⟩ := h
    exact ⟨[], _, by simpa using .radix h⟩
  | point =>
    obtain ⟨whole, value, h, rfl⟩ := h
    obtain ⟨value, hvalue⟩ := h.extend (c := '0') rfl
    have hpoint : Mantissa (whole ++ ['.', '0']) value 1 :=
      .point (Fragment.ne_nil_of_numeral h) (List.cons_ne_nil _ _) hvalue
    exact ⟨['0'], _, by simpa using .fraction hpoint Nat.one_pos⟩
  | fraction =>
    obtain ⟨value, places, h, hplaces⟩ := h
    exact ⟨[], _, by simpa using .fraction h hplaces⟩
  | mark =>
    obtain ⟨front, value, places, mark, h, hmark, rfl⟩ := h
    exact ⟨['0'], _, by simpa using .scaled h (.unsigned hmark numeral_zero)⟩
  | sign =>
    obtain ⟨front, value, places, mark, s, h, hmark, rfl | rfl, rfl⟩ := h
    · exact ⟨['0'], _, by simpa using .scaled h (.plus hmark numeral_zero)⟩
    · exact ⟨['0'], _, by simpa using .scaled h (.minus hmark numeral_zero)⟩
  | exponent =>
    obtain ⟨front, value, places, scale, exponent, hfront, h, rfl⟩ := h
    exact ⟨[], _, by simpa using .scaled hfront h⟩

end Stage

/-- The texts that words begin with are those that run through the stages. -/
theorem beginsWord_iff {text : List Char} :
  BeginsWord text ↔ (Stage.start.run text).isSome
  := by
  constructor
  · rintro ⟨more, d, h⟩
    have hrun := isSome_run_of_numberWord h
    rw [Stage.run_append] at hrun
    exact Option.isSome_of_isSome_bind hrun
  · intro h
    obtain ⟨stage, hstage⟩ := Option.isSome_iff_exists.mp h
    exact (Stage.Reads.run hstage).beginsWord

/-- The longest match in a text is what is reached of it. -/
theorem longestMatch_iff {text read : List Char} :
  LongestMatch text read ↔ read = Stage.start.reach text
  := by
  have hreach : Stage.start.reach text <+: text := Stage.reach_isPrefix ..
  have hbegins : BeginsWord (Stage.start.reach text) := by
    rw [beginsWord_iff, Stage.isSome_run_iff hreach]
  constructor
  · intro h
    have hread := (Stage.isSome_run_iff h.front).mp (beginsWord_iff.mp h.begins)
    exact hread.eq_of_length_le (h.longest _ hreach hbegins)
  · rintro rfl
    refine ⟨hreach, hbegins, ?_⟩
    intro other hother h
    exact ((Stage.isSome_run_iff hother).mp (beginsWord_iff.mp h)).length_le

end Token

end SilFront
