import Mathlib.Data.List.Induction
import SilFront.Token.Stream
import SilFront.Proofs.Sequences

/-!
# The lexical grammar

Which characters spell a token, and which may stand between tokens, said without any reader:
`Filler` is the grammar of blanks and comments, `Token.SpelledBy` that of lexemes, which also tells
the token that a lexeme denotes. The readers keep to it: what `Gap.of` takes is filler
(`Filler.of_gap`), and the characters that `Token.scan` uses spell the token that it answers with
(`Token.spelledBy_of_scan`).

The grammar alone does not tell how a text is cut, since `ab` might be read as two identifiers. What
it leaves open is settled by `Token.Separated`: a word and the beginning of a longer mark end where
they cannot be continued.
-/

namespace SilFront

/-! ### Blanks and comments -/

/-- Blanks and comments. Only at the end of a text, which is what `final` says, a line comment need
not have a newline. A block comment ends at the first mark that may close it. -/
inductive Filler (final : Prop) : List Char → Prop where
  | nil : Filler final []
  | blank {c : Char} {rest : List Char} :
    isBlank c → Filler final rest → Filler final (c :: rest)
  | line {body rest : List Char} :
    body.head? ≠ some '#' → '\n' ∉ body → Filler final rest →
    Filler final ('#' :: (body ++ '\n' :: rest))
  | lastLine {body : List Char} :
    final → body.head? ≠ some '#' → '\n' ∉ body → Filler final ('#' :: body)
  | block {body rest : List Char} :
    ¬ ['#', '#'] <:+: body ++ ['#'] → Filler final rest →
    Filler final ('#' :: '#' :: (body ++ '#' :: '#' :: rest))

namespace Token

/-! ### Numbers -/

/-- Digits of a base, with the number that they denote in it. -/
inductive Numeral (base : Nat) : List Char → Nat → Prop where
  | digit {c : Char} {d : Nat} : Text.hexValue? c = some d → d < base → Numeral base [c] d
  | snoc {digits : List Char} {value : Nat} {c : Char} {d : Nat} :
    Numeral base digits value → Text.hexValue? c = some d → d < base →
    Numeral base (digits ++ [c]) (value * base + d)

/-- Decimal digits with or without a point among them, the number that they denote without it, and
how many of them stand after it. -/
inductive Mantissa : List Char → Nat → Nat → Prop where
  | whole {digits : List Char} {value : Nat} : Numeral 10 digits value → Mantissa digits value 0
  | point {whole fraction : List Char} {value : Nat} :
    whole ≠ [] → fraction ≠ [] → Numeral 10 (whole ++ fraction) value →
    Mantissa (whole ++ '.' :: fraction) value fraction.length

/-- An exponent with its mark, and the power of ten that it denotes. -/
inductive Exponent : List Char → Int → Prop where
  | unsigned {mark : Char} {digits : List Char} {value : Nat} :
    isExponentMark mark → Numeral 10 digits value → Exponent (mark :: digits) value
  | plus {mark : Char} {digits : List Char} {value : Nat} :
    isExponentMark mark → Numeral 10 digits value → Exponent (mark :: '+' :: digits) value
  | minus {mark : Char} {digits : List Char} {value : Nat} :
    isExponentMark mark → Numeral 10 digits value → Exponent (mark :: '-' :: digits) (-value)

/-! ### Strings -/

/-- The characters between the quotes of a string, and those that they stand for. -/
inductive StringBody : List Char → List Char → Prop where
  | nil : StringBody [] []
  | printable {c : Char} {body contents : List Char} :
    Text.isPrintable c → c ≠ '"' → c ≠ '\\' → StringBody body contents →
    StringBody (c :: body) (c :: contents)
  | escape {letter c : Char} {body contents : List Char} :
    Text.Quoted.decodeLetter? letter = some c → StringBody body contents →
    StringBody ('\\' :: letter :: body) (c :: contents)
  | hex {high low : Char} {h l : Nat} {body contents : List Char} :
    Text.hexValue? high = some h → Text.hexValue? low = some l → StringBody body contents →
    StringBody ('\\' :: 'x' :: high :: low :: body) (Char.ofNat (16 * h + l) :: contents)

/-! ### Lexemes -/

/-- A token and a lexeme that denotes it. -/
inductive SpelledBy : Token → List Char → Prop where
  | keyword (k : Keyword) : SpelledBy (.keyword k) k.text.toList
  | ident {first : Char} {tail : List Char} :
    isWordStart first → (∀ c ∈ tail, isWordPart c) →
    (∀ k : Keyword, k.text ≠ String.ofList (first :: tail)) →
    SpelledBy (.ident (String.ofList (first :: tail))) (first :: tail)
  | mark (m : Mark) : SpelledBy (.mark m) m.text.toList
  | decimal {digits : List Char} {n : Int64} {value : Nat} :
    Numeral 10 digits value → n.toInt = value → SpelledBy (.number (.int n)) digits
  | radix {radix : Radix} {digits : List Char} {n : Int64} {value : Nat} :
    Numeral radix.base digits value → n.toInt = value →
    SpelledBy (.number (.int n)) ('0' :: radix.letter :: digits)
  | fraction {text : List Char} {value places : Nat} :
    Mantissa text value places → 0 < places → Decimal.isFinite (decimalFloat value (-places)) →
    SpelledBy (.number (.float (decimalFloat value (-places)))) text
  | scaled {text scale : List Char} {value places : Nat} {exponent : Int} :
    Mantissa text value places → Exponent scale exponent →
    Decimal.isFinite (decimalFloat value (exponent - places)) →
    SpelledBy (.number (.float (decimalFloat value (exponent - places)))) (text ++ scale)
  | string {body contents : List Char} :
    StringBody body contents →
    SpelledBy (.string (String.ofList contents)) ('"' :: (body ++ ['"']))

/-- The spelling of a token that is an identifier or a keyword. -/
def word? : Token → Option String
  | .ident name => some name
  | .keyword k => some k.text
  | _ => none

/-- A token is not continued by the text after it: no character of a word follows a word, and no
equals sign follows a mark that would be another one with it. -/
structure Separated (token : Token) (rest : List Char) : Prop where
  word : token.word?.isSome → ∀ c ∈ rest.head?, isWordPart c = false
  equals : token ∈ [Token.mark .eq, .mark .lt, .mark .gt] → rest.head? ≠ some '='

end Token

/-! ### Gaps are filler -/

namespace Filler

variable {final : Prop}

/-- The rest of a line comment, and filler after it. -/
inductive InLine (final : Prop) : List Char → Prop where
  | closed {body rest : List Char} :
    '\n' ∉ body → Filler final rest → InLine final (body ++ '\n' :: rest)
  | last {body : List Char} : final → '\n' ∉ body → InLine final body

/-- The rest of a block comment, and filler after it. -/
inductive InBlock (final : Prop) : List Char → Prop where
  | closed {body rest : List Char} :
    ¬ ['#', '#'] <:+: body ++ ['#'] → Filler final rest →
    InBlock final (body ++ '#' :: '#' :: rest)

/-- What the reader of a gap takes from a place on. -/
def From (final : Prop) : Gap.Place → List Char → Prop
  | .blank => Filler final
  | .line => InLine final
  | .block _ => InBlock final

/-- A line comment goes on with any character but a newline. -/
theorem InLine.cons {c : Char} {text : List Char} (hc : c ≠ '\n') (h : InLine final text) :
  InLine final (c :: text)
  := by
  induction h with
  | closed hbody hrest =>
    rw [← List.cons_append]
    apply InLine.closed _ hrest
    simp [hbody, Ne.symm hc]
  | last hfinal hbody =>
    apply InLine.last hfinal
    simp [hbody, Ne.symm hc]

/-- A single comment mark begins a line comment. -/
theorem InLine.filler {text : List Char} (h : InLine final text) (hhead : text.head? ≠ some '#') :
  Filler final ('#' :: text)
  := by
  induction h with
  | @closed body rest hbody hrest =>
    apply Filler.line _ hbody hrest
    cases body with
    | nil => simp
    | cons => simpa using hhead
  | last hfinal hbody => apply Filler.lastLine hfinal hhead hbody

/-- Two comment marks begin a block comment. -/
theorem InBlock.filler {text : List Char} (h : InBlock final text) :
  Filler final ('#' :: '#' :: text)
  := by
  induction h with
  | closed hbody hrest => apply Filler.block hbody hrest

/-- A block comment goes on with what does not close it. -/
theorem InBlock.cons {c : Char} {text : List Char} (hc : c = '#' → text.head? ≠ some '#')
    (h : InBlock final text) :
  InBlock final (c :: text)
  := by
  induction h with
  | @closed body rest hbody hrest =>
    rw [← List.cons_append]
    apply InBlock.closed _ hrest
    rw [List.cons_append, List.infix_cons_iff, List.cons_prefix_cons]
    rintro (⟨rfl, hprefix⟩ | hinfix)
    · apply hc rfl
      cases body with
      | nil => rfl
      | cons => simpa [eq_comm] using hprefix
    · apply hbody hinfix

/-- A text that is cut short begins with a character only if the whole of it does. -/
theorem head?_take_ne {c : Char} {text : List Char} (h : ∀ rest, text ≠ c :: rest) (n : Nat) :
  (text.take n).head? ≠ some c
  := by
  intro hhead
  rw [List.head?_take] at hhead
  split at hhead
  · cases hhead
  · obtain ⟨rest, hrest⟩ := List.head?_eq_some_iff.mp hhead
    apply h rest hrest

/-- A gap that is not left open, read from a place on. -/
theorem from_scan {place : Gap.Place} {text : List Char}
    (hclosed : (Gap.scan place text).unclosed = none)
    (hfinal : text.drop (Gap.scan place text).length = [] → final) :
  From final place (text.take (Gap.scan place text).length)
  := by
  -- Each character that is read is put before what is taken after it.
  fun_induction Gap.scan place text with
  | case1 rest ih =>
    simp only [Gap.after, Nat.add_comm 2, List.take_succ_cons, List.drop_succ_cons] at hfinal ⊢
    apply (ih hclosed hfinal).filler
  | case2 rest hrest ih =>
    simp only [Gap.after, Nat.add_comm 1, List.take_succ_cons, List.drop_succ_cons] at hfinal ⊢
    apply (ih hclosed hfinal).filler (head?_take_ne hrest _)
  | case3 c rest _ _ hblank ih =>
    simp only [Gap.after, Nat.add_comm 1, List.take_succ_cons, List.drop_succ_cons] at hfinal ⊢
    apply Filler.blank hblank (ih hclosed hfinal)
  | case4 => apply Filler.nil
  | case5 c rest ih =>
    simp only [Gap.after, Nat.add_comm 1, List.take_succ_cons, List.drop_succ_cons] at hfinal ⊢
    have htail := ih hclosed hfinal
    by_cases hc : c = '\n'
    · subst hc
      apply @InLine.closed final [] _ List.not_mem_nil htail
    · rw [if_neg hc] at htail ⊢
      apply InLine.cons hc htail
  | case6 n rest ih =>
    simp only [Gap.after, Nat.add_comm 2, List.take_succ_cons, List.drop_succ_cons] at hfinal ⊢
    apply @InBlock.closed final [] _ (by decide) (ih hclosed hfinal)
  | case7 n c rest hc ih =>
    simp only [Gap.after, Nat.add_comm 1, List.take_succ_cons, List.drop_succ_cons] at hfinal ⊢
    apply InBlock.cons _ (ih hclosed hfinal)
    intro hhash
    apply head?_take_ne fun rest' => hc rest' hhash
  | case8 => cases hclosed
  | case9 place hplace =>
    cases place with
    | blank => apply Filler.nil
    | line => apply InLine.last (hfinal rfl) List.not_mem_nil
    | block n => cases hplace n rfl

/-- The gap at the beginning of a text is filler, if it is not left open. -/
theorem of_gap {text : List Char} (hclosed : (Gap.of text).unclosed = none)
    (hfinal : text.drop (Gap.of text).length = [] → final) :
  Filler final (text.take (Gap.of text).length)
  := from_scan hclosed hfinal

end Filler

/-- A result that is made into another is read exactly if it is read. -/
theorem Scan.result_map_eq_ok_iff {α β : Type} {f : α → β} {s : Scan α} {b : β} :
  (s.map f).result = .ok b ↔ ∃ a, s.result = .ok a ∧ f a = b
  := by
  obtain ⟨used, result⟩ := s
  cases result <;> simp [Scan.map, Except.map]

/-- A base is told by its letter. -/
theorem Radix.letter_of_ofLetter? {c : Char} {radix : Radix} (h : ofLetter? c = some radix) :
  radix.letter = c
  := by
  unfold ofLetter? at h
  split at h <;> cases h <;> rfl

namespace Token

/-! ### Words and marks -/

/-- The letters are those of two ranges of codes. -/
theorem isAlpha_iff (c : Char) :
  c.isAlpha ↔ 65 ≤ c.val ∧ c.val ≤ 90 ∨ 97 ≤ c.val ∧ c.val ≤ 122
  := by
  change (decide (65 ≤ c.val ∧ c.val ≤ 90) || (decide (97 ≤ c.val) && decide (c.val ≤ 122))) ↔ _
  simp

/-- No word begins with a digit. -/
theorem isWordStart_of_isDigit {c : Char} (h : c.isDigit) :
  isWordStart c = false
  := by
  rw [isWordStart, Bool.or_eq_false_iff, beq_eq_false_iff_ne]
  constructor
  · rw [Bool.eq_false_iff, Ne, isAlpha_iff]
    simp only [Char.isDigit] at h
    grind
  · rintro rfl
    cases h

/-- What a word begins with can also go on with it. -/
theorem isWordPart_of_isWordStart {c : Char} (h : isWordStart c) :
  isWordPart c
  := by
  simp only [isWordStart, isWordPart, Char.isAlphanum] at h ⊢
  grind

/-- A word spells what it is taken for, be it a keyword or a name. -/
theorem spelledBy_ofWord {first : Char} {tail : List Char} (hfirst : isWordStart first)
    (htail : ∀ c ∈ tail, isWordPart c) :
  (ofWord (String.ofList (first :: tail))).SpelledBy (first :: tail)
  := by
  unfold ofWord
  split
  · rename_i k hk
    have htext : k.text = String.ofList (first :: tail) := by simpa using List.find?_some hk
    rw [← String.toList_ofList (l := first :: tail), ← htext]
    apply SpelledBy.keyword
  · rename_i hnone
    apply SpelledBy.ident hfirst htail
    intro k
    have hall : k ∈ Keyword.all := by cases k <;> decide
    simpa using List.find?_eq_none.mp hnone k hall

/-- What is read from the beginning of a word on is spelled by a word, which nothing after it goes
on with. -/
theorem spelledBy_of_scanWord {first : Char} {rest : List Char} {token : Token}
    (hfirst : isWordStart first) (h : (scanWord first rest).result = .ok token) :
  token.SpelledBy (first :: rest.take (scanWord first rest).used) ∧
    token.Separated (rest.drop (scanWord first rest).used)
  := by
  obtain rfl := Except.ok.inj h
  simp only [scanWord, Scan.done, take_length_takeWhile, drop_length_takeWhile]
  constructor
  · apply spelledBy_ofWord hfirst
    intro c hc
    apply List.mem_takeWhile_imp hc
  · constructor
    · intro _ c hc
      apply eq_false_of_mem_head?_dropWhile hc
    · unfold ofWord
      split <;> simp

/-- A mark is spelled by its text, where it is not the beginning of a longer mark. -/
theorem spelledBy_mark {m : Mark} {first : Char} {rest : List Char} {n : Nat}
    (htext : m.text.toList = first :: rest.take n)
    (hequals : m ∈ [Mark.eq, .lt, .gt] → (rest.drop n).head? ≠ some '=') :
  (Token.mark m).SpelledBy (first :: rest.take n) ∧ (Token.mark m).Separated (rest.drop n)
  := by
  constructor
  · rw [← htext]
    apply SpelledBy.mark
  · constructor
    · simp [word?]
    · simpa using hequals

/-- Of a mark with and without an equals sign after it, the one that stands there is read. -/
theorem spelledBy_of_scanEquals {short long : Mark} {first : Char} {rest : List Char}
    {token : Token} (hshort : short.text.toList = [first]) (hlong : long.text.toList = [first, '='])
    (hmark : long ∉ [Mark.eq, .lt, .gt]) (h : (scanEquals short long rest).result = .ok token) :
  token.SpelledBy (first :: rest.take (scanEquals short long rest).used) ∧
    token.Separated (rest.drop (scanEquals short long rest).used)
  := by
  revert h
  fun_cases scanEquals short long rest with
  | case1 rest =>
    intro h
    obtain rfl := Except.ok.inj h
    apply spelledBy_mark hlong
    intro hmem
    contradiction
  | case2 _ hne =>
    intro h
    obtain rfl := Except.ok.inj h
    apply spelledBy_mark hshort
    intro _ hhead
    obtain ⟨rest', rfl⟩ := List.head?_eq_some_iff.mp hhead
    apply hne rest' rfl

/-- What is read as a mark is spelled by that mark, and is no beginning of a longer one. -/
theorem spelledBy_of_scanMark {first : Char} {rest : List Char} {token : Token}
    (h : (scanMark first rest).result = .ok token) :
  token.SpelledBy (first :: rest.take (scanMark first rest).used) ∧
    token.Separated (rest.drop (scanMark first rest).used)
  := by
  revert h
  fun_cases scanMark first rest <;> intro h
  -- The marks that a longer one begins with, and then those that stand for themselves.
  case case1 | case2 | case3 => apply spelledBy_of_scanEquals rfl rfl (by decide) h
  all_goals first
    | cases h
      done
    | obtain rfl := Except.ok.inj h
      apply spelledBy_mark rfl (by simp)

/-! ### Strings -/

/-- What is read up to the closing quote spells the contents of a string. -/
theorem stringBody_of_scanString {rest contents : List Char}
    (h : (scanString rest).result = .ok contents) :
  ∃ body, rest.take (scanString rest).used = body ++ ['"'] ∧ StringBody body contents
  := by
  fun_induction scanString rest generalizing contents with
  | case2 rest =>
    obtain rfl := Except.ok.inj h
    use []
    exact ⟨rfl, .nil⟩
  | case4 high low rest high' low' hlow hhigh _ ih =>
    obtain ⟨contents, hrest, rfl⟩ := Scan.result_map_eq_ok_iff.mp h
    obtain ⟨body, htake, hbody⟩ := ih hrest
    use '\\' :: 'x' :: high :: low :: body
    simp only [Scan.after, Scan.map, Nat.add_comm 4, List.take_succ_cons, htake]
    exact ⟨rfl, .hex hhigh hlow hbody⟩
  | case9 letter rest _ c hc _ ih =>
    obtain ⟨contents, hrest, rfl⟩ := Scan.result_map_eq_ok_iff.mp h
    obtain ⟨body, htake, hbody⟩ := ih hrest
    use '\\' :: letter :: body
    simp only [Scan.after, Scan.map, Nat.add_comm 2, List.take_succ_cons, htake]
    exact ⟨rfl, .escape hc hbody⟩
  | case11 c rest hquote hescape hprintable ih =>
    obtain ⟨contents, hrest, rfl⟩ := Scan.result_map_eq_ok_iff.mp h
    obtain ⟨body, htake, hbody⟩ := ih hrest
    use c :: body
    simp only [Scan.after, Scan.map, Nat.add_comm 1, List.take_succ_cons, htake]
    exact ⟨rfl, .printable hprintable hquote hescape hbody⟩
  | _ => cases h

/-! ### Digits -/

/-- A decimal digit has a value below ten. -/
theorem exists_hexValue?_of_isDigit {c : Char} (h : c.isDigit) :
  ∃ d < 10, Text.hexValue? c = some d
  := by
  use c.toNat - '0'.toNat
  constructor
  · simp only [Char.isDigit, Bool.and_eq_true, decide_eq_true_eq] at h
    have hupper : c.toNat ≤ 57 := h.2
    change c.toNat - 48 < 10
    omega
  · rw [Text.hexValue?, if_pos h]

/-- Digits of a base, at least one, are a numeral for their value. -/
theorem numeral_digitsValue {base : Nat} {digits : List Char} (hne : digits ≠ [])
    (hdigits : ∀ c ∈ digits, ∃ d < base, Text.hexValue? c = some d) :
  Numeral base digits (digitsValue base digits)
  := by
  induction digits using List.reverseRecOn with
  | nil => contradiction
  | append_singleton digits c ih =>
    obtain ⟨d, hd, hc⟩ := hdigits c (by simp)
    have hvalue : digitsValue base (digits ++ [c]) = digitsValue base digits * base + d := by
      simp [digitsValue, hc]
    by_cases hnil : digits = []
    · subst hnil
      simpa [digitsValue, hc] using Numeral.digit hc hd
    · rw [hvalue]
      apply Numeral.snoc _ hc hd
      apply ih hnil
      intro c hc
      apply hdigits c (List.mem_append_left _ hc)

/-- As many digits as there are at the beginning of a text are a numeral for their value. -/
theorem numeral_takeWhile_isDigit {rest : List Char} (hne : rest.takeWhile Char.isDigit ≠ []) :
  Numeral 10 (rest.takeWhile Char.isDigit) (digitsValue 10 (rest.takeWhile Char.isDigit))
  := by
  apply numeral_digitsValue hne
  intro c hc
  apply exists_hexValue?_of_isDigit (List.mem_takeWhile_imp hc)

/-! ### Integers -/

/-- An integer of 64 bits is made of the number that it is. -/
theorem toInt_of_int64? {value : Nat} {n : Int64} (h : int64? value = some n) :
  n.toInt = value
  := by
  unfold int64? at h
  split at h
  · rename_i hvalue
    obtain rfl := Option.some.inj h
    apply Int64.toInt_ofNat_of_lt hvalue
  · cases h

/-- What is read after a base mark is spelled by the zero, the mark and the digits. -/
theorem spelledBy_of_scanRadix {radix : Radix} {rest : List Char} {number : Number}
    (h : (scanRadix radix rest).result = .ok number) :
  (Token.number number).SpelledBy
    ('0' :: radix.letter :: rest.take (scanRadix radix rest).used)
  := by
  revert h
  fun_cases scanRadix radix rest with
  | case1 => rintro ⟨⟩
  | case2 digits hne n hn =>
    intro h
    obtain rfl := Except.ok.inj h
    simp only [Scan.done, digits, take_length_takeWhile]
    apply SpelledBy.radix _ (toInt_of_int64? hn)
    apply numeral_digitsValue (mt List.isEmpty_iff.mpr hne)
    intro c hc
    have hdigit : isDigitOf radix c := List.mem_takeWhile_imp hc
    obtain ⟨d, hd, hlt⟩ := (Option.any_eq_true _ _).mp hdigit
    exact ⟨d, of_decide_eq_true hlt, hd⟩
  | case3 => rintro ⟨⟩

/-- What is read as decimal digits is spelled by them. -/
theorem spelledBy_of_scanDecimal {whole : List Char} {number : Number}
    (hwhole : Numeral 10 whole (digitsValue 10 whole))
    (h : (scanDecimal whole).result = .ok number) :
  (Token.number number).SpelledBy whole ∧ (scanDecimal whole).used = whole.length - 1
  := by
  revert h
  fun_cases scanDecimal whole with
  | case1 n hn =>
    intro h
    obtain rfl := Except.ok.inj h
    exact ⟨.decimal hwhole (toInt_of_int64? hn), rfl⟩
  | case2 => rintro ⟨⟩

/-! ### Floating point numbers -/

/-- What is read as the digits of an exponent is a numeral for its absolute value. -/
theorem numeral_of_scanExponentDigits {sign exponent : Int} {rest : List Char}
    (h : (scanExponentDigits sign rest).result = .ok exponent) :
  ∃ value : Nat, Numeral 10 (rest.take (scanExponentDigits sign rest).used) value ∧
    exponent = sign * value
  := by
  revert h
  fun_cases scanExponentDigits sign rest with
  | case1 => rintro ⟨⟩
  | case2 digits hne =>
    intro h
    obtain rfl := Except.ok.inj h
    simp only [Scan.done, digits, take_length_takeWhile]
    exact ⟨_, numeral_takeWhile_isDigit (mt List.isEmpty_iff.mpr hne), rfl⟩

/-- What is read after an exponent mark is an exponent with that mark. -/
theorem exponent_of_scanExponent {mark : Char} {exponent : Int} {rest : List Char}
    (hmark : isExponentMark mark) (h : (scanExponent rest).result = .ok exponent) :
  Exponent (mark :: rest.take (scanExponent rest).used) exponent
  := by
  revert h
  fun_cases scanExponent rest with
  | case1 rest =>
    intro h
    obtain ⟨value, hvalue, rfl⟩ := numeral_of_scanExponentDigits h
    simp only [Scan.after, Nat.add_comm 1, List.take_succ_cons, Int.one_mul]
    apply Exponent.plus hmark hvalue
  | case2 rest =>
    intro h
    obtain ⟨value, hvalue, rfl⟩ := numeral_of_scanExponentDigits h
    simp only [Scan.after, Nat.add_comm 1, List.take_succ_cons, Int.neg_mul, Int.one_mul]
    apply Exponent.minus hmark hvalue
  | case3 =>
    intro h
    obtain ⟨value, hvalue, rfl⟩ := numeral_of_scanExponentDigits h
    rw [Int.one_mul]
    apply Exponent.unsigned hmark hvalue

/-- After the digits of a floating point number, which may have a point among them, stands an
exponent or nothing. -/
theorem spelledBy_of_scanScale {whole fraction text rest : List Char} {x : Float}
    (hmantissa : Mantissa text (digitsValue 10 (whole ++ fraction)) fraction.length)
    (hscale : fraction ≠ [] ∨ ∃ c ∈ rest.head?, isExponentMark c) (hfinite : Decimal.isFinite x)
    (h : (scanScale whole fraction rest).result = .ok x) :
  (Token.number (.float x)).SpelledBy (text ++ rest.take (scanScale whole fraction rest).used)
  := by
  have hfraction (hne : fraction ≠ []) (hx : floatOf whole fraction 0 = x) :
      (Token.number (.float x)).SpelledBy text := by
    obtain rfl := hx
    rw [floatOf, Int.zero_sub] at hfinite ⊢
    apply SpelledBy.fraction hmantissa (List.length_pos_iff.mpr hne) hfinite
  revert h
  fun_cases scanScale whole fraction rest with
  | case1 =>
    intro h
    simpa using hfraction (by simpa using hscale) (Except.ok.inj h)
  | case2 mark rest hmark =>
    intro h
    obtain ⟨exponent, hexponent, rfl⟩ := Scan.result_map_eq_ok_iff.mp h
    simp only [Scan.after, Scan.map, Nat.add_comm 1, List.take_succ_cons]
    apply SpelledBy.scaled hmantissa (exponent_of_scanExponent hmark hexponent) hfinite
  | case3 c rest hmark =>
    intro h
    simpa [Scan.done] using hfraction (by simpa [hmark] using hscale) (Except.ok.inj h)

/-- What is read after a point is spelled by the digits before it and what is used up after it. -/
theorem spelledBy_of_scanFraction {whole rest : List Char} {x : Float} (hne : whole ≠ [])
    (hwhole : ∀ c ∈ whole, c.isDigit) (hfinite : Decimal.isFinite x)
    (h : (scanFraction whole rest).result = .ok x) :
  (Token.number (.float x)).SpelledBy
    (whole ++ '.' :: rest.take (scanFraction whole rest).used)
  := by
  revert h
  fun_cases scanFraction whole rest with
  | case1 => rintro ⟨⟩
  | case2 fraction hfraction =>
    intro h
    have hnil : fraction ≠ [] := mt List.isEmpty_iff.mpr hfraction
    have hvalue : Numeral 10 (whole ++ fraction) (digitsValue 10 (whole ++ fraction)) := by
      apply numeral_digitsValue (by simp [hne])
      intro c hc
      apply exists_hexValue?_of_isDigit
      rcases List.mem_append.mp hc with hc | hc
      · apply hwhole c hc
      · apply List.mem_takeWhile_imp hc
    simp only [Scan.after, List.take_add, fraction, take_length_takeWhile]
    simpa [fraction] using spelledBy_of_scanScale (.point hne hnil hvalue) (.inl hnil) hfinite h

/-- A number in range is finite, and was read before its range was checked. -/
theorem inRange_eq_ok {text : List Char} {s : Scan Float} {number : Number}
    (h : (inRange text s).result = .ok number) :
  ∃ x, s.result = .ok x ∧ Decimal.isFinite x ∧ number = .float x ∧ (inRange text s).used = s.used
  := by
  revert h
  fun_cases inRange text s with
  | case1 => rintro ⟨⟩
  | case2 x hx hfinite =>
    intro h
    exact ⟨x, hx, hfinite, (Except.ok.inj h).symm, rfl⟩
  | case3 => rintro ⟨⟩

/-- What is read from a digit on is spelled by that digit and what is used up after it. -/
theorem spelledBy_of_scanNumber {first : Char} {rest : List Char} {number : Number}
    (hfirst : first.isDigit) (h : (scanNumber first rest).result = .ok number) :
  (Token.number number).SpelledBy (first :: rest.take (scanNumber first rest).used)
  := by
  have hwhole : ∀ c ∈ first :: rest.takeWhile Char.isDigit, c.isDigit := by
    rw [List.forall_mem_cons]
    exact ⟨hfirst, fun c hc => List.mem_takeWhile_imp hc⟩
  have hvalue := numeral_digitsValue (List.cons_ne_nil _ _)
    fun c hc => exists_hexValue?_of_isDigit (hwhole c hc)
  have hdecimal (hnumber : (scanDecimal (first :: rest.takeWhile Char.isDigit)).result = .ok number) :
      (Token.number number).SpelledBy
        (first :: rest.take (scanDecimal (first :: rest.takeWhile Char.isDigit)).used) := by
    obtain ⟨hspelled, hused⟩ := spelledBy_of_scanDecimal hvalue hnumber
    rwa [hused, List.length_cons, Nat.add_sub_cancel, take_length_takeWhile]
  revert h
  fun_cases scanNumber first rest with
  | case1 => exact hdecimal
  | case2 digits whole c tail htail radix hradix hzero =>
    intro h
    obtain ⟨rfl, hdigits⟩ := List.cons.inj hzero
    rw [hdigits, List.length_nil, List.drop_zero] at htail
    rw [htail, ← Radix.letter_of_ofLetter? hradix]
    simp only [Scan.after, Nat.add_comm 1, List.take_succ_cons]
    apply spelledBy_of_scanRadix h
  | case3 => rintro ⟨⟩
  | case4 digits whole tail htail =>
    intro h
    obtain ⟨x, hx, hfinite, rfl, hused⟩ := inRange_eq_ok h
    rw [hused]
    simp only [Scan.after, List.take_add, Nat.add_assoc, htail, digits, take_length_takeWhile]
    simpa [Nat.add_comm 1] using spelledBy_of_scanFraction (List.cons_ne_nil _ _) hwhole hfinite hx
  | case5 digits whole c tail htail _ _ hmark =>
    intro h
    obtain ⟨x, hx, hfinite, rfl, hused⟩ := inRange_eq_ok h
    rw [hused]
    simp only [Scan.after, List.take_add, htail, digits, take_length_takeWhile]
    rw [← List.cons_append]
    apply spelledBy_of_scanScale _ (.inr ⟨c, rfl, hmark⟩) hfinite hx
    rw [List.append_nil]
    apply Mantissa.whole hvalue
  | case6 => exact hdecimal

/-! ### Tokens -/

/-- The characters that are read spell the token, which ends where it cannot be continued. -/
theorem spelledBy_of_scan {first : Char} {rest : List Char} {token : Token}
    (h : (scan first rest).result = .ok token) :
  token.SpelledBy (first :: rest.take (scan first rest).used) ∧
    token.Separated (rest.drop (scan first rest).used)
  := by
  revert h
  fun_cases scan first rest with
  | case1 hquote =>
    intro h
    subst hquote
    obtain ⟨contents, hcontents, rfl⟩ := Scan.result_map_eq_ok_iff.mp h
    obtain ⟨body, htake, hbody⟩ := stringBody_of_scanString hcontents
    simp only [Scan.map, htake]
    exact ⟨.string hbody, by simp [word?], by simp⟩
  | case2 _ hdigit =>
    intro h
    obtain ⟨number, hnumber, rfl⟩ := Scan.result_map_eq_ok_iff.mp h
    exact ⟨spelledBy_of_scanNumber hdigit hnumber, by simp [word?], by simp⟩
  | case3 _ _ hstart => apply spelledBy_of_scanWord hstart
  | case4 => apply spelledBy_of_scanMark

end Token

end SilFront
