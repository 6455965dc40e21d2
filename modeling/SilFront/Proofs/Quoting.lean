import Mathlib.Data.Set.Function
import SilFront.Proofs.Tiling

/-!
# Quoted strings

`Text.Quoted.encode` spells the contents of a string literal in printable characters, and reading a
literal decodes them. A literal knows more escapes than are ever written, but what is written is
read back: between quotes, the spelling of a string of characters below 256 denotes that string,
whatever follows the closing quote (`Cursor.next_of_encode`). No other characters can be denoted, so
that the spelling of a string that some text denotes tells which string it is
(`Text.Quoted.encode_inverts_reading`).
-/

namespace SilFront

namespace Text

theorem hexValue?_digitChar {n : Nat} (h : n < 16) :
  hexValue? (Nat.digitChar n) = some n
  := by
  have hall : ∀ n < 16, hexValue? (Nat.digitChar n) = some n := by decide
  apply hall n h

theorem hexValue?_lt {c : Char} {n : Nat} (h : hexValue? c = some n) :
  n < 16
  := by
  unfold hexValue? at h
  split at h
  · rename_i hdigit
    simp only [Char.isDigit, Bool.and_eq_true, decide_eq_true_eq] at hdigit
    have hupper : c.toNat ≤ 57 := hdigit.2
    change some (c.toNat - 48) = some n at h
    cases h
    omega
  split at h
  · rename_i hletter
    simp only [Bool.and_eq_true, decide_eq_true_eq] at hletter
    have hupper : c.toNat ≤ 102 := hletter.2
    change some (c.toNat - 97 + 10) = some n at h
    cases h
    omega
  split at h
  · rename_i hletter
    simp only [Bool.and_eq_true, decide_eq_true_eq] at hletter
    have hupper : c.toNat ≤ 70 := hletter.2
    change some (c.toNat - 65 + 10) = some n at h
    cases h
    omega
  · cases h

namespace Quoted

open Token

/-! ### Writing -/

/-- The spelling of a character of at most eight bits stands for it inside a literal. -/
theorem stringBody_encodeChar {c : Char} (hc : c.toNat < 256) {body contents : List Char}
    (h : StringBody body contents) :
  StringBody (encodeChar c ++ body) (c :: contents)
  := by
  unfold encodeChar
  split
  · apply StringBody.escape rfl h
  · apply StringBody.escape rfl h
  · apply StringBody.escape rfl h
  · apply StringBody.escape rfl h
  · apply StringBody.escape rfl h
  · rename_i hescape hquote _ _ _
    split
    · rename_i hprintable
      apply StringBody.printable hprintable hquote hescape h
    · have hhigh := hexValue?_digitChar (Nat.mod_lt (c.toNat / 16) (by decide : 0 < 16))
      have hlow := hexValue?_digitChar (Nat.mod_lt c.toNat (by decide : 0 < 16))
      have hchar := StringBody.hex hhigh hlow h
      have hvalue : 16 * (c.toNat / 16 % 16) + c.toNat % 16 = c.toNat := by omega
      rw [hvalue, Char.ofNat_toNat] at hchar
      exact hchar

theorem stringBody_encode {text : List Char} (h : ∀ c ∈ text, c.toNat < 256) :
  StringBody (text.flatMap encodeChar) text
  := by
  induction text with
  | nil => apply StringBody.nil
  | cons c text ih =>
    obtain ⟨hc, htext⟩ := List.forall_mem_cons.mp h
    apply stringBody_encodeChar hc (ih htext)

theorem isPrintable_digitChar (n : Nat) :
  isPrintable (Nat.digitChar (n % 16))
  := by
  have hall : ∀ n < 16, isPrintable (Nat.digitChar n) := by decide
  apply hall (n % 16) (Nat.mod_lt n (by decide))

theorem isPrintable_of_mem_encodeChar {c d : Char} (h : d ∈ encodeChar c) :
  isPrintable d
  := by
  -- the escapes of one letter are made of fixed characters
  have hfixed : ∀ e : List Char, e.all isPrintable → d ∈ e → isPrintable d := by
    intro e he hd
    apply List.all_eq_true.mp he d hd
  unfold encodeChar at h
  split at h
  · apply hfixed _ rfl h
  · apply hfixed _ rfl h
  · apply hfixed _ rfl h
  · apply hfixed _ rfl h
  · apply hfixed _ rfl h
  split at h
  · rename_i hprintable
    rwa [List.mem_singleton.mp h]
  · simp only [byteDigits, List.mem_cons, List.not_mem_nil, or_false] at h
    rcases h with rfl | rfl | rfl | rfl
    · rfl
    · rfl
    · apply isPrintable_digitChar
    · apply isPrintable_digitChar

/-- Nothing but printable characters is ever written. -/
theorem isPrintable_of_mem_encode {s : String} {c : Char} (h : c ∈ (encode s).toList) :
  isPrintable c
  := by
  rw [encode, String.toList_ofList] at h
  obtain ⟨d, -, hd⟩ := List.mem_flatMap.mp h
  apply isPrintable_of_mem_encodeChar hd

end Quoted

end Text

/-! ### Reading -/

namespace Scan

@[simp]
theorem done_map {α β : Type} (f : α → β) (n : Nat) (value : α) :
  (done n value).map f = done n (f value)
  := rfl

@[simp]
theorem done_after {α : Type} (m n : Nat) (value : α) :
  (done n value).after m = done (m + n) value
  := rfl

end Scan

namespace Token

/-- The contents of a literal are read up to its closing quote. -/
theorem scanString_of_stringBody {body contents : List Char} (h : StringBody body contents)
    (rest : List Char) :
  scanString (body ++ '"' :: rest) = .done (body.length + 1) contents
  := by
  induction h with
  | nil =>
    unfold scanString
    rfl
  | printable hprintable hquote hescape _ ih =>
    unfold scanString
    simp only [List.cons_append, hquote, hescape, hprintable, if_true, if_false, ih, Scan.done_map,
      Scan.done_after, List.length_cons]
    rw [Nat.add_comm 1]
  | @escape letter _ _ _ hletter _ ih =>
    have hx : letter ≠ 'x' := by
      rintro rfl
      cases hletter
    unfold scanString
    simp only [List.cons_append, hx, hletter, if_true, if_false, ih, Scan.done_map,
      Scan.done_after, List.length_cons, Char.reduceEq]
    rw [Nat.add_comm 2]
  | hex hhigh hlow _ ih =>
    unfold scanString
    simp only [List.cons_append, hhigh, hlow, if_true, if_false, ih, Scan.done_map,
      Scan.done_after, List.length_cons, Char.reduceEq]
    rw [Nat.add_comm 4]

theorem toNat_lt_of_decodeLetter? {letter c : Char}
    (h : Text.Quoted.decodeLetter? letter = some c) :
  c.toNat < 256
  := by
  unfold Text.Quoted.decodeLetter? at h
  split at h <;> cases h <;> decide

theorem toNat_ofNat_lt {n : Nat} (h : n < 256) :
  (Char.ofNat n).toNat < 256
  := by
  have hvalid : n.isValidChar := .inl (by omega)
  rw [Char.ofNat, dif_pos hvalid]
  exact h

/-- A literal stands for characters below 256 only. -/
theorem toNat_lt_of_stringBody {body contents : List Char} (h : StringBody body contents) :
  ∀ c ∈ contents, c.toNat < 256
  := by
  induction h with
  | nil => simp
  | @printable c _ _ hprintable _ _ _ ih =>
    rw [List.forall_mem_cons]
    refine ⟨?_, ih⟩
    simp only [Text.isPrintable, Bool.and_eq_true, decide_eq_true_eq] at hprintable
    have hupper : c.toNat ≤ 126 := hprintable.2
    omega
  | escape hletter _ ih =>
    rw [List.forall_mem_cons]
    exact ⟨toNat_lt_of_decodeLetter? hletter, ih⟩
  | hex hhigh hlow _ ih =>
    rw [List.forall_mem_cons]
    refine ⟨toNat_ofNat_lt ?_, ih⟩
    have := Text.hexValue?_lt hhigh
    have := Text.hexValue?_lt hlow
    omega

end Token

namespace Cursor

/-- What begins at the cursor itself, with no gap before it, is read there. -/
theorem next_eq_read {c : Cursor} {first : Char} {rest : List Char}
    (hrest : c.rest = first :: rest) (hgap : Gap.of c.rest = ⟨0, none⟩) :
  c.next = c.read first rest
  := by
  have hskip : c.skip = c := by rw [skip, hgap]; rfl
  apply next_of_next?_eq_some
  rw [next?, hskip, hgap, hrest]
  rfl

/-- The token at the cursor itself, with no gap before it. -/
theorem next_of_scan {c : Cursor} {first : Char} {rest : List Char} {n : Nat} {token : Token}
    (hrest : c.rest = first :: rest) (hgap : Gap.of c.rest = ⟨0, none⟩)
    (h : Token.scan first rest = .done n token) :
  c.next = (.ok ⟨token, c.location⟩, c.advance (n + 1))
  := by
  rw [next_eq_read hrest hgap, read]
  simp only [h, Scan.done]

/-- What is written for a string of characters below 256 is read as that string, and no more is
read. -/
theorem next_of_encode {s : String} (h : ∀ c ∈ s.toList, c.toNat < 256) (rest : List Char)
    (l : Location) :
  (⟨'"' :: ((Text.Quoted.encode s).toList ++ '"' :: rest), l⟩ : Cursor).next =
    (.ok ⟨.string s, l⟩, ⟨rest, l.after ('"' :: ((Text.Quoted.encode s).toList ++ ['"']))⟩)
  := by
  have hbody := Text.Quoted.stringBody_encode h
  have hscan : Token.scan '"' ((Text.Quoted.encode s).toList ++ '"' :: rest) =
      .done ((Text.Quoted.encode s).toList.length + 1) (.string s) := by
    rw [Token.scan, if_pos rfl, Text.Quoted.encode, String.toList_ofList,
      Token.scanString_of_stringBody hbody, Scan.done_map, String.ofList_toList]
  have htake : ((Text.Quoted.encode s).toList ++ '"' :: rest).take
      ((Text.Quoted.encode s).toList.length + 1) = (Text.Quoted.encode s).toList ++ ['"'] := by
    rw [List.take_append, List.take_of_length_le (Nat.le_succ _), Nat.add_sub_cancel_left]
    rfl
  rw [next_of_scan rfl rfl hscan]
  simp [advance, locationAt, htake]

/-- A string that is read has characters below 256 only. -/
theorem toNat_lt_of_next {c : Cursor} {s : String} {l : Location}
    (h : c.next.1 = .ok ⟨.string s, l⟩) :
  ∀ d ∈ s.toList, d.toNat < 256
  := by
  cases hnext : c.next? with
  | none =>
    rw [next_of_next?_eq_none hnext] at h
    cases h
  | some answer =>
    obtain ⟨step, c'⟩ := answer
    rw [next_of_next?_eq_some hnext] at h
    obtain rfl : step = .ok ⟨.string s, l⟩ := h
    obtain ⟨⟨gap, lexeme, token, filler, spelledBy⟩, rfl, -, -⟩ := exists_tile_of_next? hnext
    cases spelledBy with
    | string hbody =>
      rw [String.toList_ofList]
      apply Token.toNat_lt_of_stringBody hbody

end Cursor

/-! ### The strings of a program -/

namespace Text.Quoted

/-- A string that is denoted somewhere in some text. -/
def Occurs (s : String) : Prop :=
  ∃ (source : String) (n : Nat) (l : Location),
    ((Cursor.ofText source).after n).next.1 = .ok ⟨.string s, l⟩

/-- The strings that can be denoted are those of characters below 256. -/
theorem occurs_iff {s : String} :
  Occurs s ↔ ∀ c ∈ s.toList, c.toNat < 256
  := by
  constructor
  · rintro ⟨source, n, l, h⟩
    apply Cursor.toNat_lt_of_next h
  · intro h
    use String.ofList ('"' :: ((encode s).toList ++ ['"'])), 0, .start
    change (Cursor.ofText _).next.1 = _
    rw [Cursor.ofText, String.toList_ofList, Cursor.next_of_encode h]

/-- What is written for a string of characters below 256 tells which string was meant. -/
theorem eq_of_encode {s t : String} (hs : ∀ c ∈ s.toList, c.toNat < 256)
    (ht : ∀ c ∈ t.toList, c.toNat < 256) (h : encode s = encode t) :
  s = t
  := by
  -- both are what is read from the same literal
  have hread := Cursor.next_of_encode hs [] .start
  rw [h, Cursor.next_of_encode ht] at hread
  simpa using hread.symm

/-- Writing a string and reading it are inverse to each other. What is written for a string of
characters below 256 is read back, up to the closing quote and no further. These are the strings
that can be denoted. Whatever is written is printable, and it tells which string that can be denoted
was meant. -/
theorem encode_inverts_reading :
  (∀ (s : String) (rest : List Char) (l : Location), (∀ c ∈ s.toList, c.toNat < 256) →
      (⟨'"' :: ((encode s).toList ++ '"' :: rest), l⟩ : Cursor).next =
        (.ok ⟨.string s, l⟩, ⟨rest, l.after ('"' :: ((encode s).toList ++ ['"']))⟩)) ∧
    (∀ s : String, Occurs s ↔ ∀ c ∈ s.toList, c.toNat < 256) ∧
    (∀ s : String, ∀ c ∈ (encode s).toList, isPrintable c) ∧
    Set.InjOn encode {s | Occurs s}
  := by
  refine ⟨?_, ?_, ?_, ?_⟩
  · intro s rest l h
    apply Cursor.next_of_encode h
  · intro s
    apply occurs_iff
  · intro s c hc
    apply isPrintable_of_mem_encode hc
  · intro s hs t ht heq
    apply eq_of_encode (occurs_iff.mp hs) (occurs_iff.mp ht) heq

/-- A string with a quote, a backslash, a newline and characters that are written with two digits,
before text that could be taken for more digits. -/
theorem encode_inverts_reading_digits :
  encode "\"\\\n\x01é" = "\\\"\\\\\\n\\x01\\xe9" ∧
    (⟨"\"\\\"\\\\\\n\\x01\\xe9\"af\"".toList, .start⟩ : Cursor).next =
      (.ok ⟨.string "\"\\\n\x01é", .start⟩, ⟨"af\"".toList, ⟨1, 17⟩⟩)
  := by
  have hencode : encode "\"\\\n\x01é" = "\\\"\\\\\\n\\x01\\xe9" := by decide +kernel
  have hbytes : ∀ c ∈ "\"\\\n\x01é".toList, c.toNat < 256 := by
    simp
  have hread := encode_inverts_reading.1 "\"\\\n\x01é" "af\"".toList .start hbytes
  rw [hencode] at hread
  exact ⟨hencode, hread⟩

end Text.Quoted

end SilFront
