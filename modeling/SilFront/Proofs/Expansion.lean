import SilFront.Expansion.Session
import SilFront.Proofs.Lexemes

/-!
# Expansion of a text without directives

What a text without directives is expanded to, said piece by piece: `Fragment.Expands` relates a
text to its expansion, and there is one lemma for every kind of piece that may stand at the
beginning of a text. `Fragment.ExpandsGlued` is the same relation for a text right after a digit,
where letters are kept as they are.

Filler is kept (`Fragment.Expands.filler`), and so are strings, while a word is replaced by its
meaning. A lexeme of any kind is dealt with by `Fragment.Continues.lexeme`. A text in which nothing
has a meaning is its own expansion, whether it can be read or not (`Fragment.Expands.refl`).
-/

namespace SilFront

namespace Fragment

/-- Whether a fragment is no directive. -/
def isText : Fragment → Bool
  | .plain _ => true
  | .word _ => true
  | _ => false

/-- What a fragment that is no directive is replaced by. -/
def replaced (d : Definitions) : Fragment → List Char
  | .plain text => text
  | .word name => (d.replace name).toList
  | _ => []

/-- A text without directives, and what it is expanded to. -/
def Expands (d : Definitions) (text out : List Char) : Prop :=
  ∀ line, (∀ f ∈ cut line text, f.isText) ∧ (cut line text).flatMap (replaced d) = out

/-- A text without directives, and what it is expanded to if it stands right after a digit. -/
def ExpandsGlued (d : Definitions) (text out : List Char) : Prop :=
  ∃ out', Expands d (text.dropWhile isNumberPart) out' ∧
    out = text.takeWhile isNumberPart ++ out'

end Fragment

/-! ### Sessions -/

theorem run_bind_of_run_eq_ok {α β : Type} {x : ExpandM α} {k : α → ExpandM β} {a : α}
    {d d' : Definitions} (h : StateT.run (ExceptT.run x) d = (.ok a, d')) :
  StateT.run (ExceptT.run (x >>= k)) d = StateT.run (ExceptT.run (k a)) d'
  := by
  simp only [ExceptT.run, StateT.run] at h ⊢
  simp only [bind, ExceptT.bind, ExceptT.mk, StateT.bind, h, ExceptT.bindCont]

/-- Reading fragments in turn, none of which changes what words mean. -/
theorem run_mapM_of_run_eq_ok {f : Fragment → ExpandM String} {d : Definitions}
    {fragments : List Fragment}
    (hf : ∀ g ∈ fragments, StateT.run (ExceptT.run (f g)) d = (.ok (String.ofList (g.replaced d)), d)) :
  StateT.run (ExceptT.run (fragments.mapM f)) d =
    (.ok (fragments.map fun g => String.ofList (g.replaced d)), d)
  := by
  induction fragments with
  | nil => rfl
  | cons g fragments ih =>
    rw [List.forall_mem_cons] at hf
    rw [List.mapM_cons, run_bind_of_run_eq_ok hf.1, run_bind_of_run_eq_ok (ih hf.2)]
    rfl

/-- A session expands a text without directives, and gives no word a meaning by that. -/
theorem Session.expand_of_expands {s : Session} {text : String} {out : List Char}
    (h : Fragment.Expands s.definitions text.toList out) :
  s.expand text = (.ok (String.ofList out), s)
  := by
  obtain ⟨htext, hout⟩ := h 1
  have hjoin : String.join ((Fragment.ofText text).map fun g =>
      String.ofList (g.replaced s.definitions)) = String.ofList out := by
    rw [← String.toList_inj, String.toList_join, List.flatMap_map, String.toList_ofList, ← hout]
    simp [Fragment.ofText]
  have hrun : StateT.run (ExceptT.run (SilFront.expand s.library [] text)) s.definitions =
      (.ok (String.ofList out), s.definitions) := by
    rw [SilFront.expand, run_bind_of_run_eq_ok (run_mapM_of_run_eq_ok _), hjoin]
    · rfl
    · intro g hg
      have hisText := htext g hg
      cases g with
      | plain => rfl
      | word name =>
        rw [Fragment.replaced, String.ofList_toList]
        rfl
      | _ => cases hisText
  rw [Session.expand, hrun]

namespace Fragment

variable {d : Definitions}

/-! ### Characters -/

/-- Whether a character begins neither a directive nor a piece of more than one character. -/
def isSingle (c : Char) : Bool :=
  c ≠ '$' && c ≠ '"' && c ≠ '#' && !Token.isWordStart c && !c.isDigit

/-- Digits of any base are parts of words. -/
theorem isWordPart_of_hexValue? {c : Char} {n : Nat} (h : Text.hexValue? c = some n) :
  Token.isWordPart c
  := by
  have halpha := Token.isAlpha_iff c
  simp only [Text.hexValue?, Char.le_def] at h
  simp only [Token.isWordPart, Char.isAlphanum]
  grind

/-- A digit with a value below ten is a decimal digit. -/
theorem isDigit_of_hexValue? {c : Char} {n : Nat} (h : Text.hexValue? c = some n) (hn : n < 10) :
  c.isDigit
  := by
  simp only [Text.hexValue?] at h
  grind

theorem isNumberPart_of_isWordPart {c : Char} (h : Token.isWordPart c) :
  isNumberPart c
  := by rw [isNumberPart, h, Bool.true_or]

theorem isNumberPart_of_isDigit {c : Char} (h : c.isDigit) :
  isNumberPart c
  := by
  apply isNumberPart_of_isWordPart
  rw [Token.isWordPart, Char.isAlphanum, h, Bool.or_true, Bool.true_or]

/-- A blank stands by itself, and is no part of a number. -/
theorem isSingle_of_isBlank {c : Char} (h : isBlank c) :
  isSingle c ∧ isNumberPart c = false
  := by
  simp only [isBlank, Bool.or_eq_true, beq_iff_eq] at h
  rcases h with ((((rfl | rfl) | rfl) | rfl) | rfl) | rfl <;> decide

/-! ### Pieces of a text -/

/-- A text is cut into its first fragment and those of the rest, unless the first one is a
directive. -/
theorem cut_of_scan {line n : Nat} {first : Char} {rest : List Char} {fragment : Fragment}
    (h : scan line first rest = (fragment, n)) (htext : fragment.isText) :
  cut line (first :: rest) =
    fragment :: cut (line + Text.newlines (first :: rest.take n)) (rest.drop n)
  := by
  rw [cut, h]
  cases fragment <;> simp_all [isText]

namespace Expands

theorem nil :
  Expands d [] []
  := by
  intro line
  simp [cut]

/-- A text expands to what its first fragment is replaced by, and what the rest expands to. -/
theorem cons {n : Nat} {first : Char} {rest out : List Char} {fragment : Fragment}
    (hscan : ∀ line, scan line first rest = (fragment, n)) (htext : fragment.isText)
    (h : Expands d (rest.drop n) out) :
  Expands d (first :: rest) (fragment.replaced d ++ out)
  := by
  intro line
  rw [cut_of_scan (hscan line) htext]
  obtain ⟨htexts, hout⟩ := h (line + Text.newlines (first :: rest.take n))
  rw [List.forall_mem_cons, List.flatMap_cons, hout]
  exact ⟨⟨htext, htexts⟩, rfl⟩

/-- A piece that is kept as it is. -/
theorem kept {first : Char} {piece rest out : List Char}
    (hscan : ∀ line, scan line first (piece ++ rest) =
      (.plain (first :: (piece ++ rest).take piece.length), piece.length))
    (h : Expands d rest out) :
  Expands d (first :: (piece ++ rest)) (first :: (piece ++ out))
  := by
  rw [List.take_left] at hscan
  apply cons hscan rfl
  rwa [List.drop_left]

/-- Characters with no meaning of their own. -/
theorem singles {piece rest out : List Char} (hpiece : ∀ c ∈ piece, isSingle c)
    (h : Expands d rest out) :
  Expands d (piece ++ rest) (piece ++ out)
  := by
  induction piece with
  | nil => exact h
  | cons c piece ih =>
    rw [List.forall_mem_cons] at hpiece
    have hc := hpiece.1
    simp only [isSingle, Bool.and_eq_true, Bool.not_eq_true', decide_eq_true_eq] at hc
    apply @kept d c [] _ _ _ (ih hpiece.2)
    intro line
    simp [scan, hc]

theorem word {first : Char} {tail rest out : List Char} (hfirst : Token.isWordStart first)
    (htail : ∀ c ∈ tail, Token.isWordPart c) (hrest : ∀ c ∈ rest.head?, Token.isWordPart c = false)
    (h : Expands d rest out) :
  Expands d (first :: (tail ++ rest)) ((d.replace (String.ofList (first :: tail))).toList ++ out)
  := by
  have hspecial : first ≠ '$' ∧ first ≠ '"' ∧ first ≠ '#' := by
    refine ⟨?_, ?_, ?_⟩ <;> rintro rfl <;> cases hfirst
  have htake : (tail ++ rest).takeWhile Token.isWordPart = tail := by
    rw [takeWhile_append_of_head? hrest, List.takeWhile_eq_self_iff.mpr htail]
  have hscan (line : Nat) : scan line first (tail ++ rest) =
      (.word (String.ofList (first :: tail)), tail.length) := by
    simp [scan, hspecial, hfirst, htake]
  apply cons hscan rfl
  rwa [List.drop_left]

/-- A digit, after which the text is glued. -/
theorem digit {c : Char} {rest out : List Char} (hc : c.isDigit) (h : ExpandsGlued d rest out) :
  Expands d (c :: rest) (c :: out)
  := by
  obtain ⟨out', hrest, rfl⟩ := h
  have hspecial : c ≠ '$' ∧ c ≠ '"' ∧ c ≠ '#' := by
    refine ⟨?_, ?_, ?_⟩ <;> rintro rfl <;> cases hc
  conv => arg 2; rw [← rest.takeWhile_append_dropWhile (p := isNumberPart)]
  apply kept _ hrest
  intro line
  simp [scan, hspecial, hc, Token.isWordStart_of_isDigit hc]

end Expands

/-! ### Strings and comments -/

/-- A string goes on with any character that does not end it. -/
theorem stringLength_cons {c : Char} (hnewline : c ≠ '\n') (hquote : c ≠ '"') (hescape : c ≠ '\\')
    (rest : List Char) :
  stringLength (c :: rest) = stringLength rest + 1
  := by
  rw [stringLength] <;> simp_all

/-- A string goes on with an escaped character. -/
theorem stringLength_escape {letter : Char} (h : letter ≠ '\n') (rest : List Char) :
  stringLength ('\\' :: letter :: rest) = stringLength rest + 2
  := by
  rw [stringLength]
  simp [h]

/-- The fragment of a string is the string. -/
theorem stringLength_of_stringBody {body contents : List Char}
    (h : Token.StringBody body contents) (rest : List Char) :
  stringLength (body ++ '"' :: rest) = body.length + 1
  := by
  have hhex {c : Char} {n : Nat} (hc : Text.hexValue? c = some n) (rest : List Char) :
      stringLength (c :: rest) = stringLength rest + 1 := by
    apply stringLength_cons <;> rintro rfl <;> cases hc
  induction h with
  | nil => rfl
  | printable hprintable hquote hescape _ ih =>
    rw [List.cons_append, stringLength_cons _ hquote hescape, ih, List.length_cons]
    rintro rfl
    cases hprintable
  | escape hletter _ ih =>
    rw [List.cons_append, List.cons_append, stringLength_escape, ih, List.length_cons,
      List.length_cons]
    rintro rfl
    cases hletter
  | hex hhigh hlow _ ih =>
    simp only [List.cons_append, List.length_cons]
    rw [stringLength_escape (by decide), hhex hhigh, hhex hlow, ih]

/-- The fragment of a block comment ends at the first mark that may close it. -/
theorem blockLength_of_not_infix {body : List Char} (h : ¬ ['#', '#'] <:+: body ++ ['#'])
    (rest : List Char) :
  blockLength (body ++ '#' :: '#' :: rest) = body.length + 2
  := by
  induction body with
  | nil => rfl
  | cons c body ih =>
    rw [List.cons_append, List.infix_cons_iff, not_or] at h
    rw [List.cons_append, blockLength, ih h.2, List.length_cons]
    intro rest' hc hrest
    apply h.1
    subst hc
    cases body with
    | nil => simp
    | cons c' body =>
      obtain ⟨rfl, -⟩ := List.cons.inj hrest
      simp

namespace Expands

/-- A string expands to itself. -/
theorem string {body contents rest out : List Char} (hbody : Token.StringBody body contents)
    (h : Expands d rest out) :
  Expands d ('"' :: (body ++ ['"'] ++ rest)) ('"' :: (body ++ ['"'] ++ out))
  := by
  apply kept _ h
  intro line
  simp [scan, stringLength_of_stringBody hbody]

/-- A line comment without its newline. -/
theorem lineComment {body rest out : List Char} (hhead : body.head? ≠ some '#') (hbody : '\n' ∉ body)
    (hrest : ∀ c ∈ rest.head?, c = '\n') (h : Expands d rest out) :
  Expands d ('#' :: (body ++ rest)) ('#' :: (body ++ out))
  := by
  have hlength : commentLength (body ++ rest) = body.length := by
    rw [commentLength]
    · rw [takeWhile_append_of_head?, List.takeWhile_eq_self_iff.mpr]
      · intro c hc
        simpa using ne_of_mem_of_not_mem hc hbody
      · intro c hc
        simp [hrest c hc]
    · intro rest' heq
      cases body with
      | nil => simpa using hrest '#' (by rw [← List.nil_append rest, heq, List.head?_cons]; rfl)
      | cons c body => simp_all
  apply kept _ h
  intro line
  simp [scan, hlength]

/-- A block comment expands to itself. -/
theorem blockComment {body rest out : List Char} (hbody : ¬ ['#', '#'] <:+: body ++ ['#'])
    (h : Expands d rest out) :
  Expands d ('#' :: ('#' :: body ++ ['#', '#'] ++ rest)) ('#' :: ('#' :: body ++ ['#', '#'] ++ out))
  := by
  apply kept _ h
  intro line
  simp [scan, commentLength, blockLength_of_not_infix hbody]

/-- Blanks and comments are kept. -/
theorem filler {final : Prop} {gap rest out : List Char} (hgap : Filler final gap)
    (hfinal : final → rest = []) (h : Expands d rest out) :
  Expands d (gap ++ rest) (gap ++ out)
  := by
  induction hgap with
  | nil => exact h
  | @blank c gap hblank _ ih =>
    apply @singles d [c] _ _ _ ih
    simpa using (isSingle_of_isBlank hblank).1
  | @line body gap hhead hbody _ ih =>
    simp only [List.cons_append, List.append_assoc]
    apply lineComment hhead hbody (by simp)
    apply @singles d ['\n'] _ _ (List.all_eq_true.mp rfl) ih
  | @lastLine body hlast hhead hbody =>
    obtain rfl := hfinal hlast
    apply lineComment hhead hbody (by simp) h
  | @block body gap hbody _ ih =>
    simpa using blockComment hbody ih

end Expands

/-! ### After a digit -/

namespace ExpandsGlued

/-- Characters that may continue a number are kept. -/
theorem parts {piece rest out : List Char} (hpiece : ∀ c ∈ piece, isNumberPart c)
    (h : ExpandsGlued d rest out) :
  ExpandsGlued d (piece ++ rest) (piece ++ out)
  := by
  obtain ⟨out', hrest, rfl⟩ := h
  use out'
  rw [List.dropWhile_append_of_pos hpiece, List.takeWhile_append_of_pos hpiece, List.append_assoc]
  exact ⟨hrest, rfl⟩

/-- Any other character ends the number. -/
theorem of_expands {text out : List Char} (htext : ∀ c ∈ text.head?, isNumberPart c = false)
    (h : Expands d text out) :
  ExpandsGlued d text out
  := by
  use out
  rw [(takeWhile_of_head? htext).1, (takeWhile_of_head? htext).2]
  exact ⟨h, rfl⟩

end ExpandsGlued

/-- A text, and what it is expanded to right after a digit or elsewhere. -/
def Continues (d : Definitions) : Bool → List Char → List Char → Prop
  | true => ExpandsGlued d
  | false => Expands d

/-- A text that no number goes on with expands after a number as it does by itself. -/
theorem Continues.of_expands {glued : Bool} {text out : List Char}
    (htext : ∀ c ∈ text.head?, isNumberPart c = false) (h : Expands d text out) :
  Continues d glued text out
  := by
  cases glued with
  | true => apply ExpandsGlued.of_expands htext h
  | false => exact h

/-! ### Lexemes -/

/-- A digit and characters that may continue a number. -/
def IsRun (text : List Char) : Prop :=
  (∃ c ∈ text.head?, c.isDigit) ∧ ∀ c ∈ text, isNumberPart c

/-- A run of characters of numbers goes on with such characters. -/
theorem IsRun.append {first second : List Char} (h : IsRun first)
    (hsecond : ∀ c ∈ second, isNumberPart c) :
  IsRun (first ++ second)
  := by
  obtain ⟨⟨c, hhead, hc⟩, hfirst⟩ := h
  constructor
  · exact ⟨c, by simp [Option.mem_def.mp hhead], hc⟩
  · intro c hc
    rcases List.mem_append.mp hc with hc | hc
    · apply hfirst c hc
    · apply hsecond c hc

/-- A run of characters of numbers expands to itself, and what follows is glued to it. -/
theorem IsRun.continues {run rest out : List Char} (hrun : IsRun run) (glued : Bool)
    (h : ExpandsGlued d rest out) :
  Continues d glued (run ++ rest) (run ++ out)
  := by
  obtain ⟨⟨c, hhead, hc⟩, hparts⟩ := hrun
  cases glued with
  | true => apply h.parts hparts
  | false =>
    cases run with
    | nil => cases hhead
    | cons c' run =>
      obtain rfl := Option.some.inj hhead
      apply Expands.digit hc
      apply h.parts
      intro c hc
      apply hparts c (List.mem_cons_of_mem _ hc)

/-- What holds of all digits below a base holds of the digits of a numeral. -/
theorem forall_of_numeral {base : Nat} {digits : List Char} {value : Nat} {p : Char → Prop}
    (h : Token.Numeral base digits value)
    (hp : ∀ c n, Text.hexValue? c = some n → n < base → p c) :
  ∀ c ∈ digits, p c
  := by
  induction h with
  | digit hc hd => simpa using hp _ _ hc hd
  | snoc _ hc hd ih =>
    rw [List.forall_mem_append]
    exact ⟨ih, by simpa using hp _ _ hc hd⟩

theorem isDigit_of_numeral {digits : List Char} {value : Nat}
    (h : Token.Numeral 10 digits value) :
  ∀ c ∈ digits, c.isDigit
  := forall_of_numeral h fun _ _ => isDigit_of_hexValue?

theorem isNumberPart_of_numeral {base : Nat} {digits : List Char} {value : Nat}
    (h : Token.Numeral base digits value) :
  ∀ c ∈ digits, isNumberPart c
  := forall_of_numeral h fun _ _ hc _ => isNumberPart_of_isWordPart (isWordPart_of_hexValue? hc)

theorem ne_nil_of_numeral {base : Nat} {digits : List Char} {value : Nat}
    (h : Token.Numeral base digits value) :
  digits ≠ []
  := by
  induction h <;> simp

theorem isRun_of_isDigit {text : List Char} (hne : text ≠ []) (h : ∀ c ∈ text, c.isDigit) :
  IsRun text
  := by
  constructor
  · exact ⟨text.head hne, List.head?_eq_some_head hne, h _ (List.head_mem hne)⟩
  · intro c hc
    apply isNumberPart_of_isDigit (h c hc)

theorem isRun_of_numeral {digits : List Char} {value : Nat} (h : Token.Numeral 10 digits value) :
  IsRun digits
  := isRun_of_isDigit (ne_nil_of_numeral h) (isDigit_of_numeral h)

/-- A mantissa is a run of characters of numbers. -/
theorem isRun_of_mantissa {text : List Char} {value places : Nat}
    (h : Token.Mantissa text value places) :
  IsRun text
  := by
  induction h with
  | whole h => apply isRun_of_numeral h
  | point hwhole hfraction hvalue =>
    have hdigits := isDigit_of_numeral hvalue
    rw [List.forall_mem_append] at hdigits
    apply (isRun_of_isDigit hwhole hdigits.1).append
    rw [List.forall_mem_cons]
    exact ⟨by decide, (isRun_of_isDigit hfraction hdigits.2).2⟩

theorem isNumberPart_of_isExponentMark {c : Char} (h : Token.isExponentMark c) :
  isNumberPart c
  := by
  simp only [Token.isExponentMark, Bool.or_eq_true, beq_iff_eq] at h
  rcases h with rfl | rfl <;> rfl

/-- A number is a run, or two runs with a sign between them. -/
theorem isRun_of_spelledBy {number : Number} {lexeme : List Char}
    (h : (Token.number number).SpelledBy lexeme) :
  IsRun lexeme ∨ ∃ front sign back, lexeme = front ++ sign :: back ∧ IsRun front ∧ IsRun back ∧
    sign ∈ ['+', '-']
  := by
  cases h with
  | decimal hvalue => exact .inl (isRun_of_numeral hvalue)
  | @radix radix digits _ _ hvalue =>
    left
    constructor
    · exact ⟨'0', rfl, rfl⟩
    · rw [List.forall_mem_cons, List.forall_mem_cons]
      exact ⟨rfl, by cases radix <;> rfl, isNumberPart_of_numeral hvalue⟩
  | fraction hmantissa => exact .inl (isRun_of_mantissa hmantissa)
  | scaled hmantissa hexponent =>
    have hfront := isRun_of_mantissa hmantissa
    rcases hexponent with ⟨hmark, hdigits⟩ | ⟨hmark, hdigits⟩ | ⟨hmark, hdigits⟩
    · left
      apply hfront.append
      rw [List.forall_mem_cons]
      exact ⟨isNumberPart_of_isExponentMark hmark, isNumberPart_of_numeral hdigits⟩
    all_goals
      right
      refine ⟨_, _, _, List.append_cons .., hfront.append ?_, isRun_of_numeral hdigits, by simp⟩
      simpa using isNumberPart_of_isExponentMark hmark

/-- The lexeme of a word. -/
theorem isWord_of_spelledBy {token : Token} {lexeme : List Char} {name : String}
    (h : token.SpelledBy lexeme) (hname : token.word? = some name) :
  name = String.ofList lexeme ∧ ∃ first tail, lexeme = first :: tail ∧ Token.isWordStart first ∧
    ∀ c ∈ tail, Token.isWordPart c
  := by
  cases h with
  | keyword k =>
    obtain rfl := Option.some.inj hname
    cases k <;> exact ⟨rfl, _, _, rfl, rfl, List.all_eq_true.mp rfl⟩
  | ident hfirst htail =>
    obtain rfl := Option.some.inj hname
    exact ⟨rfl, _, _, rfl, hfirst, htail⟩
  | _ => cases hname

/-- The characters of words may be glued to numbers. -/
theorem isNumberPart_of_spelledBy {token : Token} {lexeme : List Char} {name : String}
    (h : token.SpelledBy lexeme) (hname : token.word? = some name) :
  ∀ c ∈ lexeme, isNumberPart c
  := by
  obtain ⟨-, first, tail, rfl, hfirst, htail⟩ := isWord_of_spelledBy h hname
  rw [List.forall_mem_cons]
  constructor
  · apply isNumberPart_of_isWordPart (Token.isWordPart_of_isWordStart hfirst)
  · intro c hc
    apply isNumberPart_of_isWordPart (htail c hc)

/-- What stands for a lexeme that is not glued: the meaning of a word that has one. -/
def substituted (d : Definitions) (token : Token) (lexeme : List Char) : List Char :=
  (token.word?.bind d.find?).elim lexeme String.toList

/-- What is no word is not replaced. -/
theorem substituted_of_word?_eq_none {token : Token} (h : token.word? = none) (lexeme : List Char) :
  substituted d token lexeme = lexeme
  := by simp [substituted, h]

/-- A word is replaced by its meaning. -/
theorem substituted_of_word?_eq_some {token : Token} {name : String} {lexeme : List Char}
    (h : token.word? = some name) (hname : name = String.ofList lexeme) :
  substituted d token lexeme = (d.replace name).toList
  := by
  rw [substituted, h, Option.bind_some, Definitions.replace, hname]
  cases d.find? (String.ofList lexeme) <;> simp

/-- Whether the text after a lexeme is glued. -/
def glues (token : Token) (lexeme : List Char) (glued : Bool) : Bool :=
  token.number?.isSome || glued && lexeme.all isNumberPart

namespace Continues

theorem word {token : Token} {name : String} {lexeme rest out : List Char} {glued : Bool}
    (hspelled : token.SpelledBy lexeme) (hname : token.word? = some name)
    (hrest : ∀ c ∈ rest.head?, Token.isWordPart c = false) (h : Continues d glued rest out) :
  Continues d glued (lexeme ++ rest)
    ((if glued then lexeme else substituted d token lexeme) ++ out)
  := by
  cases glued with
  | true => apply ExpandsGlued.parts (isNumberPart_of_spelledBy hspelled hname) h
  | false =>
    obtain ⟨hlexeme, first, tail, rfl, hfirst, htail⟩ := isWord_of_spelledBy hspelled hname
    simp only [Bool.false_eq_true, if_false]
    rw [substituted_of_word?_eq_some hname hlexeme, hlexeme]
    apply Expands.word hfirst htail hrest h

theorem number {number : Number} {lexeme rest out : List Char} {glued : Bool}
    (hspelled : (Token.number number).SpelledBy lexeme) (h : ExpandsGlued d rest out) :
  Continues d glued (lexeme ++ rest) (lexeme ++ out)
  := by
  rcases isRun_of_spelledBy hspelled with hrun | ⟨front, sign, back, rfl, hfront, hback, hsign⟩
  · apply hrun.continues glued h
  · have hsingle : isSingle sign ∧ isNumberPart sign = false := by
      simp only [List.mem_cons, List.not_mem_nil, or_false] at hsign
      rcases hsign with rfl | rfl <;> decide
    -- The sign ends the first run, and the second one begins a new fragment.
    have hback' : Expands d (back ++ rest) (back ++ out) := hback.continues false h
    simp only [List.append_assoc, List.cons_append]
    apply hfront.continues
    apply ExpandsGlued.of_expands
    · simpa using hsingle.2
    · apply @Expands.singles d [sign] _ _ _ hback'
      simpa using hsingle.1

theorem mark {m : Mark} {rest out : List Char} {glued : Bool}
    (h : Continues d (glues (.mark m) m.text.toList glued) rest out) :
  Continues d glued (m.text.toList ++ rest) (m.text.toList ++ out)
  := by
  by_cases hdot : m = .dot
  -- A point may stand in a number.
  · subst hdot
    cases glued with
    | true => apply ExpandsGlued.parts (List.all_eq_true.mp rfl) h
    | false => apply Expands.singles (List.all_eq_true.mp rfl) h
  · have hmark : m.text.toList.all isSingle ∧ m.text.toList.head?.any (!isNumberPart ·) := by
      cases m <;> first | exact absurd rfl hdot | decide
    obtain ⟨first, hhead, hfirst⟩ := (Option.any_eq_true _ _).mp hmark.2
    obtain ⟨tail, htext⟩ := List.head?_eq_some_iff.mp hhead
    rw [Bool.not_eq_true'] at hfirst
    have hglues : glues (.mark m) m.text.toList glued = false := by
      simp [glues, Token.number?, htext, hfirst]
    rw [hglues] at h
    apply of_expands (by simp [htext, hfirst])
    apply Expands.singles (List.all_eq_true.mp hmark.1) h

/-- A lexeme is kept if it is glued or no word, and replaced by its meaning otherwise. -/
theorem lexeme {token : Token} {lexeme rest out : List Char} {glued : Bool}
    (hspelled : token.SpelledBy lexeme) (hseparated : token.Separated rest)
    (h : Continues d (glues token lexeme glued) rest out) :
  Continues d glued (lexeme ++ rest)
    ((if glued then lexeme else substituted d token lexeme) ++ out)
  := by
  cases hname : token.word? with
  | some name =>
    have hglues : glues token lexeme glued = glued := by
      have hnumber : token.number? = none := by
        cases token <;> first | rfl | cases hname
      have hparts : lexeme.all isNumberPart := by
        simpa using isNumberPart_of_spelledBy hspelled hname
      rw [glues, hnumber, hparts, Option.isSome_none, Bool.false_or, Bool.and_true]
    rw [hglues] at h
    apply word hspelled hname (hseparated.word (by rw [hname, Option.isSome_some])) h
  | none =>
    rw [substituted_of_word?_eq_none hname, ite_self]
    cases hspelled with
    | keyword => cases hname
    | ident => cases hname
    | mark m => apply mark h
    | decimal hvalue hn => apply number (.decimal hvalue hn) h
    | radix hvalue hn => apply number (.radix hvalue hn) h
    | fraction hmantissa hplaces hfinite => apply number (.fraction hmantissa hplaces hfinite) h
    | scaled hmantissa hexponent hfinite => apply number (.scaled hmantissa hexponent hfinite) h
    | @string body contents hbody =>
      have hglues : glues (.string (String.ofList contents)) ('"' :: (body ++ ['"'])) glued = false := by
        cases glued <;> rfl
      rw [hglues] at h
      apply of_expands (by simp [isNumberPart, Token.isWordPart])
      simpa using Expands.string hbody h

end Continues

/-! ### Text that is kept as a whole -/

/-- A fragment with no name that has a meaning is replaced by the characters it was cut from. -/
theorem exists_scan_eq {first : Char} {rest : List Char} (hfirst : first ≠ '$')
    (hnames : ∀ name, d.find? name ≠ none → ¬name.toList <:+: first :: rest) :
  ∃ fragment n, (∀ line, scan line first rest = (fragment, n)) ∧ fragment.isText ∧
    fragment.replaced d = first :: rest.take n
  := by
  unfold scan
  simp only [if_neg hfirst]
  split
  · exact ⟨_, _, fun _ => rfl, rfl, rfl⟩
  split
  · exact ⟨_, _, fun _ => rfl, rfl, rfl⟩
  split
  · refine ⟨_, _, fun _ => rfl, rfl, ?_⟩
    have hword : (first :: rest.takeWhile Token.isWordPart) <:+: first :: rest :=
      (List.cons_prefix_cons.mpr ⟨rfl, List.takeWhile_prefix _⟩).isInfix
    have hmeaning : d.find? (String.ofList (first :: rest.takeWhile Token.isWordPart)) = none := by
      by_contra hfound
      apply hnames _ hfound
      rwa [String.toList_ofList]
    rw [replaced, Definitions.replace, hmeaning, Option.getD_none, String.toList_ofList,
      take_length_takeWhile]
  split
  · exact ⟨_, _, fun _ => rfl, rfl, rfl⟩
  · exact ⟨_, _, fun _ => rfl, rfl, rfl⟩

/-- A text in which nothing has a meaning is its own expansion. -/
theorem Expands.refl {text : List Char} (hdirective : '$' ∉ text)
    (hnames : ∀ name, d.find? name ≠ none → ¬name.toList <:+: text) :
  Expands d text text
  := by
  -- What is left after a fragment is shorter, and what does not occur in a text does not occur there.
  induction hlength : text.length using Nat.strongRecOn generalizing text with
  | ind length ih =>
    cases text with
    | nil => apply nil
    | cons first rest =>
      rw [List.mem_cons, not_or] at hdirective
      obtain ⟨fragment, n, hscan, htext, hkept⟩ := exists_scan_eq (Ne.symm hdirective.1) hnames
      have hrest : rest.drop n <:+ first :: rest :=
        (List.drop_suffix n rest).trans (List.suffix_cons ..)
      have hexpands : Expands d (rest.drop n) (rest.drop n) := by
        apply ih (rest.drop n).length _ _ _ rfl
        · rw [← hlength, List.length_drop, List.length_cons]
          omega
        · intro hmem
          apply hdirective.2 (List.mem_of_mem_drop hmem)
        · intro name hname hoccurs
          apply hnames name hname (hoccurs.trans hrest.isInfix)
      have happend := cons hscan htext hexpands
      rwa [hkept, List.cons_append, List.take_append_drop] at happend

end Fragment

/-- A text without a directive, in which no name with a meaning occurs, is expanded to itself. -/
theorem Session.expand_plain {s : Session} {text : String} (hdirective : '$' ∉ text.toList)
    (hnames : ∀ name, s.definitions.find? name ≠ none → ¬name.toList <:+: text.toList) :
  s.expand text = (.ok text, s)
  := by
  rw [Session.expand_of_expands (Fragment.Expands.refl hdirective hnames), String.ofList_toList]

/-- A text without directives or defined names is kept, also with an open comment, an open string
and characters that no token has. -/
theorem Session.expand_plain_unfinished :
  ((Session.start (.ofFiles [])).define "LIMIT" "3").expand
      "x ### 0x1LI.\\\n## 12é_a \"\\\n\"open \\\"" =
    (.ok "x ### 0x1LI.\\\n## 12é_a \"\\\n\"open \\\"",
      (Session.start (.ofFiles [])).define "LIMIT" "3")
  := by
  apply Session.expand_plain
  · decide +kernel
  · intro name hname hoccurs
    rw [Session.define, Definitions.find?_define] at hname
    have hword : name = "LIMIT" := by
      by_contra hne
      apply hname
      rw [if_neg hne]
      rfl
    subst hword
    -- The last letter of the name is nowhere in the text.
    have hmem : 'T' ∈ "x ### 0x1LI.\\\n## 12é_a \"\\\n\"open \\\"".toList := by
      apply hoccurs.subset
      decide +kernel
    revert hmem
    decide +kernel

end SilFront
