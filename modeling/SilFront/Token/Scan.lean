import SilFront.Token.Basic
import SilFront.Token.Error

/-!
# Reading one token

Each reader is given the characters after the first one of a lexeme, which tells what kind of
lexeme it is, and answers with the number of those characters that it used and what it made of
them. Nothing here knows about locations: an error fixes the character it blames relative to the
characters that were read.

Numbers are read greedily. Decimal digits may be followed by a fraction, an exponent or both, and
then denote a floating point number; a zero may be followed by a base mark and digits of that base.
-/

namespace SilFront

/-- What a reader made of the characters it used. -/
structure Scan (α : Type) where
  /-- The number of characters used. -/
  used : Nat
  result : Except LexicalError α

namespace Scan

/-- A reader's success. -/
def done {α : Type} (used : Nat) (value : α) : Scan α :=
  ⟨used, .ok value⟩

/-- A reader's failure. -/
def fail {α : Type} (used : Nat) (cause : LexicalError) : Scan α :=
  ⟨used, .error cause⟩

/-- The same scan with `n` more characters used before it. -/
def after {α : Type} (n : Nat) (s : Scan α) : Scan α :=
  ⟨n + s.used, s.result⟩

/-- The same scan with another value. -/
def map {α β : Type} (f : α → β) (s : Scan α) : Scan β :=
  ⟨s.used, s.result.map f⟩

end Scan

namespace Token

/-! ### Identifiers and keywords -/

/-- Whether a character may begin an identifier. -/
def isWordStart (c : Char) : Bool :=
  c.isAlpha || c == '_'

/-- Whether a character may continue an identifier. -/
def isWordPart (c : Char) : Bool :=
  c.isAlphanum || c == '_'

/-- The keyword or identifier with a spelling. -/
def ofWord (word : String) : Token :=
  match Keyword.ofText? word with
  | some k => .keyword k
  | none => .ident word

/-- The word that begins with `first`. -/
def scanWord (first : Char) (rest : List Char) : Scan Token :=
  let tail := rest.takeWhile isWordPart
  .done tail.length (ofWord (String.ofList (first :: tail)))

/-! ### String literals -/

/-- The contents of a string literal up to its closing quote, the opening one being read. -/
def scanString : List Char → Scan (List Char)
  | [] => .fail 0 .unclosedString
  | c :: rest =>
    if c = '"' then .done 1 []
    else if c = '\\' then
      match rest with
      | [] => .fail 1 .endInEscape
      | letter :: rest =>
        if letter = 'x' then
          match rest with
          | high :: low :: rest =>
            match Text.hexValue? high, Text.hexValue? low with
            | some h, some l => ((scanString rest).map (Char.ofNat (16 * h + l) :: ·)).after 4
            | some _, none => .fail 3 .shortHexEscape
            | none, _ => .fail 2 .shortHexEscape
          | [high] => .fail (if (Text.hexValue? high).isSome then 3 else 2) .shortHexEscape
          | [] => .fail 2 .shortHexEscape
        else
          match Text.Quoted.decodeLetter? letter with
          | some c => ((scanString rest).map (c :: ·)).after 2
          | none => .fail 2 (.unknownEscape letter)
    else if Text.isPrintable c then ((scanString rest).map (c :: ·)).after 1
    else .fail 0 (.unprintable c)

/-! ### Numbers -/

/-- The value of digits in a base, the first digit being the most significant one. -/
def digitsValue (base : Nat) (digits : List Char) : Nat :=
  digits.foldl (fun value c => value * base + (Text.hexValue? c).getD 0) 0

/-- The integer with a value, if 64 bits hold it. -/
def int64? (value : Nat) : Option Int64 :=
  if value < 0x8000000000000000 then some (Int64.ofNat value) else none

/-- Whether a character is a digit of a base. -/
def isDigitOf (radix : Radix) (c : Char) : Bool :=
  (Text.hexValue? c).any (· < radix.base)

/-- The digits of an integer after its base mark. -/
def scanRadix (radix : Radix) (rest : List Char) : Scan Number :=
  let digits := rest.takeWhile (isDigitOf radix)
  if digits.isEmpty then .fail 0 .noBaseDigits
  else match int64? (digitsValue radix.base digits) with
    | some n => .done digits.length (.int n)
    | none => .fail digits.length (.radixRange (String.ofList digits) radix)

/-- Whether a character marks an exponent. -/
def isExponentMark (c : Char) : Bool :=
  c == 'e' || c == 'E'

/-- The digits of an exponent, which has a sign. -/
def scanExponentDigits (sign : Int) (rest : List Char) : Scan Int :=
  let digits := rest.takeWhile Char.isDigit
  if digits.isEmpty then .fail 0 .noExponent
  else .done digits.length (sign * digitsValue 10 digits)

/-- The exponent after its mark. -/
def scanExponent : List Char → Scan Int
  | '+' :: rest => (scanExponentDigits 1 rest).after 1
  | '-' :: rest => (scanExponentDigits (-1) rest).after 1
  | rest => scanExponentDigits 1 rest

/-- The floating point number nearest to `digits * 10 ^ exponent`. -/
def decimalFloat (digits : Nat) (exponent : Int) : Float :=
  Float.ofScientific digits (exponent < 0) exponent.natAbs

/-- The floating point number with digits before and after the point, and an exponent. -/
def floatOf (whole fraction : List Char) (exponent : Int) : Float :=
  decimalFloat (digitsValue 10 (whole ++ fraction)) (exponent - fraction.length)

/-- The rest of a floating point number after its digits: an exponent or nothing. -/
def scanScale (whole fraction : List Char) : List Char → Scan Float
  | [] => .done 0 (floatOf whole fraction 0)
  | c :: rest =>
    if isExponentMark c then ((scanExponent rest).map (floatOf whole fraction)).after 1
    else .done 0 (floatOf whole fraction 0)

/-- The rest of a floating point number after its point. -/
def scanFraction (whole rest : List Char) : Scan Float :=
  let fraction := rest.takeWhile Char.isDigit
  if fraction.isEmpty then .fail 0 .noFraction
  else (scanScale whole fraction (rest.drop fraction.length)).after fraction.length

/-- The floating point number of a scan, if it is in range; `text` begins with its spelling. -/
def inRange (text : List Char) (s : Scan Float) : Scan Number :=
  match s.result with
  | .error cause => .fail s.used cause
  | .ok value =>
    if Decimal.isFinite value then .done s.used (.float value)
    else .fail s.used (.floatRange (String.ofList (text.take (s.used + 1))))

/-- The integer with decimal digits, the first of which is read. -/
def scanDecimal (whole : List Char) : Scan Number :=
  match int64? (digitsValue 10 whole) with
  | some n => .done (whole.length - 1) (.int n)
  | none => .fail (whole.length - 1) (.intRange (String.ofList whole))

/-- The number that begins with the digit `first`. -/
def scanNumber (first : Char) (rest : List Char) : Scan Number :=
  let digits := rest.takeWhile Char.isDigit
  let whole := first :: digits
  match rest.drop digits.length with
  | [] => scanDecimal whole
  | c :: tail =>
    match Radix.ofLetter? c with
    | some radix =>
      if whole = ['0'] then (scanRadix radix tail).after 1
      else .fail digits.length (.misplacedBase radix)
    | none =>
      if c = '.' then
        inRange (first :: rest) ((scanFraction whole tail).after (digits.length + 1))
      else if isExponentMark c then
        inRange (first :: rest) ((scanScale whole [] (c :: tail)).after digits.length)
      else scanDecimal whole

/-! ### Marks -/

/-- The mark `short`, or `long` if an equals sign follows. -/
def scanEquals (short long : Mark) : List Char → Scan Token
  | '=' :: _ => .done 1 (.mark long)
  | _ => .done 0 (.mark short)

/-- The mark or the error that a character with no other meaning gives. -/
def scanMark (first : Char) (rest : List Char) : Scan Token :=
  match first with
  | '=' => scanEquals .eq .eqEq rest
  | '<' => scanEquals .lt .le rest
  | '>' => scanEquals .gt .ge rest
  | '!' => match rest with
    | '=' :: _ => .done 1 (.mark .notEq)
    | _ => .fail 0 .loneBang
  | '+' => .done 0 (.mark .plus)
  | '-' => .done 0 (.mark .minus)
  | '*' => .done 0 (.mark .star)
  | '/' => .done 0 (.mark .slash)
  | '.' => .done 0 (.mark .dot)
  | ':' => .done 0 (.mark .colon)
  | ',' => .done 0 (.mark .comma)
  | ';' => .done 0 (.mark .semicolon)
  | '(' => .done 0 (.mark .lparen)
  | ')' => .done 0 (.mark .rparen)
  | '\x7b' => .done 0 (.mark .lbrace)
  | '\x7d' => .done 0 (.mark .rbrace)
  | c => .fail 0 (.unknownSymbol c)

/-- The token that begins with `first`. -/
def scan (first : Char) (rest : List Char) : Scan Token :=
  if first = '"' then (scanString rest).map fun contents => .string (String.ofList contents)
  else if first.isDigit then (scanNumber first rest).map .number
  else if isWordStart first then scanWord first rest
  else scanMark first rest

end Token

end SilFront
