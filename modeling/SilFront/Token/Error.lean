import SilFront.Text.Escape

/-!
# Lexical errors

The reasons for which a text cannot be cut into tokens. A reason fixes which character is blamed:
the first one of the lexeme, or one close to where reading stopped.
-/

namespace SilFront

/-- The bases that an integer can be written in with a base mark. -/
inductive Radix where
  | hex
  | oct
  | bin
deriving DecidableEq, Repr

namespace Radix

/-- The letter that marks a base. -/
def letter : Radix → Char
  | .hex => 'x'
  | .oct => 'o'
  | .bin => 'b'

/-- The base as a number. -/
def base : Radix → Nat
  | .hex => 16
  | .oct => 8
  | .bin => 2

/-- The name of a base in messages. -/
def name : Radix → String
  | .hex => "hex"
  | .oct => "oct"
  | .bin => "bin"

/-- The base that a letter marks. -/
def ofLetter? : Char → Option Radix
  | 'x' => some .hex
  | 'o' => some .oct
  | 'b' => some .bin
  | _ => none

end Radix

/-- The reasons for which reading a token fails. -/
inductive LexicalError where
  | unclosedComment
  | unclosedString
  | unprintable (c : Char)
  | endInEscape
  | shortHexEscape
  | unknownEscape (c : Char)
  | misplacedBase (radix : Radix)
  | noBaseDigits
  | noFraction
  | noExponent
  | intRange (digits : String)
  | radixRange (digits : String) (radix : Radix)
  | floatRange (text : String)
  | loneBang
  | unknownSymbol (c : Char)
deriving DecidableEq, Repr

/-- The character that an error blames. -/
inductive Blame where
  /-- The first character of the lexeme. -/
  | first
  /-- The character at which reading stopped, which is not read any more. -/
  | next
  /-- The last character that was read. -/
  | last
deriving DecidableEq, Repr

namespace LexicalError

/-- The wording of a lexical error. -/
def message : LexicalError → String
  | .unclosedComment => "Unterminated block comment"
  | .unclosedString => "Unterminated string literal"
  | .unprintable c => "Non-printable symbol inside a string: '" ++ Text.spell c ++ "'"
  | .endInEscape => "Unexpected end of file in string literal"
  | .shortHexEscape => "Hex escape must have exactly two hex digits"
  | .unknownEscape c => "Unknown escape sequence: \\" ++ Text.spell c
  | .misplacedBase r => s!"Number in {r.name} base must be lead by \"0{r.letter}\""
  | .noBaseDigits => "Expected digits after base prefix"
  | .noFraction => "Expected digit after decimal point"
  | .noExponent => "Expected digit in exponent"
  | .intRange digits => s!"Integer literal out of range: {digits}"
  | .radixRange digits r => s!"Integer literal out of range: {digits} (base {r.base})"
  | .floatRange text => s!"Float literal out of range: {text}"
  | .loneBang => "Expected '=' after '!'"
  | .unknownSymbol c => "Unexpected symbol: '" ++ Text.spell c ++ "'"

/-- The character that a lexical error blames. -/
def blame : LexicalError → Blame
  | .unprintable _ | .endInEscape | .shortHexEscape => .next
  | .misplacedBase _ | .noFraction | .noExponent => .next
  | .unknownEscape _ => .last
  | _ => .first

end LexicalError

end SilFront
