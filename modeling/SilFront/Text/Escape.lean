/-!
# Escaped characters

Two spellings that use printable ASCII only.

* `spell` names a single character in a message: the usual two-character escapes, and
  `\u` with the hexadecimal code point in braces for whatever is not printable.
* `Quoted.encode` writes the contents of a string literal: the escapes that a literal may hold,
  and `\x` with two hexadecimal digits for whatever is not printable. Only the low eight bits of
  a code point are written, which is all of it for the characters that a literal can denote.
-/

namespace SilFront.Text

/-- Whether a character is printable ASCII, the space included. -/
def isPrintable (c : Char) : Bool :=
  ' ' ≤ c && c ≤ '~'

/-- The value of a hexadecimal digit of either case. -/
def hexValue? (c : Char) : Option Nat :=
  if c.isDigit then some (c.toNat - '0'.toNat)
  else if 'a' ≤ c && c ≤ 'f' then some (c.toNat - 'a'.toNat + 10)
  else if 'A' ≤ c && c ≤ 'F' then some (c.toNat - 'A'.toNat + 10)
  else none

/-- The lower-case hexadecimal digits of a number. -/
def hexDigits (n : Nat) : List Char :=
  Nat.toDigits 16 n

/-- The spelling of one character in a message. -/
def spell (c : Char) : String :=
  match c with
  | '\t' => "\\t"
  | '\r' => "\\r"
  | '\n' => "\\n"
  | '\'' => "\\'"
  | '"' => "\\\""
  | '\\' => "\\\\"
  | c =>
    if isPrintable c then c.toString
    else "\\u\x7b" ++ String.ofList (hexDigits c.toNat) ++ "\x7d"

namespace Quoted

/-- The two hexadecimal digits of a byte. -/
def byteDigits (n : Nat) : List Char :=
  [Nat.digitChar (n / 16 % 16), Nat.digitChar (n % 16)]

/-- The spelling of one character inside a string literal. -/
def encodeChar (c : Char) : List Char :=
  match c with
  | '\\' => ['\\', '\\']
  | '"' => ['\\', '"']
  | '\n' => ['\\', 'n']
  | '\t' => ['\\', 't']
  | '\r' => ['\\', 'r']
  | c => if isPrintable c then [c] else '\\' :: 'x' :: byteDigits c.toNat

/-- The spelling of the contents of a string literal, without the quotes around it. -/
def encode (text : String) : String :=
  String.ofList (text.toList.flatMap encodeChar)

/-- The character that a one-letter escape stands for. -/
def decodeLetter? (c : Char) : Option Char :=
  match c with
  | 'a' => some '\x07'
  | 'b' => some '\x08'
  | 'e' => some '\x1b'
  | 'f' => some '\x0c'
  | 'n' => some '\n'
  | 'r' => some '\r'
  | 't' => some '\t'
  | 'v' => some '\x0b'
  | '\\' => some '\\'
  | '\'' => some '\''
  | '"' => some '"'
  | _ => none

end Quoted

end SilFront.Text
