import SilFront.Number
import SilFront.Text.Escape

/-!
# Tokens

The words of the language: numbers, string literals, identifiers, keywords and marks. Two more
stand for values that no source text can spell, the accumulator of the expression at hand and the
value that the last call returned, and one stands for the end of the text.
-/

namespace SilFront

/-- The reserved words. -/
inductive Keyword where
  | func | pack
  | byte | int | float | void
  | ifWord | elseWord | whileWord | forWord
  | returnWord
deriving DecidableEq, Repr

namespace Keyword

/-- The spelling of a reserved word. -/
def text : Keyword → String
  | .func => "func"
  | .pack => "pack"
  | .byte => "byte"
  | .int => "int"
  | .float => "float"
  | .void => "void"
  | .ifWord => "if"
  | .elseWord => "else"
  | .whileWord => "while"
  | .forWord => "for"
  | .returnWord => "return"

/-- Every reserved word. -/
def all : List Keyword :=
  [.func, .pack, .byte, .int, .float, .void, .ifWord, .elseWord, .whileWord, .forWord, .returnWord]

/-- The reserved word with a spelling. -/
def ofText? (word : String) : Option Keyword :=
  all.find? fun k => k.text = word

end Keyword

/-- The operator and punctuation marks. -/
inductive Mark where
  | plus | minus | star | slash
  | eqEq | notEq | lt | le | gt | ge
  | eq | dot | colon | comma | semicolon
  | lparen | rparen | lbrace | rbrace
deriving DecidableEq, Repr

namespace Mark

/-- The spelling of a mark. -/
def text : Mark → String
  | .plus => "+"
  | .minus => "-"
  | .star => "*"
  | .slash => "/"
  | .eqEq => "=="
  | .notEq => "!="
  | .lt => "<"
  | .le => "<="
  | .gt => ">"
  | .ge => ">="
  | .eq => "="
  | .dot => "."
  | .colon => ":"
  | .comma => ","
  | .semicolon => ";"
  | .lparen => "("
  | .rparen => ")"
  | .lbrace => "\x7b"
  | .rbrace => "\x7d"

/-- The operator that a mark denotes. -/
def operator? : Mark → Option BinaryOp
  | .plus => some .add
  | .minus => some .sub
  | .star => some .mul
  | .slash => some .div
  | .lt => some .lt
  | .le => some .le
  | .gt => some .gt
  | .ge => some .ge
  | .eqEq => some .eq
  | .notEq => some .ne
  | _ => none

end Mark

/-- A token, without its location. -/
inductive Token where
  | number (value : Number)
  | string (value : String)
  | ident (name : String)
  | keyword (word : Keyword)
  | mark (mark : Mark)
  | accumulator
  | returnValue
  | eof
deriving DecidableEq

namespace Token

/-- The wording of a token in messages. -/
def describe : Token → String
  | .number (.int n) => "int literal " ++ (Number.int n).text
  | .number (.float x) => "float literal " ++ (Number.float x).text
  | .string s => "string literal \"" ++ Text.Quoted.encode s ++ "\""
  | .ident name => s!"identifier '{name}'"
  | .keyword k => s!"'{k.text}'"
  | .mark m => s!"'{m.text}'"
  | .accumulator => "accumulator"
  | .returnValue => "return value"
  | .eof => "end of file"

/-- Whether a token is a reserved word. -/
def isKeyword : Token → Bool
  | .keyword _ => true
  | _ => false

/-- The operator that a token denotes. -/
def operator? : Token → Option BinaryOp
  | .mark m => m.operator?
  | _ => none

/-- The number that a token is. -/
def number? : Token → Option Number
  | .number n => some n
  | _ => none

end Token

end SilFront
