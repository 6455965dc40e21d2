import SilFront.Text.Blank
import SilFront.Token.Scan

/-!
# Fragments of a source text

Before its tokens are read, a text is cut into fragments: words, which may have been given another
meaning, directives that give a word a meaning or call for the text of another file, and everything
else, which is kept as it is. Strings and comments are kept whole, and so are numbers with every
letter that follows them, so that no word is ever found inside them.

The cut does not depend on what words mean. It ends at the first directive that cannot be read.
-/

namespace SilFront

/-- The reasons for which a directive cannot be read, each with its line. -/
inductive DirectiveError where
  | unknownCommand (command : String) (line : Nat)
  | missingInclude (line : Nat)
  | unclosedInclude (line : Nat)
  | missingName (line : Nat)
deriving DecidableEq, Repr

/-- The wording of a reason. -/
def DirectiveError.message : DirectiveError → String
  | .unknownCommand command line =>
    s!"Unexpected preprocessor command '${command}' at line {line}"
  | .missingInclude line => s!"Expected file to include at line {line}"
  | .unclosedInclude line => s!"Expected '\"' when including file at line {line}"
  | .missingName line => s!"Expected variable name to be defined at line {line}"

/-- A fragment of a source text. -/
inductive Fragment where
  /-- Text that is kept as it is. -/
  | plain (text : List Char)
  /-- A word, which may have a meaning. -/
  | word (name : String)
  /-- A directive that gives a word a meaning. -/
  | definition (name meaning : String)
  /-- A directive that calls for the text of a file. -/
  | inclusion (file : String)
  /-- A directive that cannot be read. -/
  | fault (cause : DirectiveError)
deriving DecidableEq, Repr

namespace Fragment

/-! ### Text that is kept -/

/-- The number of characters of a string after its opening quote: up to the closing quote, or to the
end of the line. -/
def stringLength : List Char → Nat
  | [] => 0
  | '\n' :: _ => 0
  | '"' :: _ => 1
  | ['\\'] => 1
  | '\\' :: '\n' :: _ => 1
  | '\\' :: _ :: rest => stringLength rest + 2
  | _ :: rest => stringLength rest + 1

/-- The number of characters of a block comment after its opening mark. -/
def blockLength : List Char → Nat
  | [] => 0
  | '#' :: '#' :: _ => 2
  | _ :: rest => blockLength rest + 1

/-- The number of characters of a comment after its first one. -/
def commentLength : List Char → Nat
  | '#' :: rest => blockLength rest + 1
  | rest => (rest.takeWhile (· ≠ '\n')).length

/-- Whether a character may continue a number, or letters that follow it. -/
def isNumberPart (c : Char) : Bool :=
  Token.isWordPart c || c == '.'

/-! ### Directives -/

/-- A directive that calls for a file, after its command, with the number of its characters. -/
def scanInclusion (line : Nat) (rest : List Char) : Fragment × Nat :=
  let blanks := rest.takeWhile Text.isWhiteSpace
  let line := line + Text.newlines blanks
  match rest.drop blanks.length with
  | '"' :: rest =>
    let file := rest.takeWhile fun c => c ≠ '"' ∧ c ≠ '\n'
    match rest.drop file.length with
    | '"' :: _ => (.inclusion (String.ofList file), blanks.length + file.length + 2)
    | _ => (.fault (.unclosedInclude line), 0)
  | _ => (.fault (.missingInclude line), 0)

/-- A directive that gives a word a meaning, after its command, with the number of its characters.
The meaning is the rest of the line without white space at its end, and the directive takes the
newline too. -/
def scanDefinition (line : Nat) (rest : List Char) : Fragment × Nat :=
  let blanks := (rest.takeWhile Text.isInlineBlank).length
  let name := (rest.drop blanks).takeWhile fun c => !Text.isWhiteSpace c
  let rest := rest.drop (blanks + name.length)
  if name.isEmpty then (.fault (.missingName line), 0)
  else
    let gap := (rest.takeWhile Text.isInlineBlank).length
    let meaning := (rest.drop gap).takeWhile (· ≠ '\n')
    (.definition (String.ofList name) (String.ofList (Text.trimEnd meaning)),
      blanks + name.length + gap + meaning.length + 1)

/-- A directive, after its first character, with the number of its characters. -/
def scanDirective (line : Nat) (rest : List Char) : Fragment × Nat :=
  let command := rest.takeWhile fun c => !Text.isWhiteSpace c
  let after := rest.drop command.length
  let (fragment, n) :=
    match String.ofList command with
    | "inc" => scanInclusion line after
    | "def" => scanDefinition line after
    | unknown => (.fault (.unknownCommand unknown line), 0)
  (fragment, command.length + n)

/-! ### The cut -/

/-- The fragment that begins with `first` on a line, with the number of its further characters. -/
def scan (line : Nat) (first : Char) (rest : List Char) : Fragment × Nat :=
  let kept (n : Nat) : Fragment × Nat := (.plain (first :: rest.take n), n)
  if first = '$' then scanDirective line rest
  else if first = '"' then kept (stringLength rest)
  else if first = '#' then kept (commentLength rest)
  else if Token.isWordStart first then
    let tail := rest.takeWhile Token.isWordPart
    (.word (String.ofList (first :: tail)), tail.length)
  else if first.isDigit then kept (rest.takeWhile isNumberPart).length
  else kept 0

/-- The fragments of a text that begins on a line. -/
def cut (line : Nat) (text : List Char) : List Fragment :=
  match text with
  | [] => []
  | first :: rest =>
    match scan line first rest with
    | (.fault cause, _) => [.fault cause]
    | (fragment, n) =>
      fragment :: cut (line + Text.newlines (first :: rest.take n)) (rest.drop n)
termination_by text.length
decreasing_by
  rw [List.length_drop, List.length_cons]
  omega

/-- The fragments of a whole text. -/
def ofText (text : String) : List Fragment :=
  cut 1 text.toList

/-- The file that a fragment calls for. -/
def file? : Fragment → Option String
  | .inclusion file => some file
  | _ => none

/-- The files that a text calls for. -/
def files (text : String) : List String :=
  (ofText text).filterMap file?

end Fragment

end SilFront
