import SilFront.Location
import SilFront.Token.Gap
import SilFront.Token.Scan

/-!
# The tokens of a text

A cursor is the unread part of a text with its location. `Cursor.next` reads one token; it goes on
from where it stopped after an error too, and answers with the end of the text for ever once
everything is read.

`Cursor.steps` lists everything that reading answers before the end. It is finite, since every step
but the last uses up a character (`Cursor.next?_rest_length`), and a `TokenStream` is that list with
the location of the end.
-/

namespace SilFront

/-- What reading one token answers. -/
abbrev Step :=
  Except (Located LexicalError) (Located Token)

/-- The unread part of a text. -/
structure Cursor where
  rest : List Char
  location : Location
deriving DecidableEq, Repr

namespace Cursor

/-- The cursor at the beginning of a text. -/
def ofText (text : String) : Cursor :=
  ⟨text.toList, .start⟩

/-- The location of the character `n` places ahead. -/
def locationAt (c : Cursor) (n : Nat) : Location :=
  c.location.after (c.rest.take n)

/-- The cursor `n` characters on. -/
def advance (c : Cursor) (n : Nat) : Cursor :=
  ⟨c.rest.drop n, c.locationAt n⟩

/-- The location of the character that an error blames, in a lexeme at the cursor of which `n`
characters are read. -/
def blamed (c : Cursor) (n : Nat) : Blame → Location
  | .first => c.location
  | .next => c.locationAt n
  | .last => c.locationAt (n - 1)

/-- The cursor after the gap at the cursor. -/
def skip (c : Cursor) : Cursor :=
  c.advance (Gap.of c.rest).length

/-- The token or error that begins with `first` at the cursor, and the cursor after it. -/
def read (c : Cursor) (first : Char) (rest : List Char) : Step × Cursor :=
  let lexeme := Token.scan first rest
  let step := match lexeme.result with
    | .ok token => .ok ⟨token, c.location⟩
    | .error cause => .error ⟨cause, c.blamed (lexeme.used + 1) cause.blame⟩
  (step, c.advance (lexeme.used + 1))

/-- The next token or error with the cursor after it, and nothing at the end of the text. -/
def next? (c : Cursor) : Option (Step × Cursor) :=
  match (Gap.of c.rest).unclosed, c.skip.rest with
  | some n, _ =>
    some (.error ⟨.unclosedComment, c.locationAt ((Gap.of c.rest).length - n)⟩, c.skip)
  | none, [] => none
  | none, first :: rest => some (c.skip.read first rest)

/-- The next token or error with the cursor after it. -/
def next (c : Cursor) : Step × Cursor :=
  c.next?.getD (.ok ⟨.eof, c.skip.location⟩, c.skip)

@[simp]
theorem rest_advance (c : Cursor) (n : Nat) :
  (c.advance n).rest = c.rest.drop n
  := rfl

@[simp]
theorem rest_read (c : Cursor) (first : Char) (rest : List Char) :
  (c.read first rest).2.rest = c.rest.drop ((Token.scan first rest).used + 1)
  := rfl

/-- Every token and every error uses up a character. -/
theorem next?_rest_length {c c' : Cursor} {step : Step} (h : c.next? = some (step, c')) :
  c'.rest.length < c.rest.length
  := by
  unfold next? at h
  split at h
  · rename_i n hn
    obtain ⟨_, rfl⟩ := by simpa using h
    have := Gap.length_pos_of_unclosed hn
    simp only [skip, rest_advance, List.length_drop]
    omega
  · simp at h
  · rename_i first rest _ hrest
    have hlen : (first :: rest).length ≤ c.rest.length := by
      rw [← hrest, skip, rest_advance, List.length_drop]
      omega
    have hc' : c' = (c.skip.read first rest).2 := by simp_all
    rw [hc', rest_read, hrest, List.length_drop]
    simp only [List.length_cons] at hlen ⊢
    omega

/-- Everything that reading answers before the end of the text. -/
def steps (c : Cursor) : List Step :=
  match _h : c.next? with
  | none => []
  | some (step, c') => step :: c'.steps
termination_by c.rest.length
decreasing_by exact next?_rest_length _h

end Cursor

/-- What reading a text answers, and the location of its end. -/
structure TokenStream where
  steps : List Step
  finish : Location

namespace TokenStream

/-- The tokens of a text. -/
def ofText (text : String) : TokenStream :=
  ⟨(Cursor.ofText text).steps, Location.start.after text.toList⟩

/-- The first answer with the rest of the stream, which ends in the end of the text for ever. -/
def next (s : TokenStream) : Step × TokenStream :=
  match s.steps with
  | [] => (.ok ⟨.eof, s.finish⟩, s)
  | step :: rest => (step, ⟨rest, s.finish⟩)

/-- The number of tokens before the first error or the end of the text. -/
def ahead (s : TokenStream) : Nat :=
  (s.steps.takeWhile Except.isOk).length

/-- All tokens with the end of the text, or the first error. -/
def tokens (s : TokenStream) : Except (Located LexicalError) (List (Located Token)) := do
  let tokens ← s.steps.mapM id
  return tokens ++ [⟨.eof, s.finish⟩]

end TokenStream

/-- The tokens of a text, the end included, or its first lexical error. -/
def tokenize (text : String) : Except (Located LexicalError) (List (Located Token)) :=
  (TokenStream.ofText text).tokens

end SilFront
