/-!
# Source locations

A location is a line and a column, both counted from one in characters. The location of a
character is the one reached by reading every character before it: a newline opens the next
line, any other character moves one column on.

`Located` attaches the location where a thing was found.
-/

namespace SilFront

/-- A line and a column of a source text, both counted from one. -/
structure Location where
  line : Nat
  column : Nat
deriving DecidableEq, Repr

namespace Location

/-- The location of the first character of a text. -/
def start : Location :=
  ⟨1, 1⟩

/-- The location after one character. -/
def next (l : Location) (c : Char) : Location :=
  if c = '\n' then ⟨l.line + 1, 1⟩ else ⟨l.line, l.column + 1⟩

/-- The location after a run of characters. -/
def after (l : Location) (text : List Char) : Location :=
  text.foldl next l

/-- The wording of a location in messages. -/
def describe (l : Location) : String :=
  s!"line {l.line}, column {l.column}"

@[simp]
theorem after_nil (l : Location) :
  l.after [] = l
  := rfl

@[simp]
theorem after_cons (l : Location) (c : Char) (text : List Char) :
  l.after (c :: text) = (l.next c).after text
  := rfl

/-- Reading two runs in turn leads where reading both at once leads. -/
theorem after_append (l : Location) (first second : List Char) :
  l.after (first ++ second) = (l.after first).after second
  := List.foldl_append

end Location

/-- A thing together with the location where it was found. -/
structure Located (α : Type) where
  value : α
  location : Location
deriving DecidableEq, Repr

/-- The located thing with another value at the same location. -/
def Located.map {α β : Type} (f : α → β) (x : Located α) : Located β :=
  ⟨f x.value, x.location⟩

end SilFront
