/-!
# Blanks and comments

Between tokens stand blanks, line comments from `#` to the end of the line, and block comments
from `##` to the next `##`. A gap is a run of these; only a block comment can be left open.
-/

namespace SilFront

/-- Whether a character is blank between tokens. -/
def isBlank (c : Char) : Bool :=
  c == ' ' || c == '\t' || c == '\r' || c == '\n' || c == '\x0b' || c == '\x0c'

/-- A run of blanks and comments. -/
structure Gap where
  /-- The number of characters in the gap. -/
  length : Nat
  /-- The length of the block comment that the text ends in, if it is left open. -/
  unclosed : Option Nat
deriving DecidableEq, Repr

namespace Gap

/-- The gap with `n` more characters before it. -/
def after (n : Nat) (g : Gap) : Gap :=
  ⟨n + g.length, g.unclosed⟩

/-- Where the reader of a gap stands. -/
inductive Place where
  /-- Between comments. -/
  | blank
  /-- In a line comment. -/
  | line
  /-- In a block comment of which `n` characters are read. -/
  | block (n : Nat)
deriving DecidableEq, Repr

/-- The rest of a gap from a place on. -/
def scan : Place → List Char → Gap
  | .blank, '#' :: '#' :: rest => (scan (.block 2) rest).after 2
  | .blank, '#' :: rest => (scan .line rest).after 1
  | .blank, c :: rest => if isBlank c then (scan .blank rest).after 1 else ⟨0, none⟩
  | .line, c :: rest => (scan (if c = '\n' then .blank else .line) rest).after 1
  | .block _, '#' :: '#' :: rest => (scan .blank rest).after 2
  | .block n, _ :: rest => (scan (.block (n + 1)) rest).after 1
  | .block n, [] => ⟨0, some n⟩
  | _, [] => ⟨0, none⟩

/-- The gap at the beginning of a text. -/
def of (text : List Char) : Gap :=
  scan .blank text

/-- A gap that is left open is not empty. -/
theorem length_pos_of_unclosed {text : List Char} {n : Nat} (h : (of text).unclosed = some n) :
  0 < (of text).length ∧ 0 < text.length
  := by
  cases text with
  | nil => simp [of, scan] at h
  | cons c rest =>
    refine ⟨?_, Nat.succ_pos _⟩
    unfold of scan at h ⊢
    split at h
    · exact Nat.add_pos_left Nat.two_pos _
    · exact Nat.add_pos_left Nat.one_pos _
    · split at h
      · rename_i hblank
        rw [if_pos hblank]
        exact Nat.add_pos_left Nat.one_pos _
      · cases h
    all_goals contradiction

end Gap

end SilFront
