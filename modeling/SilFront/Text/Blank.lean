/-!
# White space

The characters with the Unicode property `White_Space`, as ranges of code points, and the
three blanks that may stand inside a line.
-/

namespace SilFront.Text

/-- The ranges of code points with the property `White_Space`, in increasing order. -/
def whiteSpace : List (Nat × Nat) :=
  [(0x09, 0x0D), (0x20, 0x20), (0x85, 0x85), (0xA0, 0xA0), (0x1680, 0x1680), (0x2000, 0x200A),
   (0x2028, 0x2029), (0x202F, 0x202F), (0x205F, 0x205F), (0x3000, 0x3000)]

/-- Whether a character is white space. -/
def isWhiteSpace (c : Char) : Bool :=
  whiteSpace.any fun (first, last) => first ≤ c.toNat && c.toNat ≤ last

/-- Whether a character is a blank within a line: a space, a tab or a carriage return. -/
def isInlineBlank (c : Char) : Bool :=
  c == ' ' || c == '\t' || c == '\r'

/-- The text without the white space at its end. -/
def trimEnd (text : List Char) : List Char :=
  (text.reverse.dropWhile isWhiteSpace).reverse

/-- The number of newlines in a text. -/
def newlines (text : List Char) : Nat :=
  text.count '\n'

end SilFront.Text
