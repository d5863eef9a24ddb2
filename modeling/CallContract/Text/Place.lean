import CallContract.Text.Utf8

/-!
# Places in a text

A text is read from left to right as a list of characters, and a place in it is told by what is left
to read there. People are told lines and columns, which count bytes of the encoded text.
-/

namespace CallContract

/-- The place `ahead` bytes into what is left of a text, or its end if that is nearer. -/
structure Place where
  left : List Char
  ahead : Nat
  deriving DecidableEq, Repr

/-- A line, from one, and the number of bytes before the place on that line. -/
structure Position where
  line : Nat
  column : Nat
  deriving DecidableEq, Repr

namespace Place

/-- Where the reader stands. -/
def here (left : List Char) : Place := ⟨left, 0⟩

/-- One byte further. -/
def past (left : List Char) : Place := ⟨left, 1⟩

/-- The number of bytes before a place. -/
def offset (text : List Char) (p : Place) : Nat := utf8Size text - (utf8Size p.left - p.ahead)

def position (text : List Char) (p : Place) : Position :=
  let before := (utf8 text).take (p.offset text)
  ⟨1 + before.count 10, (before.reverse.takeWhile (· ≠ 10)).length⟩

end Place

/-- The words that tell a position. -/
def Position.text (p : Position) : String :=
  "line " ++ toString p.line ++ " column " ++ toString p.column

end CallContract
