import Marginalia.Position
import Marginalia.Text.Blank

/-!
# Cursors

A cursor stands between the text behind it and the text ahead of it, and knows its position.
Lookahead reads the text ahead; consuming moves the cursor over it.
-/

namespace Marginalia

/-- A place in a text. -/
structure Cursor where
  position : Position := .start
  /-- The text behind the cursor, nearest character first. -/
  behind : List Char := []
  /-- The text ahead of the cursor. -/
  ahead : List Char
deriving DecidableEq, Repr

namespace Cursor

/-- A cursor at the start of a text. -/
def ofText (s : List Char) : Cursor := { ahead := s }

/-- The whole text. -/
def text (c : Cursor) : List Char := c.behind.reverse ++ c.ahead

/-- Whether nothing is ahead. -/
def atEnd (c : Cursor) : Bool := c.ahead.isEmpty

/-- The next character. -/
def peek? (c : Cursor) : Option Char := c.ahead.head?

/-- Whether a token comes next. An empty token never does. -/
def startsWith (c : Cursor) (token : List Char) : Bool :=
  !token.isEmpty && token.isPrefixOf c.ahead

/-- The text from the cursor to the end of its line. -/
def restOfLine (c : Cursor) : List Char := Text.firstLine c.ahead

/-- The part of the cursor's line behind the cursor. -/
def lineBehind (c : Cursor) : List Char := (c.behind.takeWhile (· ≠ '\n')).reverse

/-- The number of spaces and tabs that the cursor's line starts with. -/
def lineIndent (c : Cursor) : Nat :=
  ((c.lineBehind ++ c.ahead).takeWhile Text.isInlineBlank).length

/-- The last character behind the cursor that is not blank. -/
def lastSignificant? (c : Cursor) : Option Char := c.behind.find? (!Text.isBlank ·)

/-- The span from an earlier position to the cursor. -/
def spanFrom (c : Cursor) (start : Position) : Span := ⟨start, c.position⟩

/-! ## Consuming -/

/-- Move over the next `k` characters, or to the end. -/
def consume (c : Cursor) (k : Nat) : Cursor where
  position := c.position.after (c.ahead.take k)
  behind := (c.ahead.take k).reverse ++ c.behind
  ahead := c.ahead.drop k

/-- Move over the next character. -/
def bump (c : Cursor) : Cursor := c.consume 1

/-- Move over the next `n` bytes, on to the end of a character and no further than the end of the
text. Offsets are 64-bit words: there is no result where the sum of offset and count does not fit
in one, however little text is ahead. -/
def advance? (c : Cursor) (n : Nat) : Option Cursor :=
  if c.position.offset + n < wordBound then some (c.consume (Text.charsCovering n c.ahead))
  else none

@[simp]
theorem consume_zero (c : Cursor) : c.consume 0 = c := by
  simp [consume]

@[simp]
theorem consume_ahead (c : Cursor) (k : Nat) : (c.consume k).ahead = c.ahead.drop k := rfl

theorem consume_text (c : Cursor) (k : Nat) : (c.consume k).text = c.text := by
  simp [consume, text, List.append_assoc]

theorem consume_consume (c : Cursor) (j k : Nat) : (c.consume j).consume k = c.consume (j + k) := by
  simp only [consume, ← Position.after_append, List.drop_drop, List.take_add, List.reverse_append,
    List.append_assoc]

end Cursor

end Marginalia
