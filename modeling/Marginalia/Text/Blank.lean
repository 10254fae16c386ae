import Marginalia.Text.Ranges

/-!
# Blanks, lines and words

A blank is a character with the Unicode property `White_Space`. Only the newline ends a line.
-/

namespace Marginalia.Text

/-- The code points of blanks. -/
def blanks : Ranges :=
  [(9, 13), (32, 32), (0x85, 0x85), (0xA0, 0xA0), (0x1680, 0x1680), (0x2000, 0x200A),
   (0x2028, 0x2029), (0x202F, 0x202F), (0x205F, 0x205F), (0x3000, 0x3000)]

/-- A blank of any kind. -/
def isBlank (c : Char) : Bool := blanks.contains c.toNat

/-- A blank inside a line of code: a space or a tab. -/
def isInlineBlank (c : Char) : Bool := c = ' ' || c = '\t'

/-! ## Trimming -/

/-- The blanks a text starts with. -/
def indentation (s : List Char) : List Char := s.takeWhile isBlank

/-- The text without the blanks it starts with. -/
def trimStart (s : List Char) : List Char := s.dropWhile isBlank

/-- The text without the blanks it ends with. -/
def trimEnd (s : List Char) : List Char := (s.reverse.dropWhile isBlank).reverse

/-- The text without the blanks at both ends. -/
def trim (s : List Char) : List Char := trimEnd (trimStart s)

/-- Holds blanks only. -/
def isAllBlank (s : List Char) : Bool := s.all isBlank

theorem indentation_append_trimStart (s : List Char) : indentation s ++ trimStart s = s :=
  List.takeWhile_append_dropWhile

@[simp]
theorem trimStart_nil : trimStart [] = [] := rfl

@[simp]
theorem trimEnd_nil : trimEnd [] = [] := rfl

/-! ## Pieces -/

/-- The pieces of `s` between the characters that satisfy `p`, which are dropped. There is always
one piece more than there are separators. -/
def pieces (p : Char → Bool) : List Char → List (List Char)
  | [] => [[]]
  | c :: cs =>
    if p c then [] :: pieces p cs
    else match pieces p cs with
      | [] => [[c]]
      | w :: ws => (c :: w) :: ws

theorem pieces_ne_nil (p : Char → Bool) (s : List Char) : pieces p s ≠ [] := by
  cases s with
  | nil => simp [pieces]
  | cons c cs =>
    rw [pieces]
    split
    · simp
    · split <;> simp

/-- The lines of a text, without their newlines. -/
def lines (s : List Char) : List (List Char) := pieces (· = '\n') s

/-- Lines joined by newlines. -/
def unlines (ls : List (List Char)) : List Char := ['\n'].intercalate ls

/-- The maximal runs of non-blank characters. -/
def words (s : List Char) : List (List Char) := (pieces isBlank s).filter (!·.isEmpty)

/-- The words joined by single spaces. -/
def unwords (ws : List (List Char)) : List Char := [' '].intercalate ws

/-- The first line: what comes before the first newline. -/
def firstLine (s : List Char) : List Char := s.takeWhile (· ≠ '\n')

end Marginalia.Text
