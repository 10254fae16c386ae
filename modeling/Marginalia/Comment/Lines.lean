import Marginalia.Position
import Marginalia.Text.Blank

/-!
# Comment lines

A comment is read as lines of content. The markers around it and the decoration at the start of
its lines are not content.
-/

namespace Marginalia

/-- A line of a comment's content. -/
structure CommentLine where
  text : List Char
  /-- Where the content starts. -/
  start : Position
deriving DecidableEq, Repr

/-- A block comment, or a run of line comments. -/
structure Comment where
  lines : List CommentLine
  span : Span
deriving DecidableEq, Repr

namespace CommentLine

/-- The content of a line that starts at `p`, without its first `k` characters. -/
def strip (p : Position) (line : List Char) (k : Nat) : CommentLine :=
  ⟨line.drop k, p.after (line.take k)⟩

/-- Where the content ends, blanks at its end set aside. -/
def stop (l : CommentLine) : Position := l.start.after (Text.trimEnd l.text)

end CommentLine

namespace Comment

/-- The length of a decoration made of the given characters and one space. -/
def decoration (p : Char → Bool) (line : List Char) : Nat :=
  let marks := (line.takeWhile p).length
  if (line.drop marks).head? = some ' ' then marks + 1 else marks

/-- The decoration of a line comment repeats the last character of its marker or exclaims. -/
def lineDecoration (marker text : List Char) : Nat :=
  decoration (fun c => some c = marker.getLast? || c = '!') text

/-! ## Block comments -/

/-- Whether every line after the first that is not blank starts with a star. -/
def hasGutter (lines : List (List Char)) : Bool :=
  (lines.drop 1).all fun l => Text.isAllBlank l || (Text.trimStart l).head? = some '*'

/-- The length of a gutter: blanks, a star and one space. -/
def gutter (line : List Char) : Nat :=
  let blanks := (Text.indentation line).length
  match line.drop blanks with
  | '*' :: ' ' :: _ => blanks + 2
  | '*' :: _ => blanks + 1
  | _ => blanks

/-- Lines of a block comment from `p` on, each without the characters that `k` counts. -/
def stripLines (k : List Char → Nat) : Position → List (List Char) → List CommentLine
  | _, [] => []
  | p, l :: ls => .strip p l (k l) :: stripLines k ((p.after l).step '\n') ls

/-- The lines of a block comment's content, which starts at `p`. The first line loses its stars,
the others their gutter if they all have one. -/
def blockLines (content : List Char) (p : Position) : List CommentLine :=
  match Text.lines content with
  | [] => []
  | l :: ls =>
    .strip p l (decoration (fun c => c = '*' || c = '!') l) ::
      stripLines (fun m => if hasGutter (l :: ls) then gutter m else 0)
        ((p.after l).step '\n') ls

end Comment

end Marginalia
