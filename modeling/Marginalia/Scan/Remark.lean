import Marginalia.Iteration
import Marginalia.Scan.Pass

/-!
# Comments in a scan

Line comments on consecutive lines with the same marker are one comment. A block comment lasts up
to its closer, or to the end of the text. The tags of a comment are sent to the outline.
-/

namespace Marginalia

/-! ## Line comments -/

/-- Read one line comment after its marker, up to the end of its line. -/
def Cursor.commentLine (c : Cursor) (marker : List Char) : CommentLine × Cursor :=
  let text := c.restOfLine
  (.strip c.position text (Comment.lineDecoration marker text), c.consume text.length)

/-- Read the comment with the same marker on the next line, if there is one. -/
def Cursor.nextCommentLine? (marker : List Char) (s : List CommentLine × Cursor) :
    Option (List CommentLine × Cursor) :=
  match s.2.ahead with
  | '\n' :: rest =>
    let blanks := (rest.takeWhile Text.isInlineBlank).length
    if marker.isPrefixOf (rest.drop blanks) then
      let (line, c) := (s.2.consume (1 + blanks + marker.length)).commentLine marker
      some (s.1 ++ [line], c)
    else none
  | _ => none

/-- Read a run of line comments with the same marker, up to the end of the last one's line. -/
def Cursor.lineComments (c : Cursor) (marker : List Char) : List CommentLine × Cursor :=
  let (line, c) := (c.consume marker.length).commentLine marker
  iterate (nextCommentLine? marker) c.ahead.length ([line], c)

/-! ## Block comments -/

/-- The content of a block comment, up to its closer, and whether there is one. -/
def blockContent (closer : List Char) : List Char → List Char × Bool
  | [] => ([], false)
  | c :: cs =>
    if !closer.isEmpty && closer.isPrefixOf (c :: cs) then ([], true)
    else let (content, closed) := blockContent closer cs; (c :: content, closed)

namespace Pass

/-- Read a run of line comments. -/
def lineComment (p : Pass) (g : Grammar) (marker : List Char) : Pass :=
  let (lines, c) := p.cursor.lineComments marker
  let q := p.inside (.comment p.cursor.position) fun p => { p with cursor := c }
  let q := if lines.length = 1 then q else q.afterNewline g
  { q with lastEnd := c.position, mode := .tags ⟨lines, c.spanFrom p.cursor.position⟩ }

/-- Read a block comment. -/
def blockComment (p : Pass) (opener closer : List Char) : Pass :=
  let c := p.cursor.consume opener.length
  let (content, closed) := blockContent closer c.ahead
  let stop := c.consume (content.length + if closed then closer.length else 0)
  let span := stop.spanFrom p.cursor.position
  let q := p.inside (.comment p.cursor.position) fun p =>
    let q := { p with cursor := stop }
    if closed then q
    else q.report
      { kind := .unterminatedComment
        span
        message := "comment never closed; closed at end of input" }
  { q with lastEnd := stop.position, mode := .tags ⟨Comment.blockLines content c.position, span⟩ }

/-- Read the comment at the cursor. -/
def readComment (p : Pass) (g : Grammar) : CommentForm → Pass
  | .line i => p.lineComment g (g.lineComment i)
  | .block i => p.blockComment (g.blockComment i).1 (g.blockComment i).2

/-- Send the tags of a comment to the outline. -/
def placeTags (p : Pass) (registry : Registry) (c : Comment) : Pass :=
  let parsed := c.tags registry
  let p := { p with diagnostics := p.diagnostics ++ parsed.flatMap (·.diagnostics), mode := .code }
  if parsed.isEmpty then p
  else p.emit (.comment (parsed.map (·.tag)) c.span p.nesting.depth)

end Pass

end Marginalia
