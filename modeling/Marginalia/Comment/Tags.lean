import Marginalia.Comment.Arguments
import Marginalia.Comment.Lines
import Marginalia.Tag.Registry

/-!
# Tags of a comment

A tag starts on a line whose content opens with an at sign and a name. It lasts up to the line
that starts the next tag, or to the end of the comment.
-/

namespace Marginalia

/-- A character a tag's name may start with. -/
def isTagNameStart (c : Char) : Bool := c.isAlpha || c = '_'

/-- A character a tag's name may go on with. -/
def isTagNamePart (c : Char) : Bool := c.isAlphanum || c = '_'

namespace CommentLine

/-- The name of the tag that a line starts. -/
def tagName? (l : CommentLine) : Option (List Char) :=
  match Text.trimStart l.text with
  | '@' :: c :: cs => if isTagNameStart c then some (c :: cs.takeWhile isTagNamePart) else none
  | _ => none

/-- Whether a line starts a tag. -/
def startsTag (l : CommentLine) : Bool := l.tagName?.isSome

end CommentLine

/-- The lines of a tag: the one that starts it, those that continue it, and the index of the first
line after it. -/
structure TagLines where
  first : CommentLine
  continuation : List CommentLine
  next : Nat
deriving DecidableEq, Repr

/-- The tags of lines, the first of which has the given index, each with its lines. -/
def TagLines.ofLines (index : Nat) : List CommentLine → List TagLines
  | [] => []
  | l :: ls =>
    if l.startsTag then
      let continuation := ls.takeWhile (!·.startsTag)
      ⟨l, continuation, index + 1 + continuation.length⟩ :: ofLines (index + 1) ls
    else ofLines (index + 1) ls

/-- A tag with what is wrong with it. -/
structure ParsedTag where
  tag : Tag
  diagnostics : List Diagnostic
deriving DecidableEq, Repr

namespace TagLines

/-- The common indentation in bytes of the lines that are not blank. -/
def commonIndent (ls : List CommentLine) : Nat :=
  ((ls.filter (!Text.isAllBlank ·.text)).map
    (Text.byteSize <| Text.indentation ·.text)).min?.getD 0

/-- The body of a tag: what the header leaves, then the lines that continue it without their common
indentation. A line that cannot be cut there loses its own. -/
def body (rest : List Char) (continuation : List CommentLine) : List Char :=
  let common := commonIndent continuation
  Text.trim (Text.unlines (Text.trim rest :: continuation.map fun l =>
    Text.trimEnd ((Text.dropBytes? common l.text).getD (Text.trimStart l.text))))

/-- The header of a tag, without the blanks around it. -/
def header (t : TagLines) : List Char := Text.trim t.first.text

/-- Where a tag starts: at its at sign. -/
def start (t : TagLines) : Position := t.first.start.after (Text.indentation t.first.text)

/-- The span of a tag's header. -/
def headerSpan (t : TagLines) : Span := ⟨t.start, t.start.after t.header⟩

/-- The last line of a tag. -/
def last (t : TagLines) : CommentLine := t.continuation.getLast?.getD t.first

/-- The span of a tag. -/
def span (t : TagLines) : Span := ⟨t.start, t.last.stop⟩

/-- The tag that lines make. A tag that is not registered is kept, with a diagnostic. -/
def parse (registry : Registry) (t : TagLines) : ParsedTag :=
  let chars := t.first.tagName?.getD []
  let name := String.ofList chars
  let definition := registry.get? name
  let reading := Arguments.read ⟨name, t.headerSpan⟩ definition (t.header.drop (1 + chars.length))
  { tag :=
      { name
        arguments := reading.arguments
        body := String.ofList (body reading.rest t.continuation)
        span := t.span
        placement := definition.elim .nextAnchor (·.placement) }
    diagnostics :=
      if definition.isSome then reading.diagnostics
      else { kind := .unknownTag, span := t.headerSpan, message := s!"unknown tag @{name}" } ::
        reading.diagnostics }

end TagLines

namespace Comment

/-- Whether a tag may stand only once in a comment. -/
def isOnce (registry : Registry) (t : Tag) : Bool :=
  (registry.get? t.name).any (·.multiplicity = .zeroOrOne)

/-- The diagnostic of a tag that stands more than once. -/
def duplicate (t : Tag) : Diagnostic where
  kind := .duplicateTag
  span := t.span
  message := s!"@{t.name} given more than once in one comment"

/-- The tags of lines and what is wrong with them, after tags that may stand only once with the
names `seen`. -/
def tagsAfter (registry : Registry) (seen : List String) : List TagLines → List ParsedTag
  | [] => []
  | t :: ts =>
    let p := t.parse registry
    if isOnce registry p.tag then
      if seen.contains p.tag.name then
        { p with diagnostics := p.diagnostics ++ [duplicate p.tag] } :: tagsAfter registry seen ts
      else p :: tagsAfter registry (p.tag.name :: seen) ts
    else p :: tagsAfter registry seen ts

/-- The tags of a comment and what is wrong with them. -/
def tags (registry : Registry) (c : Comment) : List ParsedTag :=
  tagsAfter registry [] (TagLines.ofLines 0 c.lines)

end Comment

end Marginalia
