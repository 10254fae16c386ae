import Marginalia.Scan.Blocks
import Marginalia.Scan.Literal
import Marginalia.Scan.Remark

/-!
# Code in a scan

Code is read token by token. Only comments, strings, regular expressions, brackets, separators and
the headers of anchors at the start of statements matter; anything else is skipped up to the next
place where one of them may start.
-/

namespace Marginalia.Pass

/-- Add the anchor at the cursor to the outline and wait for its body. -/
def addAnchor (p : Pass) (r : Recognition) : Pass :=
  let q := p.consume (r.headerLength p.cursor.ahead)
  let depth := p.nesting.depth
  let anchor : Anchor :=
    ⟨r.kind, String.ofList r.name, q.cursor.spanFrom p.cursor.position⟩
  { q.emit (.anchor anchor depth) with pendingBody := some ⟨depth, p.cursor.lineIndent⟩ }

/-- Read the start of a statement: an anchor, or code to skip. -/
def statement (p : Pass) (g : Grammar) : Pass :=
  match g.recognise? p.cursor.ahead p.assembly.enclosingKind? with
  | some r => p.addAnchor r
  | none => { p.cancelBody with mode := .skip }

/-- Read a separator of statements. -/
def separator (p : Pass) (g : Grammar) (token : List Char) : Pass :=
  let p := (p.consume token.length).cancelBody
  { p with statementStart := p.inStatements g }

/-- Read the token at the cursor, which does not start with a blank. -/
def dispatch (p : Pass) (g : Grammar) : Pass :=
  if let some form := g.commentStart? p.cursor then { p with mode := .comment form }
  else if let some i := g.stringStart? p.cursor then
    { p with statementStart := false }.literal g i
  else if let some regex := g.regexLiteral? p.cursor then
    { p with statementStart := false }.consume regex.length
  else if let some i := g.blockClose? p.cursor then p.closeBlock g i
  else if let some i := g.blockOpen? p.cursor then p.openBlock g i
  else if let some opener := p.bodyOpener? g then p.openIndentBody opener
  else if let some token := g.statementEnd? p.cursor then p.separator g token
  else if p.statementStart then { p with statementStart := false }.statement g
  else { p with mode := .skip }

/-- Read the token at the cursor. The first one of a line may end indentation bodies. -/
def token (p : Pass) (g : Grammar) : Pass :=
  let p := if p.lineStart then { p with lineStart := false }.dedent g else p
  let p := p.dispatch g
  { p with lastEnd := p.cursor.position }

/-- Read a blank or a token. -/
def code (p : Pass) (g : Grammar) : Pass :=
  match p.cursor.peek? with
  | none => p
  | some c =>
    if c = '\n' then (p.consume 1).afterNewline g
    else if Text.isBlank c then p.consume 1
    else p.token g

/-! ## Skipping -/

/-- Whether skipping ends before the next character. -/
def skipEnds (p : Pass) (s : Setup) (c : Char) : Bool :=
  c = '\n' || (s.grammar.commentStart? p.cursor).isSome || (s.grammar.blockOpen? p.cursor).isSome ||
    (s.grammar.blockClose? p.cursor).isSome || (p.bodyOpener? s.grammar).isSome ||
    (s.options.skipLookahead = .statement && (s.grammar.statementEnd? p.cursor).isSome)

/-- The pass, with the cursor at the end of a token. -/
def markEnd (p : Pass) : Pass := { p with lastEnd := p.cursor.position }

/-- Skip one string literal, regular expression or character. -/
def skipStep (s : Setup) (p : Pass) : Option Pass :=
  match p.cursor.peek? with
  | none => none
  | some c =>
    if p.skipEnds s c then none
    else if let some i := s.grammar.stringStart? p.cursor then
      some (p.literal s.grammar i).markEnd
    else if let some regex := s.grammar.regexLiteral? p.cursor then
      some (p.consume regex.length).markEnd
    else if Text.isBlank c then some (p.consume 1)
    else some (p.consume 1).markEnd

/-- Skip the next character and what follows it up to where skipping ends. -/
def skip (p : Pass) (s : Setup) : Pass :=
  let p := (p.consume 1).markEnd
  { iterate (skipStep s) p.cursor.ahead.length p with mode := .code }

end Marginalia.Pass
