import Marginalia.Assembly
import Marginalia.Comment.Tags
import Marginalia.Nesting
import Marginalia.Scan.Setup

/-!
# Passes

A pass is the state of one scan: a cursor, the open contexts, the outline in the making and a few
notes about the current statement and line. It keeps a journal of the events it has sent to the
outline.
-/

namespace Marginalia

/-- What a pass does next. -/
inductive Mode where
  /-- Look for comments, strings, blocks and anchors. -/
  | code
  /-- Read a comment that starts at the cursor. -/
  | comment (form : CommentForm)
  /-- Place the tags of a comment that has been read. -/
  | tags (comment : Comment)
  /-- Skip code that is of no interest. -/
  | skip
deriving DecidableEq, Repr

/-- An anchor that waits for its body to open. -/
structure PendingBody where
  depth : Nat
  /-- The indentation of the anchor's line. -/
  indent : Nat
deriving DecidableEq, Repr

/-- The state of a scan. -/
structure Pass where
  cursor : Cursor
  nesting : Nesting
  assembly : Assembly
  mode : Mode := .code
  /-- The next token may start a statement. -/
  statementStart : Bool := true
  /-- The next token is the first of its line. -/
  lineStart : Bool := true
  pendingBody : Option PendingBody := none
  /-- The end of the last token that is not blank. -/
  lastEnd : Position := .start
  diagnostics : List Diagnostic := []
  /-- The events sent to the outline, latest first. -/
  journal : List Event := []

namespace Pass

/-- The start of a scan. -/
def start (s : Setup) (source : List Char) : Pass where
  cursor := .ofText source
  nesting := { limit := s.options.maxDepth }
  assembly := .start source s.options.maxBlankLines

/-- The events sent to the outline, in order. -/
def events (p : Pass) : List Event := p.journal.reverse

/-- Send an event to the outline. -/
def emit (p : Pass) (e : Event) : Pass :=
  { p with assembly := p.assembly.apply e, journal := e :: p.journal }

/-- Report a diagnostic. -/
def report (p : Pass) (d : Diagnostic) : Pass := { p with diagnostics := p.diagnostics ++ [d] }

/-- Move over the next `k` characters. -/
def consume (p : Pass) (k : Nat) : Pass := { p with cursor := p.cursor.consume k }

/-- Read on inside a context that opens here, and close it again. -/
def inside (p : Pass) (c : Context) (read : Pass → Pass) : Pass :=
  let q := read { p with nesting := p.nesting.push c }
  { q with nesting := q.nesting.undo p.nesting.opening }

/-- A context that is opened and closed again leaves no trace, if what is read inside it leaves the
open contexts alone. -/
theorem inside_eq {p q : Pass} {c : Context} {read : Pass → Pass} (hq : q.nesting = p.nesting)
    (h : read { p with nesting := p.nesting.push c } = { q with nesting := p.nesting.push c }) :
    p.inside c read = q := by
  unfold inside
  rw [h]
  dsimp only
  rw [Nesting.undo_push, ← hq]

/-- Whether a newline or a separator starts a new statement here. -/
def inStatements (p : Pass) (g : Grammar) : Bool :=
  match p.nesting.top? with
  | none | some (.body _ _) => true
  | some (.block i _) => (g.pair i).holdsStatements
  | some (.literal _ _) | some (.comment _) => false

/-! ## The wait for a body -/

/-- Whether an anchor at this depth waits for its body. -/
def awaitsBody (p : Pass) : Bool := p.pendingBody.any (·.depth = p.nesting.depth)

/-- End the wait of an anchor at this depth. -/
def cancelBody (p : Pass) : Pass := if p.awaitsBody then { p with pendingBody := none } else p

/-- End the wait of an anchor deeper than this. -/
def dropStaleBody (p : Pass) : Pass :=
  if p.pendingBody.any (p.nesting.depth < ·.depth) then { p with pendingBody := none } else p

/-- Note that a newline has been consumed. -/
def afterNewline (p : Pass) (g : Grammar) : Pass :=
  let p := { p with lineStart := true, statementStart := p.statementStart || p.inStatements g }
  if g.newlineTerminates then p.cancelBody else p

/-- The opener of an indentation body that an anchor waits for. -/
def bodyOpener? (p : Pass) (g : Grammar) : Option (List Char) :=
  if p.awaitsBody then g.bodyOpener? p.cursor else none

end Pass

end Marginalia
