import Marginalia.Outline
import Marginalia.Text.Blank

/-!
# Assembling an outline

An outline is assembled from the events of a scan, in source order. The anchors whose bodies are
open form a stack of frames. Tags for the next anchor wait, with the depth of their comment, until
an anchor at that depth takes them. Tags that stop waiting stay in place on no anchor, or go to the
unresolved tags; none is dropped.
-/

namespace Marginalia

/-- Tags that wait for the next anchor. -/
structure Waiting where
  tags : List Tag
  comment : Span
  depth : Nat
deriving DecidableEq, Repr

/-- An anchor whose body is open. -/
structure Frame where
  node : Node
  /-- The place among the parent's children that the node goes back to. -/
  slot : Nat
deriving Repr

/-- An outline in the making. -/
structure Assembly where
  source : List Char
  maxBlankLines : Nat
  root : Node := {}
  /-- The anchors whose bodies are open, innermost first. -/
  frames : List Frame := []
  /-- The tags that wait, latest first. -/
  waiting : List Waiting := []
  unresolved : List Tag := []
  /-- The place of the latest anchor among the children of the innermost open node. -/
  lastAnchor : Option Nat := none
  diagnostics : List Diagnostic := []
deriving Repr

/-- What an outline is assembled from. -/
inductive Event where
  /-- The tags of a comment, with its span and depth. -/
  | comment (tags : List Tag) (span : Span) (depth : Nat)
  /-- An anchor at a depth. -/
  | anchor (anchor : Anchor) (depth : Nat)
  /-- A bracket that opens, by its pair. -/
  | bracketOpened (pair : Nat) (position : Position)
  /-- A bracket that closes, by its pair. -/
  | bracketClosed (pair : Nat) (position : Position)
  /-- The body of the latest anchor opens. -/
  | bodyEntered (position : Position)
  /-- The innermost body ends. -/
  | bodyLeft (stop : Position)
  /-- A block has closed and left the scan at a depth. -/
  | blockClosed (depth : Nat)
deriving DecidableEq, Repr

namespace Node

/-- The offset that a node is ordered by: its first tag, or the anchor itself if that is first. -/
def key (n : Node) : Nat :=
  match n.anchor, n.tags.head? with
  | _, none => n.span.start.offset
  | none, some t => t.span.start.offset
  | some _, some t => min t.span.start.offset n.span.start.offset

/-- The number of children that come before a new node. -/
def place (parent n : Node) : Nat := (parent.children.takeWhile (·.key ≤ n.key)).length

/-- Add a child in its place. -/
def insert (parent n : Node) : Node :=
  { parent with
    children := parent.children.take (place parent n) ++ n ::
      parent.children.drop (place parent n) }

end Node

/-- The number of blank lines in a text, its first and its last line left out. -/
def blankLines (gap : List Char) : Nat :=
  ((Text.lines gap).drop 1).dropLast.countP Text.isAllBlank

namespace Assembly

/-- The innermost open node. -/
def top (a : Assembly) : Node :=
  match a.frames with
  | [] => a.root
  | f :: _ => f.node

/-- Change the innermost open node. -/
def mapTop (a : Assembly) (f : Node → Node) : Assembly :=
  match a.frames with
  | [] => { a with root := f a.root }
  | fr :: frs => { a with frames := { fr with node := f fr.node } :: frs }

/-- The kind of the anchor whose body is innermost. -/
def enclosingKind? (a : Assembly) : Option AnchorKind :=
  match a.frames with
  | [] => none
  | f :: _ => f.node.anchor.map (·.kind)

/-- Whether the latest anchor can take a body. -/
def canEnterBody (a : Assembly) : Bool :=
  (a.lastAnchor.bind (a.top.children[·]?)).any (·.anchor.isSome)

/-! ## Tags that stop waiting -/

/-- Report tags that are not attached. -/
def report (a : Assembly) (tags : List Tag) (why : String) : Assembly :=
  { a with
    diagnostics := a.diagnostics ++ tags.map fun t =>
      { kind := .unresolvedTag, span := t.span, message := s!"@{t.name} not attached: {why}" } }

/-- Leave tags in place, on no anchor. -/
def fallBack (a : Assembly) (w : Waiting) (why : String) : Assembly :=
  (a.report w.tags why).mapTop (·.insert { tags := w.tags, span := w.comment })

/-- Put tags to the unresolved ones. -/
def giveUp (a : Assembly) (w : Waiting) (why : String) : Assembly :=
  let a := a.report w.tags why
  { a with unresolved := a.unresolved ++ w.tags }

/-- The latest waiting tags, if they wait at the given depth. -/
def waitingAt? (a : Assembly) (depth : Nat) : Option Waiting :=
  a.waiting.head?.filter (·.depth = depth)

/-- Take the latest waiting tags away. -/
def dropWaiting (a : Assembly) : Assembly := { a with waiting := a.waiting.tail }

/-! ## Comments -/

/-- Attach the tags for the enclosing anchor. -/
def attachEnclosing (a : Assembly) (tags : List Tag) : Assembly :=
  let own := (tags.filter (·.placement = .enclosingAnchor)).map Tag.resolve
  a.mapTop fun n => { n with tags := n.tags ++ own }

/-- Let the tags for the next anchor wait. Tags that wait at the same depth are superseded. -/
def awaitAnchor (a : Assembly) (tags : List Tag) (span : Span) (depth : Nat) : Assembly :=
  let next := tags.filter (·.placement = .nextAnchor)
  if next.isEmpty then a
  else
    let a := match a.waitingAt? depth with
      | some old => a.dropWaiting.fallBack old "superseded by a later comment block"
      | none => a
    { a with waiting := ⟨next, span, depth⟩ :: a.waiting }

/-- Put the free-floating tags into a node of their own. -/
def placeFree (a : Assembly) (tags : List Tag) (span : Span) : Assembly :=
  let free := (tags.filter (·.placement = .freeFloating)).map Tag.resolve
  if free.isEmpty then a else a.mapTop (·.insert { tags := free, span })

/-- Place the tags of a comment. -/
def comment (a : Assembly) (tags : List Tag) (span : Span) (depth : Nat) : Assembly :=
  ((a.attachEnclosing tags).awaitAnchor tags span depth).placeFree tags span

/-! ## Anchors and bodies -/

/-- The number of blank lines between a comment and a position. -/
def blankLinesBetween (a : Assembly) (comment : Span) (p : Position) : Nat :=
  blankLines ((Text.slice? a.source comment.stop.offset p.offset).getD [])

/-- Add a node of an anchor, which becomes the latest one. -/
def addAnchor (a : Assembly) (n : Node) : Assembly :=
  { a.mapTop (·.insert n) with lastAnchor := some (Node.place a.top n) }

/-- Add an anchor. It takes the tags that wait at its depth, unless too many blank lines lie
between. -/
def anchor (a : Assembly) (anchor : Anchor) (depth : Nat) : Assembly :=
  match a.waitingAt? depth with
  | none => a.addAnchor (.ofAnchor anchor)
  | some w =>
    if a.maxBlankLines < a.blankLinesBetween w.comment anchor.span.start then
      (a.dropWaiting.fallBack w "separated from the next anchor by blank lines").addAnchor
        (.ofAnchor anchor)
    else
      a.dropWaiting.addAnchor { Node.ofAnchor anchor with tags := w.tags.map Tag.resolve }

/-- Open the body of the latest anchor. -/
def enterBody (a : Assembly) (p : Position) : Assembly :=
  match a.lastAnchor with
  | none => a
  | some slot =>
    match a.top.children[slot]? with
    | none => a
    | some n =>
      if n.anchor.isNone then a
      else
        let a := a.mapTop fun t => { t with children := t.children.eraseIdx slot }
        { a with
          frames := ⟨{ n with span := { n.span with stop := p } }, slot⟩ :: a.frames
          lastAnchor := none }

/-- End the innermost body. -/
def leaveBody (a : Assembly) (stop : Position) : Assembly :=
  match a.frames with
  | [] => a
  | f :: frames =>
    let node := { f.node with span := { f.node.span with stop } }
    { { a with frames }.mapTop fun t =>
        { t with children := t.children.take f.slot ++ node :: t.children.drop f.slot } with
      lastAnchor := none }

/-- Give up the tags that wait deeper than `depth`. -/
def closeWaiting (a : Assembly) (depth : Nat) : List Waiting → Assembly
  | [] => { a with waiting := [] }
  | w :: ws =>
    if depth < w.depth then
      (a.giveUp w "no anchor before the enclosing block closed").closeWaiting depth ws
    else { a with waiting := w :: ws }

/-- A block has closed, and the scan is back at `depth`. -/
def blockClosed (a : Assembly) (depth : Nat) : Assembly := a.closeWaiting depth a.waiting

/-! ## Events -/

/-- Take in one event. -/
def apply (a : Assembly) : Event → Assembly
  | .comment tags span depth => a.comment tags span depth
  | .anchor anchor depth => a.anchor anchor depth
  | .bracketOpened _ _ | .bracketClosed _ _ => a
  | .bodyEntered p => a.enterBody p
  | .bodyLeft stop => a.leaveBody stop
  | .blockClosed depth => a.blockClosed depth

/-- An outline before any event. -/
def start (source : List Char) (maxBlankLines : Nat) : Assembly := { source, maxBlankLines }

/-- Take in events one after the other. -/
def replay (a : Assembly) (events : List Event) : Assembly := events.foldl apply a

/-! ## The end of the text -/

/-- Give up the tags that still wait, latest first. -/
def endWaiting (a : Assembly) : Assembly :=
  { a.waiting.foldl (·.giveUp · "no anchor before end of input") a with waiting := [] }

/-- End all bodies. -/
def endBodies (a : Assembly) (stop : Position) : Assembly :=
  Nat.repeat (·.leaveBody stop) a.frames.length a

end Assembly

/-- Diagnostics in source order; those at one offset keep their order. -/
def sortDiagnostics (ds : List Diagnostic) : List Diagnostic :=
  ds.mergeSort fun d e => decide (d.span.start.offset ≤ e.span.start.offset)

/-- Tags in source order; those at one offset keep their order. -/
def sortTags (ts : List Tag) : List Tag :=
  ts.mergeSort fun t u => decide (t.span.start.offset ≤ u.span.start.offset)

/-- The finished outline and the diagnostics of its assembly. -/
def Assembly.finish (a : Assembly) (stop : Position) : Findings :=
  let a := a.endWaiting.endBodies stop
  { outline :=
      { root := { a.root with span := ⟨.start, stop⟩ }
        unresolved := sortTags a.unresolved }
    diagnostics := sortDiagnostics a.diagnostics }

end Marginalia
