import Marginalia.Proofs.Fields
import Marginalia.Proofs.Relocation
import Marginalia.Proofs.StableSort
import Mathlib.Order.MinMax

/-!
# Outlines assembled at other positions

An outline that is assembled from the same events at other positions is the same outline at those
positions, as long as they are in the same order and as many blank lines lie between a comment and
the anchor that takes its tags.
-/

namespace Marginalia

variable {f : Position → Position} {o : Nat → Nat} {source source' : List Char}

/-- An exchange of positions that leaves the start in place and keeps the order of the offsets. -/
structure Position.Moves (f : Position → Position) (o : Nat → Nat) : Prop where
  start : f .start = .start
  offset : ∀ p, (f p).offset = o p.offset
  mono : StrictMono o

theorem Position.moves_id : Moves id id := ⟨rfl, fun _ ↦ rfl, strictMono_id⟩

/-- There are as many blank lines between two offsets of a text as between those they are exchanged
for in another one. -/
def SameGap (o : Nat → Nat) (source source' : List Char) (i j : Nat) : Prop :=
  blankLines ((Text.slice? source' (o i) (o j)).getD []) =
    blankLines ((Text.slice? source i j).getD [])

/-- Waiting tags with other positions. -/
def Waiting.relocate (f : Position → Position) (w : Waiting) : Waiting :=
  ⟨w.tags.map (·.relocate f), w.comment.relocate f, w.depth⟩

/-- The event with other positions. -/
def Event.relocate (f : Position → Position) : Event → Event
  | .comment tags span depth => .comment (tags.map (·.relocate f)) (span.relocate f) depth
  | .anchor a depth => .anchor (a.relocate f) depth
  | .bracketOpened pair position => .bracketOpened pair (f position)
  | .bracketClosed pair position => .bracketClosed pair (f position)
  | .bodyEntered position => .bodyEntered (f position)
  | .bodyLeft stop => .bodyLeft (f stop)
  | .blockClosed depth => .blockClosed depth

/-- The open anchor with other positions. -/
def Frame.relocate (f : Position → Position) (fr : Frame) : Frame :=
  { fr with node := fr.node.relocate f }

/-! ## Nodes -/

namespace Node

theorem key_relocate (hf : Position.Moves f o) (n : Node) : (n.relocate f).key = o n.key := by
  rw [relocate_eq]
  unfold key
  obtain ⟨anchor, tags, children, span⟩ := n
  cases anchor with
  | none =>
    cases tags with
    | nil => exact hf.offset _
    | cons t ts => exact hf.offset _
  | some a =>
    cases tags with
    | nil => exact hf.offset _
    | cons t ts =>
      change min (f t.span.start).offset (f span.start).offset = _
      rw [hf.offset, hf.offset]
      exact hf.mono.monotone.map_min.symm

theorem place_relocate (hf : Position.Moves f o) (parent n : Node) :
    place (parent.relocate f) (n.relocate f) = place parent n := by
  unfold place
  rw [relocate_children, List.takeWhile_map, List.length_map]
  congr 2
  funext c
  simp [key_relocate hf, hf.mono.le_iff_le]

theorem insert_relocate (hf : Position.Moves f o) (parent n : Node) :
    (parent.relocate f).insert (n.relocate f) = (parent.insert n).relocate f := by
  unfold insert
  rw [place_relocate hf, relocate_eq (n := { parent with children := _ })]
  simp only [relocate_eq (n := parent), List.map_append, List.map_cons, List.map_take,
    List.map_drop]

end Node

/-! ## Assemblies -/

namespace Assembly

variable {a : Assembly}

/-- The assembly with other positions, of another text. -/
def relocate (f : Position → Position) (source' : List Char) (a : Assembly) : Assembly where
  source := source'
  maxBlankLines := a.maxBlankLines
  root := a.root.relocate f
  frames := a.frames.map (·.relocate f)
  waiting := a.waiting.map (·.relocate f)
  unresolved := a.unresolved.map (·.relocate f)
  lastAnchor := a.lastAnchor
  diagnostics := a.diagnostics.map (·.relocate f)

theorem relocate_start (hf : Position.Moves f o) (source source' : List Char)
    (maxBlankLines : Nat) :
    (start source maxBlankLines).relocate f source' = start source' maxBlankLines := by
  unfold relocate start
  rw [Node.relocate_eq]
  have hspan : (Span.point .start).relocate f = Span.point .start := by
    unfold Span.point Span.relocate
    rw [hf.start]
  have hroot : (default : Span) = Span.point .start := rfl
  simp [hroot, hspan]

theorem top_relocate : (a.relocate f source').top = a.top.relocate f := by
  unfold top relocate
  cases a.frames <;> rfl

theorem mapTop_relocate {c c' : Node → Node}
    (h : c' (a.top.relocate f) = (c a.top).relocate f) :
    (a.relocate f source').mapTop c' = (a.mapTop c).relocate f source' := by
  unfold top at h
  unfold mapTop relocate
  cases hframes : a.frames with
  | nil =>
    rw [hframes] at h
    simp only [List.map_nil, h]
  | cons fr frs =>
    rw [hframes] at h
    simp only [List.map_cons, Frame.relocate, h]

theorem mapTop_insert_relocate (hf : Position.Moves f o) (n : Node) :
    (a.relocate f source').mapTop (·.insert (n.relocate f)) =
      (a.mapTop (·.insert n)).relocate f source' :=
  mapTop_relocate (Node.insert_relocate hf _ n)

theorem enclosingKind?_relocate :
    (a.relocate f source').enclosingKind? = a.enclosingKind? := by
  unfold enclosingKind? relocate
  cases a.frames with
  | nil => rfl
  | cons fr frs =>
    simp only [List.map_cons, Frame.relocate, Node.relocate_anchor, Option.map_map]
    rfl

theorem canEnterBody_relocate : (a.relocate f source').canEnterBody = a.canEnterBody := by
  unfold canEnterBody
  rw [top_relocate, show (a.relocate f source').lastAnchor = a.lastAnchor from rfl]
  cases a.lastAnchor with
  | none => rfl
  | some slot =>
    simp only [Option.bind_some, Node.relocate_children, List.getElem?_map]
    cases a.top.children[slot]? with
    | none => rfl
    | some n => simp

theorem waitingAt?_relocate (d : Nat) :
    (a.relocate f source').waitingAt? d = (a.waitingAt? d).map (·.relocate f) := by
  unfold waitingAt? relocate
  cases a.waiting with
  | nil => rfl
  | cons w ws =>
    simp only [List.map_cons, List.head?_cons, Option.filter_some,
      show (w.relocate f).depth = w.depth from rfl]
    split <;> rfl

theorem dropWaiting_relocate :
    (a.relocate f source').dropWaiting = a.dropWaiting.relocate f source' := by
  simp [dropWaiting, relocate]

theorem report_relocate (tags : List Tag) (why : String) :
    (a.relocate f source').report (tags.map (·.relocate f)) why =
      (a.report tags why).relocate f source' := by
  simp [report, relocate, Diagnostic.relocate, Tag.relocate, Function.comp_def]

theorem giveUp_relocate (w : Waiting) (why : String) :
    (a.relocate f source').giveUp (w.relocate f) why = (a.giveUp w why).relocate f source' := by
  unfold giveUp
  rw [show (w.relocate f).tags = w.tags.map (·.relocate f) from rfl, report_relocate]
  simp [relocate]

/-- The node of tags that belong to no anchor. -/
theorem relocate_tagsOnly (tags : List Tag) (span : Span) :
    ({ tags, span } : Node).relocate f =
      { tags := tags.map (·.relocate f), span := span.relocate f } := by
  rw [Node.relocate_eq]
  rfl

theorem fallBack_relocate (hf : Position.Moves f o) (w : Waiting) (why : String) :
    (a.relocate f source').fallBack (w.relocate f) why = (a.fallBack w why).relocate f source' := by
  unfold fallBack
  rw [show (w.relocate f).tags = w.tags.map (·.relocate f) from rfl, report_relocate,
    show (w.relocate f).comment = w.comment.relocate f from rfl, ← relocate_tagsOnly]
  exact mapTop_insert_relocate hf _

/-! ### Comments -/

theorem filter_relocate (tags : List Tag) (placement : Placement) :
    (tags.map (·.relocate f)).filter (·.placement = placement) =
      (tags.filter (·.placement = placement)).map (·.relocate f) := by
  rw [List.filter_map]
  rfl

theorem map_resolve_relocate (tags : List Tag) :
    (tags.map (·.relocate f)).map Tag.resolve = (tags.map Tag.resolve).map (·.relocate f) := by
  rw [List.map_map, List.map_map]
  rfl

theorem attachEnclosing_relocate (tags : List Tag) :
    (a.relocate f source').attachEnclosing (tags.map (·.relocate f)) =
      (a.attachEnclosing tags).relocate f source' := by
  unfold attachEnclosing
  rw [filter_relocate, map_resolve_relocate]
  refine mapTop_relocate ?_
  simp [Node.relocate_eq]

theorem awaitAnchor_relocate (hf : Position.Moves f o) (tags : List Tag) (span : Span)
    (depth : Nat) :
    (a.relocate f source').awaitAnchor (tags.map (·.relocate f)) (span.relocate f) depth =
      (a.awaitAnchor tags span depth).relocate f source' := by
  unfold awaitAnchor
  rw [filter_relocate, waitingAt?_relocate]
  dsimp only
  rw [List.isEmpty_map]
  split
  · rfl
  · cases a.waitingAt? depth with
    | none => rfl
    | some old =>
      simp only [Option.map_some, dropWaiting_relocate, fallBack_relocate hf]
      rfl

theorem placeFree_relocate (hf : Position.Moves f o) (tags : List Tag) (span : Span) :
    (a.relocate f source').placeFree (tags.map (·.relocate f)) (span.relocate f) =
      (a.placeFree tags span).relocate f source' := by
  unfold placeFree
  rw [filter_relocate, map_resolve_relocate]
  dsimp only
  rw [List.isEmpty_map]
  split
  · rfl
  · rw [← relocate_tagsOnly]
    exact mapTop_insert_relocate hf _

theorem comment_relocate (hf : Position.Moves f o) (tags : List Tag) (span : Span) (depth : Nat) :
    (a.relocate f source').comment (tags.map (·.relocate f)) (span.relocate f) depth =
      (a.comment tags span depth).relocate f source' := by
  unfold comment
  rw [attachEnclosing_relocate, awaitAnchor_relocate hf, placeFree_relocate hf]

/-! ### Anchors and bodies -/

theorem addAnchor_relocate (hf : Position.Moves f o) (n : Node) :
    (a.relocate f source').addAnchor (n.relocate f) = (a.addAnchor n).relocate f source' := by
  unfold addAnchor
  rw [mapTop_insert_relocate hf, top_relocate, Node.place_relocate hf]
  rfl

theorem ofAnchor_relocate (x : Anchor) (tags : List Tag) :
    ({ Node.ofAnchor (x.relocate f) with tags := tags.map (·.relocate f) } : Node) =
      ({ Node.ofAnchor x with tags } : Node).relocate f := by
  rw [Node.relocate_eq]
  rfl

/-- An anchor takes the same tags if the blank lines in front of it are as many. -/
theorem anchor_relocate (hf : Position.Moves f o) (x : Anchor) (depth : Nat)
    (hgap : ∀ w ∈ a.waiting,
      SameGap o a.source source' w.comment.stop.offset x.span.start.offset) :
    (a.relocate f source').anchor (x.relocate f) depth = (a.anchor x depth).relocate f source' := by
  unfold Assembly.anchor
  rw [waitingAt?_relocate]
  cases hw : a.waitingAt? depth with
  | none => exact (congrArg _ (ofAnchor_relocate x [])).trans (addAnchor_relocate hf _)
  | some w =>
    have hmem : w ∈ a.waiting := by
      rw [(waiting_of_waitingAt? hw).2]
      exact List.mem_cons_self
    have hblank : (a.relocate f source').blankLinesBetween (w.relocate f).comment
        (x.relocate f).span.start = a.blankLinesBetween w.comment x.span.start := by
      have hsame := hgap w hmem
      rw [SameGap, ← hf.offset, ← hf.offset] at hsame
      exact hsame
    simp only [Option.map_some]
    rw [hblank, dropWaiting_relocate, show (a.relocate f source').maxBlankLines = a.maxBlankLines
      from rfl]
    split
    · rw [fallBack_relocate hf]
      exact (congrArg _ (ofAnchor_relocate x [])).trans (addAnchor_relocate hf _)
    · rw [show (w.relocate f).tags = w.tags.map (·.relocate f) from rfl, map_resolve_relocate,
        ofAnchor_relocate]
      exact addAnchor_relocate hf _

theorem enterBody_relocate (p : Position) :
    (a.relocate f source').enterBody (f p) = (a.enterBody p).relocate f source' := by
  unfold enterBody
  rw [show (a.relocate f source').lastAnchor = a.lastAnchor from rfl, top_relocate]
  cases a.lastAnchor with
  | none => rfl
  | some slot =>
    simp only [Node.relocate_children, List.getElem?_map]
    cases a.top.children[slot]? with
    | none => rfl
    | some n =>
      have hnone : (n.relocate f).anchor.isNone = n.anchor.isNone := by simp
      simp only [Option.map_some]
      rw [hnone]
      split
      · rfl
      · have herase : (a.relocate f source').mapTop
              (fun t ↦ { t with children := t.children.eraseIdx slot }) =
            (a.mapTop fun t ↦ { t with children := t.children.eraseIdx slot }).relocate f
              source' := by
          refine mapTop_relocate ?_
          simp [Node.relocate_eq (n := a.top), Node.relocate_eq (n := { a.top with children := _ }),
            List.eraseIdx_map]
        have hnode : ({ n.relocate f with
              span := { (n.relocate f).span with stop := f p } } : Node) =
            ({ n with span := { n.span with stop := p } } : Node).relocate f := by
          rw [Node.relocate_eq, Node.relocate_eq]
          rfl
        rw [herase, hnode]
        rfl

theorem leaveBody_relocate (a : Assembly) (stop : Position) :
    (a.relocate f source').leaveBody (f stop) = (a.leaveBody stop).relocate f source' := by
  unfold leaveBody
  cases hframes : a.frames with
  | nil => simp only [relocate, hframes, List.map_nil]
  | cons fr frs =>
    have hnode : ({ fr.node.relocate f with
          span := { (fr.node.relocate f).span with stop := f stop } } : Node) =
        ({ fr.node with span := { fr.node.span with stop } } : Node).relocate f := by
      rw [Node.relocate_eq, Node.relocate_eq]
      rfl
    have hback : (({ a with frames := frs } : Assembly).relocate f source').mapTop (fun t ↦
          { t with
            children := t.children.take fr.slot ++
              ({ fr.node with span := { fr.node.span with stop } } : Node).relocate f ::
              t.children.drop fr.slot }) =
        (({ a with frames := frs } : Assembly).mapTop fun t ↦
          { t with
            children := t.children.take fr.slot ++
              { fr.node with span := { fr.node.span with stop } } ::
              t.children.drop fr.slot }).relocate f source' := by
      refine mapTop_relocate ?_
      generalize ({ a with frames := frs } : Assembly).top = t
      rw [Node.relocate_eq (n := { t with children := _ }), Node.relocate_eq (n := t)]
      simp only [List.map_append, List.map_cons, List.map_take, List.map_drop]
    rw [show (a.relocate f source').frames = fr.relocate f :: frs.map (·.relocate f) by
      simp only [relocate, hframes, List.map_cons]]
    simp only [Frame.relocate, hnode]
    exact congrArg (fun b : Assembly ↦ { b with lastAnchor := none }) hback

theorem closeWaiting_relocate (depth : Nat) (ws : List Waiting) :
    (a.relocate f source').closeWaiting depth (ws.map (·.relocate f)) =
      (a.closeWaiting depth ws).relocate f source' := by
  induction ws generalizing a with
  | nil => rfl
  | cons w ws ih =>
    simp only [List.map_cons, closeWaiting, show (w.relocate f).depth = w.depth from rfl]
    split
    · rw [giveUp_relocate, ih]
    · rfl

/-! ### Events -/

theorem apply_relocate (hf : Position.Moves f o) (e : Event)
    (hgap : ∀ x depth, e = .anchor x depth → ∀ w ∈ a.waiting,
      SameGap o a.source source' w.comment.stop.offset x.span.start.offset) :
    (a.relocate f source').apply (e.relocate f) = (a.apply e).relocate f source' := by
  cases e with
  | comment tags span depth => exact comment_relocate hf tags span depth
  | anchor x depth => exact anchor_relocate hf x depth (hgap x depth rfl)
  | bracketOpened pair position => rfl
  | bracketClosed pair position => rfl
  | bodyEntered p => exact enterBody_relocate p
  | bodyLeft stop => exact leaveBody_relocate a stop
  | blockClosed depth => exact closeWaiting_relocate depth a.waiting

/-! ### The end of the text -/

theorem endWaiting_relocate :
    (a.relocate f source').endWaiting = a.endWaiting.relocate f source' := by
  have hfold : ∀ (ws : List Waiting) (b : Assembly),
      (ws.map (·.relocate f)).foldl (·.giveUp · "no anchor before end of input")
          (b.relocate f source') =
        (ws.foldl (·.giveUp · "no anchor before end of input") b).relocate f source' := by
    intro ws
    induction ws with
    | nil => exact fun b ↦ rfl
    | cons w ws ih =>
      intro b
      rw [List.map_cons, List.foldl_cons, List.foldl_cons, giveUp_relocate, ih]
  unfold endWaiting
  rw [show (a.relocate f source').waiting = a.waiting.map (·.relocate f) from rfl, hfold]
  rfl

theorem endBodies_relocate (stop : Position) :
    (a.relocate f source').endBodies (f stop) = (a.endBodies stop).relocate f source' := by
  have hrepeat : ∀ n, Nat.repeat (·.leaveBody (f stop)) n (a.relocate f source') =
      (Nat.repeat (·.leaveBody stop) n a).relocate f source' := by
    intro n
    induction n with
    | zero => rfl
    | succ n ih => rw [Nat.repeat, Nat.repeat, ih, leaveBody_relocate]
  unfold endBodies
  rw [show (a.relocate f source').frames.length = a.frames.length from List.length_map _]
  exact hrepeat _

/-- The finished outline is the same one at the other positions. -/
theorem finish_relocate (hf : Position.Moves f o) (stop : Position) :
    (a.relocate f source').finish (f stop) = (a.finish stop).relocate f := by
  unfold finish
  rw [endWaiting_relocate, endBodies_relocate]
  generalize a.endWaiting.endBodies stop = b
  unfold Findings.relocate Outline.relocate
  dsimp only
  have htags : (sortTags b.unresolved).map (·.relocate f) =
      sortTags (b.unresolved.map (·.relocate f)) := map_sortTags hf.mono (fun t ↦ hf.offset _) _
  have hdiagnostics : (sortDiagnostics b.diagnostics).map (·.relocate f) =
      sortDiagnostics (b.diagnostics.map (·.relocate f)) :=
    map_sortDiagnostics hf.mono (fun d ↦ hf.offset _) _
  rw [htags, hdiagnostics, Node.relocate_eq (n := { b.root with span := _ })]
  unfold relocate Span.relocate
  rw [Node.relocate_eq (n := b.root), hf.start]

end Assembly

end Marginalia
