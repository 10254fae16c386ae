import Marginalia.Proofs.Fields
import Marginalia.Proofs.Shift
import Mathlib.Data.List.InsertIdx
import Mathlib.Data.List.TakeWhile

/-!
# Outlines grafted onto another

An outline of a text that comes after another one is assembled behind what has been assembled of
that one. Its own nodes are where they would be without it, except that the root has children
already, after which all new ones go.
-/

namespace Marginalia

/-- Waiting tags in the text when it comes after another one. -/
def Waiting.shift (before : List Char) (w : Waiting) : Waiting :=
  ⟨w.tags.map (·.shift before), w.comment.shift before, w.depth⟩

/-- An event of the text when it comes after another one. -/
def Event.shift (before : List Char) : Event → Event
  | .comment tags span depth => .comment (tags.map (·.shift before)) (span.shift before) depth
  | .anchor a depth => .anchor (a.shift before) depth
  | .bracketOpened pair position => .bracketOpened pair (position.shift before)
  | .bracketClosed pair position => .bracketClosed pair (position.shift before)
  | .bodyEntered position => .bodyEntered (position.shift before)
  | .bodyLeft stop => .bodyLeft (stop.shift before)
  | .blockClosed depth => .blockClosed depth

/-! ## Nodes -/

namespace Node

variable {before : List Char}

/-- A root with more children and tags, of the text after. -/
def graft (root : Node) (before : List Char) (n : Node) : Node :=
  { root with
    tags := root.tags ++ n.tags.map (·.shift before)
    children := root.children ++ n.children.map (·.shift before) }

theorem place_shift (parent n : Node) :
    place (parent.shift before) (n.shift before) = place parent n := by
  unfold place
  rw [shift_children, List.takeWhile_map, List.length_map]
  congr 2
  funext c
  simp [key_shift]

theorem insert_shift (parent n : Node) :
    (parent.shift before).insert (n.shift before) = (parent.insert n).shift before := by
  unfold insert
  rw [place_shift, shift_eq (n := { parent with children := _ })]
  simp only [shift_eq (n := parent), List.map_append, List.map_cons, List.map_take, List.map_drop]

theorem place_graft {root : Node} (h : ∀ c ∈ root.children, c.key ≤ Text.byteSize before)
    (parent n : Node) :
    place (root.graft before parent) (n.shift before) =
      root.children.length + place parent n := by
  have hroot : ∀ c ∈ root.children, (decide (c.key ≤ (n.shift before).key)) = true := by
    intro c hc
    rw [key_shift, decide_eq_true_eq]
    exact (h c hc).trans (Nat.le_add_left _ _)
  unfold graft place
  rw [List.takeWhile_append_of_pos hroot, List.length_append, List.takeWhile_map, List.length_map]
  congr 3
  funext c
  simp [key_shift]

theorem insert_graft {root : Node} (h : ∀ c ∈ root.children, c.key ≤ Text.byteSize before)
    (parent n : Node) :
    (root.graft before parent).insert (n.shift before) = root.graft before (parent.insert n) := by
  unfold insert
  rw [place_graft h]
  simp [graft, List.take_length_add_append, List.drop_length_add_append, List.map_take,
    List.map_drop]

end Node

/-! ## Assemblies -/

namespace Text

theorem slice?_shift (before s : List Char) (i j : Nat) :
    slice? (before ++ s) (i + byteSize before) (j + byteSize before) = slice? s i j := by
  have hdrop : dropBytes? (i + byteSize before) (before ++ s) = dropBytes? i s := by
    induction before with
    | nil => rfl
    | cons c cs ih =>
      rw [byteSize_cons, List.cons_append, dropBytes?_cons (by omega), ← ih]
      congr 1
      omega
  unfold slice?
  rw [hdrop, Nat.add_sub_add_right]
  simp only [Nat.add_le_add_iff_right]

end Text

namespace Assembly

variable {k a : Assembly} {before : List Char} {last : Option Nat}

/-- The number of children that the innermost open node has from before the text. -/
def graftBase (k : Assembly) (frames : List Frame) : Nat :=
  if frames.isEmpty then k.root.children.length else 0

/-- The open anchors of the text after another one. -/
def graftFrames (k : Assembly) (before : List Char) : List Frame → List Frame
  | [] => []
  | f :: fs => ⟨f.node.shift before, k.graftBase fs + f.slot⟩ :: k.graftFrames before fs

/-- The assembly of a text that comes after another one, of which `k` is assembled. The place of the
latest anchor is that of an anchor of either text. -/
def graft (k : Assembly) (before : List Char) (last : Option Nat) (a : Assembly) : Assembly where
  source := before ++ a.source
  maxBlankLines := a.maxBlankLines
  root := k.root.graft before a.root
  frames := k.graftFrames before a.frames
  waiting := a.waiting.map (·.shift before)
  unresolved := k.unresolved ++ a.unresolved.map (·.shift before)
  lastAnchor := last
  diagnostics := k.diagnostics ++ a.diagnostics.map (·.shift before)

/-- The latest anchor is one of the text, and in its place. -/
def Aligned (k : Assembly) (last : Option Nat) (a : Assembly) : Prop :=
  last = a.lastAnchor.map (k.graftBase a.frames + ·)

/-- Nothing has been assembled of the text yet. -/
theorem graft_start {after : List Char} (hsource : a.source = before ++ after)
    (hframes : a.frames = []) (hwaiting : a.waiting = []) :
    a.graft before a.lastAnchor (start after a.maxBlankLines) = a := by
  obtain ⟨source, maxBlankLines, root, frames, waiting, unresolved, lastAnchor, diagnostics⟩ := a
  obtain rfl := hsource
  obtain rfl := hframes
  obtain rfl := hwaiting
  cases root
  simp [graft, start, Node.graft, graftFrames]

theorem graftFrames_length (k : Assembly) (before : List Char) (fs : List Frame) :
    (k.graftFrames before fs).length = fs.length := by
  induction fs with
  | nil => rfl
  | cons f fs ih => rw [graftFrames, List.length_cons, ih, List.length_cons]

theorem graft_mapTop {f f' : Node → Node}
    (hroot : a.frames = [] → f' (k.root.graft before a.root) = k.root.graft before (f a.root))
    (hnode : ∀ fr frs, a.frames = fr :: frs → f' (fr.node.shift before) = (f fr.node).shift before) :
    (k.graft before last a).mapTop f' = k.graft before last (a.mapTop f) := by
  unfold mapTop graft
  cases h : a.frames with
  | nil => simp only [graftFrames, hroot h]
  | cons fr frs => simp only [graftFrames, hnode fr frs h]

/-- The root of an assembly has no children that a node after `before` could go in front of. -/
def EndsBy (k : Assembly) (before : List Char) : Prop :=
  ∀ c ∈ k.root.children, c.key ≤ Text.byteSize before

theorem graft_insert (h : k.EndsBy before) (n : Node) :
    (k.graft before last a).mapTop (·.insert (n.shift before)) =
      k.graft before last (a.mapTop (·.insert n)) :=
  graft_mapTop (fun _ ↦ Node.insert_graft h _ n) fun _ _ _ ↦ Node.insert_shift _ n

theorem place_top_graft (h : k.EndsBy before) (n : Node) :
    Node.place (k.graft before last a).top (n.shift before) =
      k.graftBase a.frames + Node.place a.top n := by
  unfold top graftBase graft
  cases a.frames with
  | nil => exact Node.place_graft h _ n
  | cons f fs => simp [graftFrames, Node.place_shift]

theorem graft_waitingAt? (d : Nat) :
    (k.graft before last a).waitingAt? d = (a.waitingAt? d).map (·.shift before) := by
  unfold waitingAt? graft
  cases a.waiting with
  | nil => rfl
  | cons w ws =>
    simp only [List.map_cons, List.head?_cons, Option.filter_some,
      show (w.shift before).depth = w.depth from rfl]
    split <;> rfl

theorem graft_dropWaiting :
    (k.graft before last a).dropWaiting = k.graft before last a.dropWaiting := by
  simp [dropWaiting, graft]

theorem graft_report (tags : List Tag) (why : String) :
    (k.graft before last a).report (tags.map (·.shift before)) why =
      k.graft before last (a.report tags why) := by
  simp [report, graft, Diagnostic.shift, Tag.shift, Function.comp_def]

theorem graft_giveUp (w : Waiting) (why : String) :
    (k.graft before last a).giveUp (w.shift before) why =
      k.graft before last (a.giveUp w why) := by
  unfold giveUp
  rw [show (w.shift before).tags = w.tags.map (·.shift before) from rfl, graft_report]
  simp [graft]

theorem graft_fallBack (h : k.EndsBy before) (w : Waiting) (why : String) :
    (k.graft before last a).fallBack (w.shift before) why =
      k.graft before last (a.fallBack w why) := by
  unfold fallBack
  rw [show (w.shift before).tags = w.tags.map (·.shift before) from rfl, graft_report]
  exact graft_insert h { tags := w.tags, span := w.comment }

/-! ### Comments -/

theorem filter_shift (tags : List Tag) (placement : Placement) :
    (tags.map (·.shift before)).filter (·.placement = placement) =
      (tags.filter (·.placement = placement)).map (·.shift before) := by
  rw [List.filter_map]
  rfl

theorem map_resolve_shift (tags : List Tag) :
    (tags.map (·.shift before)).map Tag.resolve = (tags.map Tag.resolve).map (·.shift before) := by
  rw [List.map_map, List.map_map]
  rfl

theorem graft_attachEnclosing (tags : List Tag) :
    (k.graft before last a).attachEnclosing (tags.map (·.shift before)) =
      k.graft before last (a.attachEnclosing tags) := by
  unfold attachEnclosing
  rw [filter_shift, map_resolve_shift]
  refine graft_mapTop (fun _ ↦ ?_) fun fr _ _ ↦ ?_
  · simp [Node.graft]
  · simp [Node.shift_eq]

theorem graft_awaitAnchor (h : k.EndsBy before) (tags : List Tag) (span : Span) (depth : Nat) :
    (k.graft before last a).awaitAnchor (tags.map (·.shift before)) (span.shift before) depth =
      k.graft before last (a.awaitAnchor tags span depth) := by
  unfold awaitAnchor
  rw [filter_shift, graft_waitingAt?]
  dsimp only
  rw [List.isEmpty_map]
  split
  · rfl
  · cases a.waitingAt? depth with
    | none => rfl
    | some old =>
      simp only [Option.map_some, graft_dropWaiting, graft_fallBack h]
      rfl

theorem graft_placeFree (h : k.EndsBy before) (tags : List Tag) (span : Span) :
    (k.graft before last a).placeFree (tags.map (·.shift before)) (span.shift before) =
      k.graft before last (a.placeFree tags span) := by
  unfold placeFree
  rw [filter_shift, map_resolve_shift]
  dsimp only
  rw [List.isEmpty_map]
  split
  · rfl
  · exact graft_insert h { tags := _, span }

theorem graft_comment (h : k.EndsBy before) (tags : List Tag) (span : Span) (depth : Nat) :
    (k.graft before last a).comment (tags.map (·.shift before)) (span.shift before) depth =
      k.graft before last (a.comment tags span depth) := by
  unfold comment
  rw [graft_attachEnclosing, graft_awaitAnchor h, graft_placeFree h]

/-! ### Anchors and bodies -/

/-- An anchor of the text goes after what was there before. -/
theorem graft_addAnchor (h : k.EndsBy before) (n : Node) :
    (k.graft before last a).addAnchor (n.shift before) =
      k.graft before ((a.addAnchor n).lastAnchor.map (k.graftBase a.frames + ·))
        (a.addAnchor n) := by
  unfold addAnchor
  rw [graft_insert h, place_top_graft h]
  rfl

theorem graft_blankLinesBetween (comment : Span) (p : Position) :
    (k.graft before last a).blankLinesBetween (comment.shift before) (p.shift before) =
      a.blankLinesBetween comment p := by
  unfold blankLinesBetween
  exact congrArg (fun s ↦ blankLines (s.getD [])) (Text.slice?_shift before a.source _ _)

theorem mapTop_frames_isEmpty (a : Assembly) (f : Node → Node) :
    (a.mapTop f).frames.isEmpty = a.frames.isEmpty := by
  unfold mapTop
  cases a.frames <;> simp

theorem graftBase_mapTop (k a : Assembly) (f : Node → Node) :
    k.graftBase (a.mapTop f).frames = k.graftBase a.frames := by
  rw [graftBase, graftBase, mapTop_frames_isEmpty]

theorem graft_anchor (h : k.EndsBy before) (last : Option Nat) (a : Assembly) (anchor : Anchor)
    (depth : Nat) :
    ∃ last', (k.graft before last a).anchor (anchor.shift before) depth =
        k.graft before last' (a.anchor anchor depth) ∧ k.Aligned last' (a.anchor anchor depth) := by
  have hadd : ∀ (b : Assembly) (n : Node),
      ∃ last', (k.graft before last b).addAnchor (n.shift before) =
        k.graft before last' (b.addAnchor n) ∧ k.Aligned last' (b.addAnchor n) := by
    intro b n
    refine ⟨_, graft_addAnchor h n, ?_⟩
    rw [Aligned, show (b.addAnchor n).frames = (b.mapTop (·.insert n)).frames from rfl,
      graftBase_mapTop]
  unfold Assembly.anchor
  rw [graft_waitingAt?]
  cases a.waitingAt? depth with
  | none => exact hadd a (.ofAnchor anchor)
  | some w =>
    have hblank : (k.graft before last a).blankLinesBetween (w.shift before).comment
        (anchor.shift before).span.start = a.blankLinesBetween w.comment anchor.span.start :=
      graft_blankLinesBetween _ _
    simp only [Option.map_some]
    rw [hblank, graft_dropWaiting, show (k.graft before last a).maxBlankLines = a.maxBlankLines
      from rfl]
    split
    · rw [graft_fallBack h]
      exact hadd _ (.ofAnchor anchor)
    · have hnode : { Node.ofAnchor (anchor.shift before) with
            tags := (w.shift before).tags.map Tag.resolve } =
          Node.shift before { Node.ofAnchor anchor with tags := w.tags.map Tag.resolve } := by
        rw [Node.shift_eq, ← map_resolve_shift]
        rfl
      rw [hnode]
      exact hadd _ _

theorem getElem?_top_graft (slot : Nat) :
    (k.graft before last a).top.children[k.graftBase a.frames + slot]? =
      a.top.children[slot]?.map (·.shift before) := by
  unfold top graft graftBase
  cases a.frames with
  | nil => simp [graftFrames, Node.graft, List.getElem?_append_right]
  | cons f fs => simp [graftFrames]

theorem graft_canEnterBody (h : k.Aligned last a) :
    (k.graft before last a).canEnterBody = a.canEnterBody := by
  have hanchor : ∀ n : Node, (n.shift before).anchor.isSome = n.anchor.isSome := by
    intro n
    rw [Node.shift_eq, Option.isSome_map]
  unfold canEnterBody
  rw [show (k.graft before last a).lastAnchor = _ from h]
  cases a.lastAnchor with
  | none => rfl
  | some slot =>
    simp only [Option.map_some, Option.bind_some, getElem?_top_graft]
    cases a.top.children[slot]? with
    | none => rfl
    | some n => simp [hanchor]

theorem graft_enterBody (before : List Char) (h : k.Aligned last a) (p : Position) :
    ∃ last', (k.graft before last a).enterBody (p.shift before) =
        k.graft before last' (a.enterBody p) ∧ k.Aligned last' (a.enterBody p) := by
  unfold enterBody
  rw [show (k.graft before last a).lastAnchor = _ from h]
  cases hlast : a.lastAnchor with
  | none => exact ⟨last, rfl, h⟩
  | some slot =>
    simp only [Option.map_some, getElem?_top_graft]
    cases a.top.children[slot]? with
    | none => exact ⟨last, rfl, h⟩
    | some n =>
      simp only [Option.map_some, Node.shift_eq (n := n), Option.isNone_map]
      split
      · exact ⟨last, rfl, h⟩
      · refine ⟨none, ?_, rfl⟩
        have herase : (k.graft before last a).mapTop (fun t ↦
              { t with children := t.children.eraseIdx (k.graftBase a.frames + slot) }) =
            k.graft before last
              (a.mapTop fun t ↦ { t with children := t.children.eraseIdx slot }) := by
          refine graft_mapTop (fun hframes ↦ ?_) fun fr frs hframes ↦ ?_
          · simp [graftBase, hframes, Node.graft, List.eraseIdx_append_of_length_le, List.eraseIdx_map]
          · simp [graftBase, hframes, Node.shift_eq (n := fr.node), Node.shift_eq (n := { fr.node with
              children := _ }), List.eraseIdx_map]
        rw [herase]
        simp only [graft, graftFrames, graftBase_mapTop, Node.shift_eq (n := { n with span := _ })]
        rfl

theorem graft_leaveBody (k : Assembly) (before : List Char) (last : Option Nat) (a : Assembly)
    (stop : Position) :
    ∃ last', (k.graft before last a).leaveBody (stop.shift before) =
        k.graft before last' (a.leaveBody stop) ∧
      (k.Aligned last a → k.Aligned last' (a.leaveBody stop)) := by
  unfold leaveBody
  cases hframes : a.frames with
  | nil => exact ⟨last, by simp only [graft, hframes, graftFrames], id⟩
  | cons f fs =>
    refine ⟨none, ?_, fun _ ↦ rfl⟩
    have hback : (k.graft before last { a with frames := fs }).mapTop (fun t ↦
          { t with
            children := t.children.take (k.graftBase fs + f.slot) ++
              { f.node.shift before with
                span := { (f.node.shift before).span with stop := stop.shift before } } ::
              t.children.drop (k.graftBase fs + f.slot) }) =
        k.graft before last ({ a with frames := fs }.mapTop fun t ↦
          { t with
            children := t.children.take f.slot ++
              { f.node with span := { f.node.span with stop } } :: t.children.drop f.slot }) := by
      have hnode : ({ f.node.shift before with
            span := { (f.node.shift before).span with stop := stop.shift before } } : Node) =
          Node.shift before { f.node with span := { f.node.span with stop } } := by
        rw [Node.shift_eq, Node.shift_eq]
        rfl
      rw [hnode]
      refine graft_mapTop (fun hfs ↦ ?_) fun fr frs hfs ↦ ?_
      · simp only at hfs
        simp [graftBase, hfs, Node.graft, List.take_length_add_append, List.drop_length_add_append,
          List.map_take, List.map_drop]
      · simp only at hfs
        simp [graftBase, hfs, Node.shift_eq (n := fr.node), List.map_take, List.map_drop,
          Node.shift_eq (n := { fr.node with children := _ })]
    have hgraft : { k.graft before last a with frames := k.graftFrames before fs } =
        k.graft before last { a with frames := fs } := rfl
    simp only [show (k.graft before last a).frames = k.graftFrames before a.frames from rfl,
      hframes, graftFrames, hgraft, hback]
    rfl

theorem graft_closeWaiting (depth : Nat) (ws : List Waiting) :
    (k.graft before last a).closeWaiting depth (ws.map (·.shift before)) =
      k.graft before last (a.closeWaiting depth ws) := by
  induction ws generalizing a with
  | nil => rfl
  | cons w ws ih =>
    simp only [List.map_cons, closeWaiting, show (w.shift before).depth = w.depth from rfl]
    split
    · rw [graft_giveUp, ih]
    · rfl

/-! ### Events -/

/-- Two assemblies with the latest anchor in the same place. -/
theorem Aligned.congr {b : Assembly} (h : k.Aligned last a) (hlast : b.lastAnchor = a.lastAnchor)
    (hframes : b.frames.isEmpty = a.frames.isEmpty) : k.Aligned last b := by
  rw [Aligned, hlast, graftBase, hframes]
  exact h

/-- A comment leaves the latest anchor as it is. -/
theorem Aligned.comment (h : k.Aligned last a) (tags : List Tag) (span : Span) (depth : Nat) :
    k.Aligned last (a.comment tags span depth) := by
  have hmap : ∀ {b : Assembly} (f : Node → Node), k.Aligned last b → k.Aligned last (b.mapTop f) :=
    fun f hb ↦ hb.congr (mapTop_lastAnchor _ f) (mapTop_frames_isEmpty _ f)
  have hawait : ∀ {b : Assembly}, k.Aligned last b →
      k.Aligned last (b.awaitAnchor tags span depth) := by
    intro b hb
    unfold awaitAnchor
    dsimp only
    split
    · exact hb
    · cases b.waitingAt? depth with
      | none => exact hb
      | some old => exact (hmap (b := b.dropWaiting.report old.tags _) _ hb).congr rfl rfl
  have hfree : ∀ {b : Assembly}, k.Aligned last b → k.Aligned last (b.placeFree tags span) := by
    intro b hb
    unfold placeFree
    dsimp only
    split
    · exact hb
    · exact hmap _ hb
  exact hfree (hawait (hmap _ h))

theorem Aligned.closeWaiting (h : k.Aligned last a) (depth : Nat) (ws : List Waiting) :
    k.Aligned last (a.closeWaiting depth ws) := by
  induction ws generalizing a with
  | nil => exact h
  | cons w ws ih =>
    unfold Assembly.closeWaiting
    split
    · exact ih (a := a.giveUp w _) h
    · exact h

/-- An event of the text does to the outline what it does without the text before. A body that opens
has to be that of an anchor of the text. -/
theorem graft_apply (h : k.EndsBy before) (e : Event)
    (hentered : ∀ p, e = .bodyEntered p → k.Aligned last a) :
    ∃ last', (k.graft before last a).apply (e.shift before) = k.graft before last' (a.apply e) ∧
      (k.Aligned last a → k.Aligned last' (a.apply e)) := by
  cases e with
  | comment tags span depth =>
    exact ⟨last, graft_comment h tags span depth, fun ha ↦ ha.comment tags span depth⟩
  | anchor anchor depth =>
    obtain ⟨last', heq, haligned⟩ := graft_anchor h last a anchor depth
    exact ⟨last', heq, fun _ ↦ haligned⟩
  | bracketOpened pair position => exact ⟨last, rfl, id⟩
  | bracketClosed pair position => exact ⟨last, rfl, id⟩
  | bodyEntered p =>
    obtain ⟨last', heq, haligned⟩ := graft_enterBody before (hentered p rfl) p
    exact ⟨last', heq, fun _ ↦ haligned⟩
  | bodyLeft stop => exact graft_leaveBody k before last a stop
  | blockClosed depth =>
    exact ⟨last, graft_closeWaiting depth a.waiting, fun ha ↦ ha.closeWaiting depth a.waiting⟩

theorem graft_replay (h : k.EndsBy before) {es : List Event}
    (hentered : ∀ p, .bodyEntered p ∈ es → k.Aligned last a) :
    ∃ last', (k.graft before last a).replay (es.map (·.shift before)) =
        k.graft before last' (a.replay es) ∧
      (k.Aligned last a → k.Aligned last' (a.replay es)) := by
  induction es generalizing a last with
  | nil => exact ⟨last, rfl, id⟩
  | cons e es ih =>
    have hfirst : ∀ p, e = .bodyEntered p → k.Aligned last a :=
      fun p hp ↦ hentered p (hp ▸ List.mem_cons_self)
    obtain ⟨mid, hmid, halign⟩ := graft_apply h e hfirst
    have hrest : ∀ p, .bodyEntered p ∈ es → k.Aligned mid (a.apply e) :=
      fun p hp ↦ halign (hentered p (List.mem_cons_of_mem e hp))
    obtain ⟨last', hlast, halign'⟩ := ih hrest
    refine ⟨last', ?_, fun ha ↦ halign' (halign ha)⟩
    rw [replay, List.map_cons, List.foldl_cons, hmid, ← replay, hlast]
    rfl

/-! ### The end of the text -/

theorem graft_endWaiting :
    (k.graft before last a).endWaiting = k.graft before last a.endWaiting := by
  have hfold : ∀ (ws : List Waiting) (b : Assembly),
      (ws.map (·.shift before)).foldl (·.giveUp · "no anchor before end of input")
          (k.graft before last b) =
        k.graft before last (ws.foldl (·.giveUp · "no anchor before end of input") b) := by
    intro ws
    induction ws with
    | nil => exact fun b ↦ rfl
    | cons w ws ih =>
      intro b
      rw [List.map_cons, List.foldl_cons, List.foldl_cons, graft_giveUp, ih]
  unfold endWaiting
  rw [show (k.graft before last a).waiting = a.waiting.map (·.shift before) from rfl, hfold]
  rfl

theorem graft_endBodies (k : Assembly) (before : List Char) (last : Option Nat) (a : Assembly)
    (stop : Position) :
    ∃ last', (k.graft before last a).endBodies (stop.shift before) =
      k.graft before last' (a.endBodies stop) := by
  have hrepeat : ∀ n, ∃ last', Nat.repeat (·.leaveBody (stop.shift before)) n
      (k.graft before last a) = k.graft before last' (Nat.repeat (·.leaveBody stop) n a) := by
    intro n
    induction n with
    | zero => exact ⟨last, rfl⟩
    | succ n ih =>
      obtain ⟨mid, hmid⟩ := ih
      obtain ⟨last', hlast, -⟩ := graft_leaveBody k before mid
        (Nat.repeat (·.leaveBody stop) n a) stop
      exact ⟨last', by rw [Nat.repeat, Nat.repeat, hmid, hlast]⟩
  unfold endBodies
  rw [show (k.graft before last a).frames.length = a.frames.length from
    graftFrames_length k before a.frames]
  exact hrepeat _

end Assembly

end Marginalia
