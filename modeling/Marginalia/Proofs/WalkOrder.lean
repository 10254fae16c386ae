import Marginalia.Proofs.Containment
import Marginalia.Proofs.OutlineOrder

/-!
# The walk lists tags in order

Every move of a scan keeps the open nodes in order, as long as tags are sent in order. Tags that
wait for the next anchor go to the outline late; but what has been finished since they came has
opened its body after them, so they still come beside it. Hence the walk over the finished outline
lists tags in the order of the text, except for those that the tree itself puts out of it.
-/

namespace Marginalia

open scoped List

namespace Assembly

variable {a : Assembly} {clock clock' lo hi : Nat}

/-- Bodies may end one after the other. -/
theorem Lined.leaveBodies (h : a.Lined clock) (hnested : a.Nested clock) {stops : List Position}
    (hordered : stops.Pairwise fun p q ↦ p.offset ≤ q.offset)
    (hbetween : ∀ p ∈ stops, clock ≤ p.offset ∧ p.offset ≤ clock') (hle : clock ≤ clock') :
    (a.replay (stops.map .bodyLeft)).Lined clock' := by
  induction stops generalizing a clock with
  | nil => exact h.mono hle
  | cons stop stops ih =>
    obtain ⟨hge, hle'⟩ := hbetween stop List.mem_cons_self
    rw [List.pairwise_cons] at hordered
    refine ih (h.leaveBody hnested hge) (hnested.leaveBody hge) hordered.2 ?_ hle'
    intro p hp
    exact ⟨hordered.1 p hp, (hbetween p (List.mem_cons_of_mem _ hp)).2⟩

/-- What ends after something has come is beside it if the bodies opened after it. -/
theorem Aside.leaveBodies (h : a.Aside lo hi) (hlined : a.Lined clock) (hnested : a.Nested clock)
    {stops : List Position} (hordered : stops.Pairwise fun p q ↦ p.offset ≤ q.offset)
    (hlater : ∀ p ∈ stops, clock ≤ p.offset)
    (hopen : ∀ p ∈ a.openings.take stops.length, hi ≤ p.offset) :
    (a.replay (stops.map .bodyLeft)).Aside lo hi := by
  induction stops generalizing a clock with
  | nil => exact h
  | cons stop stops ih =>
    have hge := hlater stop List.mem_cons_self
    rw [List.pairwise_cons] at hordered
    refine ih (h.leaveBody hlined stop ?_) (hlined.leaveBody hnested hge) (hnested.leaveBody hge)
      hordered.2 hordered.1 ?_
    · intro p hp
      obtain ⟨ps, hps⟩ := List.head?_eq_some_iff.mp hp
      exact hopen p (by rw [hps]; exact List.mem_cons_self)
    · intro p hp
      replace hp : p ∈ (a.leaveBody stop).openings.take stops.length := hp
      rw [openings_leaveBody] at hp
      refine hopen p ?_
      cases hopenings : a.openings with
      | nil =>
        rw [hopenings, List.tail_nil, List.take_nil] at hp
        cases hp
      | cons q qs =>
        rw [hopenings] at hp
        exact List.mem_cons_of_mem _ hp

end Assembly

/-! ## Waiting tags -/

/-- Tags that wait are in order, all contexts inside of theirs have opened after their comment, and
they come beside all that has been finished. -/
structure Waiting.Lined (contexts : List Context) (a : Assembly) (w : Waiting) : Prop where
  own : w.tags.Pairwise Tag.Before
  header : ∀ t ∈ w.tags, t.placement ≠ .enclosingAnchor
  within : ∀ t ∈ w.tags, t.span.start.offset < w.comment.stop.offset
  outer : ∀ x ∈ contexts.take (contexts.length - w.depth),
    w.comment.stop.offset ≤ x.opened.offset
  aside : a.Aside w.comment.start.offset w.comment.stop.offset

namespace Waiting.Lined

variable {contexts : List Context} {a b : Assembly} {w : Waiting} {clock : Nat}

/-- Tags that wait make a leaf. -/
theorem leaf (h : w.Lined contexts a) (anchor : Option Anchor) (span : Span) :
    Node.Leaf { anchor, tags := w.tags, span } :=
  ⟨h.own, h.header, rfl⟩

theorem leaf_resolve (h : w.Lined contexts a) (anchor : Option Anchor) (span : Span) :
    Node.Leaf { anchor, tags := w.tags.map Tag.resolve, span } := by
  refine ⟨List.pairwise_map.mpr h.own, ?_, rfl⟩
  intro t ht
  obtain ⟨u, hu, rfl⟩ := List.mem_map.mp ht
  exact h.header u hu

/-- A context may open after the comment. -/
theorem push {x : Context} (h : w.Lined contexts a) (ht : w.Timely contexts clock)
    (hx : clock ≤ x.opened.offset) (haside : b.Aside w.comment.start.offset w.comment.stop.offset) :
    w.Lined (x :: contexts) b := by
  refine { h with outer := ?_, aside := haside }
  have hdepth := ht.depth
  rw [List.length_cons,
    show contexts.length + 1 - w.depth = contexts.length - w.depth + 1 by omega,
    List.take_succ_cons]
  intro y hy
  rw [List.mem_cons] at hy
  rcases hy with rfl | hy
  · exact ht.past.trans hx
  · exact h.outer y hy

end Waiting.Lined

namespace Course

variable {source : List Char} {c d : Course}

/-- A course whose outline is in order so far, and stays so wherever waiting tags go. -/
structure Lined (c : Course) : Prop where
  assembly : c.assembly.Lined c.clock
  waiting : ∀ w ∈ c.assembly.waiting, w.Lined c.contexts c.assembly

/-- The body of the innermost open node has opened before any offset that all open contexts come
before. -/
theorem Lined.top_stop_le (h : c.Lined) (hs : c.Sound) {t : Nat}
    (ht : ∀ x ∈ c.contexts, x.opened.offset ≤ t) : c.assembly.top.span.stop.offset ≤ t := by
  have hbodies := hs.bodies
  unfold Assembly.openings at hbodies
  rw [Assembly.top]
  cases hfr : c.assembly.frames with
  | nil =>
    dsimp only
    rw [h.assembly.root_stop]
    exact Nat.zero_le t
  | cons f fs =>
    have hmem : f.node.span.stop ∈ (c.contexts.filter Context.isBody).map (·.opened) := by
      rw [← hbodies, hfr]
      exact List.mem_cons_self
    obtain ⟨x, hx, hxo⟩ := List.mem_map.mp hmem
    exact hxo ▸ ht x (List.mem_filter.mp hx).1

/-- Tags that stop waiting at the depth of the scan may go to the innermost open node. -/
theorem Lined.seat (h : c.Lined) (hs : c.Sound) {w : Waiting}
    (hw : c.assembly.waitingAt? c.contexts.length = some w) {a : Assembly} {clock : Nat}
    (ha : a.Lined clock) (haside : a.Aside w.comment.start.offset w.comment.stop.offset)
    (hspan : a.top.span = c.assembly.top.span) (hle : c.clock ≤ clock) {m : Node} (hm : m.Leaf)
    (htags : ∀ t ∈ m.tags, ∃ u ∈ w.tags, t.span = u.span) :
    (a.mapTop (·.insert m)).Lined clock := by
  obtain ⟨hdepth, hwaiting⟩ := Assembly.waiting_of_waitingAt? hw
  have hmem : w ∈ c.assembly.waiting := by rw [hwaiting]; exact List.mem_cons_self
  have ht := hs.timely w hmem
  have hinner := ht.inner
  rw [hdepth, Nat.sub_self, List.drop_zero] at hinner
  have hplace : ∀ t ∈ m.tags, w.comment.start.offset ≤ t.span.start.offset ∧
      t.span.start.offset < w.comment.stop.offset := by
    intro t htm
    obtain ⟨u, hu, heq⟩ := htags t htm
    rw [heq]
    exact ⟨ht.inside u hu, (h.waiting w hmem).within u hu⟩
  refine ha.insert hm ?_ ?_
  · intro x hx u hu
    exact (haside a.top a.top_mem_openNodes x hx).tag (hplace u hu).1 (hplace u hu).2
  · intro t htm
    rw [hspan]
    exact ⟨(h.top_stop_le hs hinner).trans (hplace t htm).1,
      ((hplace t htm).2.trans_le ht.past).trans_le hle⟩

/-! ## Moves -/

theorem Lined.later (h : c.Lined) {awaits : Option Nat} {clock : Nat} {journal : List Event}
    (hle : c.clock ≤ clock) : { c with awaits, clock, journal }.Lined :=
  ⟨h.assembly.mono hle, h.waiting⟩

theorem Lined.openBlock (h : c.Lined) (hs : c.Sound) {pair : Nat} {opened : Position}
    (later : c.clock ≤ opened.offset) :
    { c with contexts := .block pair opened :: c.contexts, clock := opened.offset }.Lined :=
  ⟨h.assembly.mono later, fun w hw ↦
    (h.waiting w hw).push (hs.timely w hw) later (h.waiting w hw).aside⟩

theorem Lined.enterBody (h : c.Lined) (hs : c.Sound) {opened : Position} {indent : Option Nat}
    (later : c.clock ≤ opened.offset) (waits : c.awaits = some c.contexts.length) :
    { c.send [.bodyEntered opened] with
      contexts := .body opened indent :: c.contexts, awaits := none,
      clock := opened.offset }.Lined := by
  obtain ⟨-, slot, n, anchor, hpoised, -⟩ := hs.poised _ waits (Nat.le_refl _)
  refine ⟨h.assembly.enterBody hpoised later, fun w hw ↦ ?_⟩
  have hw : w ∈ c.assembly.waiting := (c.assembly.enterBody_waiting opened) ▸ hw
  exact (h.waiting w hw).push (hs.timely w hw) later
    ((h.waiting w hw).aside.enterBody hpoised opened)

theorem Lined.close (h : c.Lined) (hs : c.Sound) {inner outer : List Context}
    {stops : List Position} {awaits : Option Nat} {clock : Nat}
    (split : c.contexts = inner ++ outer) (each : stops.length = inner.countP Context.isBody)
    (ordered : stops.Pairwise fun p q ↦ p.offset ≤ q.offset)
    (between : ∀ p ∈ stops, c.clock ≤ p.offset ∧ p.offset ≤ clock) (later : c.clock ≤ clock) :
    { c.send (Event.closing stops outer.length) with contexts := outer, awaits, clock }.Lined := by
  have hclosing := c.assembly.replay_closing stops outer.length
  obtain ⟨-, hroot, hframes, -⟩ :=
    (c.assembly.replay (stops.map .bodyLeft)).closeWaiting_fields outer.length
      (c.assembly.replay (stops.map .bodyLeft)).waiting
  refine ⟨?_, ?_⟩
  · change (c.assembly.replay (Event.closing stops outer.length)).Lined clock
    rw [hclosing]
    exact (h.assembly.leaveBodies hs.nested ordered between later).of_eq hroot hframes
  · intro w hw
    replace hw : w ∈ (c.assembly.replay (Event.closing stops outer.length)).waiting := hw
    rw [Assembly.closing_waiting hs.deeper, List.mem_filter, decide_eq_true_eq] at hw
    obtain ⟨hw, hdepth⟩ := hw
    obtain ⟨hown, hheader, hwithin, houter, haside⟩ := h.waiting w hw
    rw [split, List.length_append, Nat.add_sub_assoc hdepth, List.take_length_add_append] at houter
    refine ⟨hown, hheader, hwithin, fun x hx ↦ houter x (List.mem_append_right _ hx), ?_⟩
    change (c.assembly.replay (Event.closing stops outer.length)).Aside _ _
    rw [hclosing]
    refine Assembly.Aside.of_eq ?_ hroot hframes
    refine haside.leaveBodies h.assembly hs.nested ordered (fun p hp ↦ (between p hp).1) ?_
    -- the bodies that end are those among the inner contexts, which have opened after the comment
    intro p hp
    rw [hs.bodies, split, List.filter_append, List.map_append, each, List.countP_eq_length_filter,
      List.take_left' (List.length_map _)] at hp
    obtain ⟨x, hx, rfl⟩ := List.mem_map.mp hp
    exact houter x (List.mem_append_left _ (List.mem_filter.mp hx).1)

/-- The resolved tags of a comment for one placement are in order and lie in the comment. -/
theorem resolved_tags {tags : List Tag} {span : Span} (hsorted : tags.Pairwise Tag.Before)
    (inside : ∀ t ∈ tags, span.start.offset ≤ t.span.start.offset ∧
      t.span.start.offset < span.stop.offset) (p : Placement) :
    ((tags.filter (·.placement = p)).map Tag.resolve).Pairwise Tag.Before ∧
      ∀ t ∈ (tags.filter (·.placement = p)).map Tag.resolve,
        t.placement = p ∧ span.start.offset ≤ t.span.start.offset ∧
          t.span.start.offset < span.stop.offset := by
  refine ⟨List.pairwise_map.mpr (hsorted.filter _), fun t ht ↦ ?_⟩
  obtain ⟨u, hu, rfl⟩ := List.mem_map.mp ht
  obtain ⟨hu, hp⟩ := List.mem_filter.mp hu
  exact ⟨of_decide_eq_true hp, inside u hu⟩

/-- After a comment the open nodes are in order still, and beside the comment and the tags that have
waited. -/
theorem Lined.comment_outline (h : c.Lined) (hs : c.Sound) {tags : List Tag} {span : Span}
    (hsorted : tags.Pairwise Tag.Before) (later : c.clock ≤ span.start.offset)
    (ordered : span.start.offset ≤ span.stop.offset)
    (inside : ∀ t ∈ tags, span.start.offset ≤ t.span.start.offset ∧
      t.span.start.offset < span.stop.offset) :
    let b := c.assembly.comment tags span c.contexts.length
    b.Lined span.stop.offset ∧ b.top.span = c.assembly.top.span ∧
      b.Aside span.start.offset span.stop.offset ∧
      ∀ w ∈ c.assembly.waiting, b.Aside w.comment.start.offset w.comment.stop.offset := by
  have hclock : c.clock ≤ span.stop.offset := later.trans ordered
  refine Assembly.comment_induction_of_enclosing (P := fun b ↦ b.Lined span.stop.offset ∧
    b.top.span = c.assembly.top.span ∧ b.Aside span.start.offset span.stop.offset ∧
    ∀ w ∈ c.assembly.waiting, b.Aside w.comment.start.offset w.comment.stop.offset) ?_ ?_ ?_ ?_
  · rintro b b' hroot hframes - ⟨hb, htop, haside, hwaiting⟩
    refine ⟨hb.of_eq hroot hframes, ?_, haside.of_eq hroot hframes,
      fun w hw ↦ (hwaiting w hw).of_eq hroot hframes⟩
    rw [Assembly.top, hroot, hframes]
    exact htop
  · rintro b old hold ⟨hb, htop, haside, hwaiting⟩
    have hmem := Assembly.mem_waiting_of_waitingAt? hold
    have hleaf := (h.waiting old hmem).leaf none old.comment
    refine ⟨h.seat hs hold hb (hwaiting old hmem) htop hclock hleaf fun t ht ↦ ⟨t, ht, rfl⟩, ?_,
      haside.insert hleaf, fun w hw ↦ (hwaiting w hw).insert hleaf⟩
    rw [Assembly.top_mapTop]
    exact htop
  · rintro b - ⟨hb, htop, haside, hwaiting⟩
    obtain ⟨hfree, hplace⟩ := resolved_tags hsorted inside .freeFloating
    have hleaf : Node.Leaf
        { tags := (tags.filter (·.placement = .freeFloating)).map Tag.resolve, span } :=
      ⟨hfree, fun t ht ↦ by rw [(hplace t ht).1]; decide, rfl⟩
    refine ⟨hb.insert hleaf ?_ ?_, ?_, haside.insert hleaf,
      fun w hw ↦ (hwaiting w hw).insert hleaf⟩
    · intro x hx u hu
      exact (haside b.top b.top_mem_openNodes x hx).tag (hplace u hu).2.1 (hplace u hu).2.2
    · intro t ht
      rw [htop]
      exact ⟨h.assembly.top.opened.trans (later.trans (hplace t ht).2.1), (hplace t ht).2.2⟩
    · rw [Assembly.top_mapTop]
      exact htop
  · obtain ⟨hown, hplace⟩ := resolved_tags hsorted inside .enclosingAnchor
    refine ⟨h.assembly.attach hs.nested hown (fun t ht ↦ (hplace t ht).1)
      (fun t ht ↦ ⟨later.trans (hplace t ht).2.1, (hplace t ht).2.2⟩) hclock, ?_, ?_, ?_⟩
    · rw [Assembly.attachEnclosing, Assembly.top_mapTop]
    · exact (h.assembly.aside later).mapTop fun x hx ↦ .inl hx
    · exact fun w hw ↦ (h.waiting w hw).aside.mapTop fun x hx ↦ .inl hx

theorem Lined.comment (h : c.Lined) (hs : c.Sound) {tags : List Tag} {span : Span}
    (hsorted : tags.Pairwise Tag.Before) (later : c.clock ≤ span.start.offset)
    (ordered : span.start.offset ≤ span.stop.offset)
    (inside : ∀ t ∈ tags, span.start.offset ≤ t.span.start.offset ∧
      t.span.start.offset < span.stop.offset) :
    { c.send [.comment tags span c.contexts.length] with clock := span.stop.offset }.Lined := by
  have hopen := h.comment_outline hs hsorted later ordered inside
  refine ⟨hopen.1, fun w hw ↦ ?_⟩
  replace hw : w ∈ (c.assembly.comment tags span c.contexts.length).waiting := hw
  rcases Assembly.mem_waiting_comment hw with hw | ⟨-, rfl⟩
  · exact { h.waiting w hw with aside := hopen.2.2.2 w hw }
  · refine ⟨hsorted.filter _, ?_, ?_, by simp [send], hopen.2.2.1⟩
    · intro t ht
      rw [of_decide_eq_true (List.mem_filter.mp ht).2]
      decide
    · exact fun t ht ↦ (inside t (List.mem_filter.mp ht).1).2

/-- After an anchor the open nodes are in order still, and beside the tags that have waited. -/
theorem Lined.anchor_outline (h : c.Lined) (hs : c.Sound) {anchor : Anchor}
    (later : c.clock ≤ anchor.span.start.offset)
    (ordered : anchor.span.start.offset ≤ anchor.span.stop.offset) :
    let b := c.assembly.anchor anchor c.contexts.length
    b.Lined anchor.span.stop.offset ∧
      ∀ w ∈ c.assembly.waiting, b.Aside w.comment.start.offset w.comment.stop.offset := by
  have hclock : c.clock ≤ anchor.span.stop.offset := later.trans ordered
  have hbare : (Node.ofAnchor anchor).Leaf := ⟨.nil, by simp [Node.ofAnchor], rfl⟩
  have hadd : ∀ b : Assembly, b.Lined anchor.span.stop.offset →
      (b.addAnchor (.ofAnchor anchor)).Lined anchor.span.stop.offset := fun b hb ↦
    (hb.insert hbare (by simp [Node.ofAnchor]) (by simp [Node.ofAnchor])).of_eq rfl rfl
  unfold Assembly.anchor
  cases hw : c.assembly.waitingAt? c.contexts.length with
  | none =>
    exact ⟨hadd _ (h.assembly.mono hclock), fun w hw ↦
      ((h.waiting w hw).aside.insert hbare).of_eq rfl rfl⟩
  | some w =>
    have hmem := Assembly.mem_waiting_of_waitingAt? hw
    have hrest : ∀ b : Assembly, b.root = c.assembly.root → b.frames = c.assembly.frames →
        b.Lined anchor.span.stop.offset ∧ ∀ v ∈ c.assembly.waiting,
          b.Aside v.comment.start.offset v.comment.stop.offset := fun b hroot hframes ↦
      ⟨(h.assembly.mono hclock).of_eq hroot hframes,
        fun v hv ↦ (h.waiting v hv).aside.of_eq hroot hframes⟩
    dsimp only
    split
    · have hleaf := (h.waiting w hmem).leaf none w.comment
      obtain ⟨hlined, haside⟩ := hrest (c.assembly.dropWaiting.report w.tags
        "separated from the next anchor by blank lines") rfl rfl
      refine ⟨hadd _ ?_, fun v hv ↦ (((haside v hv).insert hleaf).insert hbare).of_eq rfl rfl⟩
      exact h.seat hs hw hlined (haside w hmem) rfl hclock hleaf fun t ht ↦ ⟨t, ht, rfl⟩
    · have hleaf := (h.waiting w hmem).leaf_resolve (some anchor) anchor.span
      obtain ⟨hlined, haside⟩ := hrest c.assembly.dropWaiting rfl rfl
      refine ⟨?_, fun v hv ↦ ((haside v hv).insert hleaf).of_eq rfl rfl⟩
      refine (h.seat hs hw hlined (haside w hmem) rfl hclock hleaf fun t ht ↦ ?_).of_eq rfl rfl
      obtain ⟨u, hu, rfl⟩ := List.mem_map.mp ht
      exact ⟨u, hu, rfl⟩

theorem Lined.anchor (h : c.Lined) (hs : c.Sound) {anchor : Anchor}
    (later : c.clock ≤ anchor.span.start.offset)
    (ordered : anchor.span.start.offset ≤ anchor.span.stop.offset) :
    { c.send [.anchor anchor c.contexts.length] with
      awaits := some c.contexts.length, clock := anchor.span.stop.offset }.Lined := by
  have hopen := h.anchor_outline hs later ordered
  refine ⟨hopen.1, fun w hw ↦ ?_⟩
  replace hw : w ∈ (c.assembly.anchor anchor c.contexts.length).waiting := hw
  have hw : w ∈ c.assembly.waiting := by
    rw [Assembly.anchor_waiting] at hw
    split at hw
    · exact List.mem_of_mem_tail hw
    · exact hw
  exact { h.waiting w hw with aside := hopen.2 w hw }

/-- The tags that have been sent are in order. -/
def Sorted (c : Course) : Prop := (c.journal.reverse.flatMap Event.tags).Pairwise Tag.Before

theorem Sorted.of_send {es : List Event} (h : (c.send es).Sorted) :
    c.Sorted ∧ (es.flatMap Event.tags).Pairwise Tag.Before := by
  rw [Sorted, send, List.reverse_append, List.reverse_reverse, List.flatMap_append,
    List.pairwise_append] at h
  exact ⟨h.1, h.2.1⟩

/-- Every move that sends tags in order keeps the outline in order. -/
theorem Move.lined (hs : c.Sound) (hc : c.Sorted → c.Lined) (h : Move source c d) (hd : d.Sorted) :
    d.Lined := by
  cases h with
  | @idle es awaits clock brackets waits later =>
    have hlined := hc hd.of_send.1
    rw [send, Assembly.replay_brackets brackets]
    exact hlined.later later
  | @comment tags span later ordered inside place =>
    obtain ⟨hsorted, htags⟩ := Sorted.of_send hd
    refine (hc hsorted).comment hs ?_ later ordered fun t ht ↦ (inside t ht).2
    simpa [Event.tags] using htags
  | anchor later ordered kinds place => exact (hc hd.of_send.1).anchor hs later ordered
  | openBlock later fresh => exact (hc hd).openBlock hs later
  | enterBody later waits ready => exact (hc hd.of_send.1).enterBody hs later waits
  | close split each ordered between later waits =>
    exact (hc hd.of_send.1).close hs split each ordered between later

end Course

/-- The outline of every pass that a scan reaches is in order. -/
theorem Pass.lined_of_reaches {s : Setup} {source : List Char} {p : Pass}
    (h : Reaches (step s) (start s source) p) : p.course.Lined := by
  have hinvariant : p.course.Sound ∧ (p.course.Sorted → p.course.Lined) := by
    refine (reaches_moves h).1.invariant (P := fun c ↦ c.Sound ∧ (c.Sorted → c.Lined)) ?_
      ⟨Course.sound_start s source,
        fun _ ↦ ⟨Assembly.lined_start source s.options.maxBlankLines, ?_⟩⟩
    · exact fun c d hc hm ↦ ⟨hm.sound hc.1, hm.lined hc.1 hc.2⟩
    · exact fun w hw ↦ by cases hw
  exact hinvariant.2 (pairwise_tags_of_reaches h).1

/-! ## Outlines -/

namespace Node

variable {n m c : Node} {t u : Tag}

end Node

/-- All nodes of an outline have their tags in order. -/
theorem Setup.allLined_scan (s : Setup) (source : List Char) :
    (s.scan source).outline.root.AllLined := by
  obtain ⟨p, hreach, hsettled, -, hframes, hroot⟩ := s.scan_root source
  have hreg := (Pass.reaches_moves hreach).2
  have hsound := Pass.sound_of_reaches hreach
  have hclock : p.course.clock = p.lastEnd.offset := hsettled.clock
  have hlast := hreg.lastEnd
  obtain ⟨hnested, -⟩ := Pass.closeAll_nested hreg hsound hsettled
  have hlined : (p.closeAll s.grammar).assembly.Lined p.cursor.position.offset := by
    rw [Pass.closeAll_eq, Pass.flatMap_leaving _ _ hreg.contexts]
    refine (Pass.lined_of_reaches hreach).assembly.leaveBodies hsound.nested
      (List.pairwise_replicate.mpr (.inr (Nat.le_refl _))) ?_ (by rw [hclock]; exact hlast)
    intro q hq
    rw [List.eq_of_mem_replicate hq, hclock]
    split <;> omega
  have hrising : (p.closeAll s.grammar).assembly.root.Rising p.cursor.position.offset := by
    refine hlined.rising _ ?_
    rw [Assembly.openNodes, hframes]
    exact List.mem_singleton_self _
  rw [hroot]
  refine hrising.close ?_ ?_
  · intro a ha
    rw [hnested.root_anchor] at ha
    cases ha
  · rw [Pass.closeAll_cursor]

end Marginalia
