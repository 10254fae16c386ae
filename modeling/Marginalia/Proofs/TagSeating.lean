import Marginalia.Proofs.WalkOrder

/-!
# Tags sit where their placement says

A comment spans its tags, so tags that are placed together with their comment lie inside the node
they go to, and tags for the next anchor lie before it. A tag for the enclosing anchor goes to the
innermost open node, whose end is still to come.
-/

namespace Marginalia

/-! ## Comments span their tags -/

theorem Span.contains_iff {s t : Span} : s.contains t = true ↔
    s.start.offset ≤ t.start.offset ∧ t.stop.offset ≤ s.stop.offset := by
  simp [contains]

/-- The span of a comment contains the spans of its tags. -/
def Event.Covers : Event → Prop
  | .comment tags span _ => ∀ t ∈ tags, span.contains t.span = true
  | .anchor _ _ | .bracketOpened _ _ | .bracketClosed _ _ | .bodyEntered _ | .bodyLeft _
  | .blockClosed _ => True

theorem Event.covers_of_tags {e : Event} (h : e.tags = []) : e.Covers := by
  cases e with
  | comment tags span depth =>
    replace h : tags = [] := h
    rw [h]
    exact fun t ht ↦ by cases ht
  | _ => trivial

theorem CommentLine.Within.stop_le {lo hi : Nat} {l : CommentLine} (h : l.Within lo hi) :
    l.stop.offset ≤ hi := by
  obtain ⟨rest, hrest⟩ := Text.trimEnd_prefix l.text
  have hsize := congrArg Text.byteSize hrest
  rw [Text.byteSize_append] at hsize
  have hhi := h.2
  rw [stop, Position.after_offset]
  omega

theorem Comment.contains_tags {registry : Registry} {c : Comment}
    (h : ∀ l ∈ c.lines, l.Within c.span.start.offset c.span.stop.offset) {p : ParsedTag}
    (hp : p ∈ c.tags registry) : c.span.contains p.tag.span = true := by
  obtain ⟨-, hstart, -⟩ := tags_within h hp
  obtain ⟨t, ht, htag, -⟩ := mem_tagsAfter hp
  obtain ⟨-, -, hlast⟩ := TagLines.mem_ofLines ht
  refine Span.contains_iff.mpr ⟨hstart, ?_⟩
  rw [htag]
  exact (h t.last hlast).stop_le

namespace Course

variable {c d : Course}

/-- All comments that have been sent span their tags. -/
def Covered (c : Course) : Prop := ∀ e ∈ c.journal, e.Covers

theorem Covered.of_send {es : List Event} (h : (c.send es).Covered) :
    c.Covered ∧ ∀ e ∈ es, e.Covers :=
  ⟨fun e he ↦ h e (List.mem_append_right _ he),
    fun e he ↦ h e (List.mem_append_left _ (List.mem_reverse.mpr he))⟩

end Course

/-- All comments that a scan sends span their tags. -/
theorem Pass.covered_of_reaches {s : Setup} {source : List Char} {p : Pass}
    (h : Reaches (step s) (start s source) p) : p.course.Covered := by
  refine (h.invariant (P := fun p : Pass ↦ p.Regular s.grammar source ∧ p.course.Covered) ?_
    ⟨regular_start s source, fun e he ↦ by cases he⟩).2
  rintro p q ⟨hreg, hcovered⟩ hpq
  refine ⟨(step_moves hreg hpq).2, ?_⟩
  suffices hsent : ∃ es : List Event, (∀ e ∈ es, e.Covers) ∧ q.journal = es.reverse ++ p.journal by
    obtain ⟨es, hes, hjournal⟩ := hsent
    intro e he
    rw [show q.course.journal = _ from hjournal, List.mem_append, List.mem_reverse] at he
    exact he.elim (hes e) (hcovered e)
  by_cases hmode : ∃ c, p.mode = .tags c
  · obtain ⟨c, hmode⟩ := hmode
    obtain ⟨-, -, -, hlines⟩ := hreg.comment c hmode
    obtain rfl := Option.some.inj ((step_tags hmode).symm.trans hpq)
    refine ⟨p.commentEvents s.registry c, fun e he ↦ ?_, by rw [placeTags_eq]; rfl⟩
    rw [eq_of_mem_commentEvents he]
    intro t ht
    obtain ⟨u, hu, rfl⟩ := List.mem_map.mp ht
    exact Comment.contains_tags hlines hu
  · obtain ⟨es, htags, -, hjournal⟩ := step_sends hpq
    have hread : p.read? = none := by
      unfold read?
      split
      · rename_i c hc
        exact absurd ⟨c, hc⟩ hmode
      all_goals rfl
    rw [hread] at htags
    refine ⟨es, fun e he ↦ Event.covers_of_tags ?_, hjournal⟩
    exact List.flatMap_eq_nil_iff.mp htags e he

/-! ## Nodes -/

namespace Node

variable {n m c : Node} {t : Tag} {clock clock' : Nat}

/-- A finished node holds a tag as its placement says: inside it, or ahead of its anchor. -/
def Seats (n : Node) (t : Tag) : Prop :=
  match t.placement, n.anchor with
  | .nextAnchor, some a => t.span.stop.offset ≤ a.span.start.offset
  | .enclosingAnchor, some _ | .freeFloating, none | .nextAnchor, none =>
    n.span.contains t.span = true
  | .enclosingAnchor, none | .freeFloating, some _ => False

/-- A finished node holds its tags as their placements say, and so do all nodes below it. -/
def Tidy (n : Node) : Prop := ∀ m ∈ n.nodes, ∀ t ∈ m.tags, m.Seats t

theorem tidy_iff : n.Tidy ↔ (∀ t ∈ n.tags, n.Seats t) ∧ ∀ c ∈ n.children, c.Tidy := by
  unfold Tidy
  rw [nodes_eq]
  simp only [List.mem_cons, List.mem_flatMap, forall_eq_or_imp, forall_exists_index, and_imp]
  exact and_congr_right fun _ ↦ ⟨fun h c hc m hm ↦ h m c hc hm, fun h m c hc hm ↦ h c hc m hm⟩

theorem tidy_leaf (htags : ∀ t ∈ n.tags, n.Seats t) (hchildren : n.children = []) : n.Tidy :=
  tidy_iff.mpr ⟨htags, by simp [hchildren]⟩

/-- An open node holds a tag as its placement says: inside it up to the clock, or ahead of its
anchor. -/
def Admits (clock : Nat) (n : Node) (t : Tag) : Prop :=
  match t.placement with
  | .enclosingAnchor => n.span.start.offset ≤ t.span.start.offset ∧ t.span.stop.offset ≤ clock
  | .nextAnchor => ∃ a, n.anchor = some a ∧ t.span.stop.offset ≤ a.span.start.offset
  | .freeFloating => False

/-- An open node holds its tags as their placements say, and what is below it is tidy. -/
structure Neat (clock : Nat) (n : Node) : Prop where
  own : ∀ t ∈ n.tags, n.Admits clock t
  below : ∀ c ∈ n.children, c.Tidy

theorem Admits.mono (h : n.Admits clock t) (hle : clock ≤ clock') : n.Admits clock' t := by
  unfold Admits at h ⊢
  split at h
  · exact ⟨h.1, h.2.trans hle⟩
  · exact h
  · exact h

theorem Neat.mono (h : n.Neat clock) (hle : clock ≤ clock') : n.Neat clock' :=
  ⟨fun t ht ↦ (h.own t ht).mono hle, h.below⟩

/-- An open node may change its children. -/
theorem Neat.of_children {cs : List Node} (h : n.Neat clock)
    (hcs : ∀ c ∈ cs, c ∈ n.children ∨ c.Tidy) : Neat clock { n with children := cs } :=
  ⟨h.own, fun c hc ↦ (hcs c hc).elim (h.below c) id⟩

theorem Neat.insert (h : n.Neat clock) (hm : m.Tidy) : (n.insert m).Neat clock := by
  refine h.of_children fun c hc ↦ ?_
  rcases List.mem_cons.mp ((insert_children_perm n m).mem_iff.mp hc) with rfl | hc
  · exact .inr hm
  · exact .inl hc

/-- An open node takes tags for the enclosing anchor. -/
theorem Neat.attach {ts : List Tag} (h : n.Neat clock)
    (hts : ∀ t ∈ ts, t.placement = .enclosingAnchor ∧
      n.span.start.offset ≤ t.span.start.offset ∧ t.span.stop.offset ≤ clock) :
    Neat clock { n with tags := n.tags ++ ts } := by
  refine ⟨fun t ht ↦ ?_, h.below⟩
  rcases List.mem_append.mp ht with ht | ht
  · exact h.own t ht
  · obtain ⟨hplace, hinside⟩ := hts t ht
    unfold Admits
    rw [hplace]
    exact hinside

/-- The node of an anchor may take its body: the tags that it has lie behind the clock. -/
theorem Tidy.open {p : Position} (h : n.Tidy) (hanchor : n.anchor.isSome = true)
    (hstop : n.span.stop.offset ≤ p.offset) :
    Neat p.offset { n with span := { n.span with stop := p } } := by
  obtain ⟨hown, hbelow⟩ := tidy_iff.mp h
  obtain ⟨a, ha⟩ := Option.isSome_iff_exists.mp hanchor
  refine ⟨fun t ht ↦ ?_, hbelow⟩
  have hseat := hown t ht
  unfold Seats at hseat
  unfold Admits
  rw [ha] at hseat
  cases hplace : t.placement with
  | enclosingAnchor =>
    rw [hplace] at hseat
    obtain ⟨hstart, hle⟩ := Span.contains_iff.mp hseat
    exact ⟨hstart, hle.trans hstop⟩
  | nextAnchor =>
    rw [hplace] at hseat
    exact ⟨a, ha, hseat⟩
  | freeFloating =>
    rw [hplace] at hseat
    exact hseat

/-- The end of its body makes an open node tidy. -/
theorem Neat.close {stop : Position} (h : n.Neat clock) (hanchor : n.anchor.isSome = true)
    (hstop : clock ≤ stop.offset) : Tidy { n with span := { n.span with stop } } := by
  obtain ⟨a, ha⟩ := Option.isSome_iff_exists.mp hanchor
  refine tidy_iff.mpr ⟨fun t ht ↦ ?_, h.below⟩
  have hown := h.own t ht
  unfold Admits at hown
  unfold Seats
  dsimp only
  rw [ha]
  cases hplace : t.placement with
  | enclosingAnchor =>
    rw [hplace] at hown
    exact Span.contains_iff.mpr ⟨hown.1, hown.2.trans hstop⟩
  | nextAnchor =>
    rw [hplace] at hown
    obtain ⟨b, hb, hown⟩ := hown
    rw [ha] at hb
    cases hb
    exact hown
  | freeFloating =>
    rw [hplace] at hown
    exact hown

end Node

/-! ## Assemblies -/

namespace Assembly

variable {a b : Assembly} {clock clock' : Nat}

/-- The open nodes hold their tags as their placements say. -/
structure Neat (clock : Nat) (a : Assembly) : Prop where
  nodes : ∀ n ∈ a.openNodes, n.Neat clock

theorem neat_start (source : List Char) (maxBlankLines : Nat) :
    (start source maxBlankLines).Neat 0 := by
  refine ⟨fun n hn ↦ ?_⟩
  rw [List.mem_singleton.mp hn]
  exact ⟨by simp [start], by simp [start]⟩

namespace Neat

theorem mono (h : a.Neat clock) (hle : clock ≤ clock') : a.Neat clock' :=
  ⟨fun n hn ↦ (h.nodes n hn).mono hle⟩

/-- Only the frames and the root matter. -/
theorem of_eq (h : a.Neat clock) (hroot : b.root = a.root) (hframes : b.frames = a.frames) :
    b.Neat clock := by
  refine ⟨?_⟩
  rw [openNodes, hroot, hframes]
  exact h.nodes

theorem mapTop {f : Node → Node} (h : a.Neat clock) (hf : (f a.top).Neat clock) :
    (a.mapTop f).Neat clock := by
  refine ⟨fun n hn ↦ ?_⟩
  rw [openNodes_mapTop, List.mem_cons] at hn
  rcases hn with rfl | hn
  · exact hf
  · exact h.nodes n (List.mem_of_mem_tail hn)

theorem top (h : a.Neat clock) : a.top.Neat clock := h.nodes a.top a.top_mem_openNodes

theorem insert {n : Node} (h : a.Neat clock) (hn : n.Tidy) : (a.mapTop (·.insert n)).Neat clock :=
  h.mapTop (h.top.insert hn)

/-- The latest anchor may take a body. -/
theorem enterBody {slot : Nat} {n : Node} {anchor : Anchor} (h : a.Neat clock)
    (hnested : a.Nested clock) (hp : a.Poised slot n anchor) {p : Position}
    (hle : clock ≤ p.offset) : (a.enterBody p).Neat p.offset := by
  have hmem : n ∈ a.top.children := List.mem_of_getElem? hp.there
  have hstop := (hnested.top_open.1.inside n hmem).2.trans hle
  have hrest : (a.mapTop fun t ↦ { t with children := t.children.eraseIdx slot }).Neat p.offset :=
    (h.mono hle).mapTop ((h.mono hle).top.of_children fun c hc ↦ .inl (List.mem_of_mem_eraseIdx hc))
  rw [hp.enterBody_eq p]
  refine ⟨fun m hm ↦ ?_⟩
  rcases List.mem_cons.mp hm with rfl | hm
  · exact (h.top.below n hmem).open (by rw [hp.anchored]; rfl) hstop
  · exact hrest.nodes m hm

/-- The end of a body finishes the innermost open node, which goes back to its parent. -/
theorem leaveBody (h : a.Neat clock) (hnested : a.Nested clock) {stop : Position}
    (hle : clock ≤ stop.offset) : (a.leaveBody stop).Neat stop.offset := by
  unfold Assembly.leaveBody
  split
  · exact h.mono hle
  rename_i f frames hfr
  obtain ⟨anchor, hanchor, -⟩ := (hnested.below hfr).anchored
  have hopen : a.openNodes = f.node :: { a with frames }.openNodes := by simp [openNodes, hfr]
  have hnodes := h.nodes
  rw [hopen, List.forall_mem_cons] at hnodes
  have hrest : { a with frames }.Neat stop.offset := (Neat.mk hnodes.2).mono hle
  have hnode := hnodes.1.close (by rw [hanchor]; rfl) hle
  refine (hrest.mapTop (hrest.top.of_children fun c hc ↦ ?_)).of_eq rfl rfl
  rw [List.mem_append, List.mem_cons] at hc
  rcases hc with hc | rfl | hc
  · exact .inl (List.mem_of_mem_take hc)
  · exact .inr hnode
  · exact .inl (List.mem_of_mem_drop hc)

/-- Bodies may end one after the other. -/
theorem leaveBodies (h : a.Neat clock) (hnested : a.Nested clock) {stops : List Position}
    (hordered : stops.Pairwise fun p q ↦ p.offset ≤ q.offset)
    (hbetween : ∀ p ∈ stops, clock ≤ p.offset ∧ p.offset ≤ clock') (hle : clock ≤ clock') :
    (a.replay (stops.map .bodyLeft)).Neat clock' := by
  induction stops generalizing a clock with
  | nil => exact h.mono hle
  | cons stop stops ih =>
    obtain ⟨hge, hle'⟩ := hbetween stop List.mem_cons_self
    rw [List.pairwise_cons] at hordered
    refine ih (h.leaveBody hnested hge) (hnested.leaveBody hge) hordered.2 ?_ hle'
    intro p hp
    exact ⟨hordered.1 p hp, (hbetween p (List.mem_cons_of_mem _ hp)).2⟩

end Neat

end Assembly

/-- Tags that wait are for the next anchor, and their comment spans them. -/
def Waiting.Neat (w : Waiting) : Prop :=
  ∀ t ∈ w.tags, t.placement = .nextAnchor ∧ w.comment.contains t.span = true

namespace Waiting.Neat

variable {w : Waiting}

/-- Tags that stop waiting may be left in place. -/
theorem tidy (h : w.Neat) : Node.Tidy { tags := w.tags, span := w.comment } := by
  refine Node.tidy_leaf (fun t ht ↦ ?_) rfl
  obtain ⟨hplace, hspan⟩ := h t ht
  unfold Node.Seats
  rw [hplace]
  exact hspan

/-- An anchor that starts after the comment may take the tags. -/
theorem tidy_anchor (h : w.Neat) {anchor : Anchor}
    (hle : w.comment.stop.offset ≤ anchor.span.start.offset) :
    Node.Tidy { Node.ofAnchor anchor with tags := w.tags.map Tag.resolve } := by
  refine Node.tidy_leaf (fun t ht ↦ ?_) rfl
  obtain ⟨u, hu, rfl⟩ := List.mem_map.mp ht
  obtain ⟨hplace, hspan⟩ := h u hu
  unfold Node.Seats
  rw [show u.resolve.placement = .nextAnchor from hplace]
  exact (Span.contains_iff.mp hspan).2.trans hle

end Waiting.Neat

theorem Node.tidy_ofAnchor (anchor : Anchor) : (Node.ofAnchor anchor).Tidy :=
  tidy_leaf (by simp [ofAnchor]) rfl

/-! ## Moves -/

namespace Course

variable {source : List Char} {c d : Course}

/-- A course whose outline holds its tags as their placements say, and will do so wherever waiting
tags go. -/
structure Neat (c : Course) : Prop where
  assembly : c.assembly.Neat c.clock
  waiting : ∀ w ∈ c.assembly.waiting, w.Neat

theorem Neat.comment (h : c.Neat) (hs : c.Sound) {tags : List Tag} {span : Span}
    (later : c.clock ≤ span.start.offset) (ordered : span.start.offset ≤ span.stop.offset)
    (hspan : ∀ t ∈ tags, span.contains t.span = true) :
    { c.send [.comment tags span c.contexts.length] with clock := span.stop.offset }.Neat := by
  have hopen := h.assembly.mono (later.trans ordered)
  have hplaced : ∀ (p : Placement), ∀ t ∈ (tags.filter (·.placement = p)).map Tag.resolve,
      t.placement = p ∧ span.contains t.span = true := by
    intro p t ht
    obtain ⟨u, hu, rfl⟩ := List.mem_map.mp ht
    obtain ⟨hu, hp⟩ := List.mem_filter.mp hu
    exact ⟨of_decide_eq_true hp, hspan u hu⟩
  refine ⟨?_, fun w hw ↦ ?_⟩
  · refine Assembly.comment_induction_of_enclosing (P := fun b ↦ b.Neat span.stop.offset)
      (fun b b' hroot hframes _ hb ↦ hb.of_eq hroot hframes) ?_ ?_ ?_
    · intro b old hold hb
      exact hb.insert (h.waiting old (Assembly.mem_waiting_of_waitingAt? hold)).tidy
    · intro b _ hb
      refine hb.insert (Node.tidy_leaf (fun t ht ↦ ?_) rfl)
      obtain ⟨hplace, hcontains⟩ := hplaced .freeFloating t ht
      unfold Node.Seats
      rw [hplace]
      exact hcontains
    · rw [Assembly.attachEnclosing]
      refine hopen.mapTop (hopen.top.attach fun t ht ↦ ?_)
      obtain ⟨hplace, hcontains⟩ := hplaced .enclosingAnchor t ht
      obtain ⟨hstart, hstop⟩ := Span.contains_iff.mp hcontains
      exact ⟨hplace, (hs.top_start_le fun x hx ↦ (hs.opened x hx).trans later).trans hstart, hstop⟩
  · rcases Assembly.mem_waiting_comment hw with hw | ⟨-, rfl⟩
    · exact h.waiting w hw
    · intro t ht
      obtain ⟨ht, hp⟩ := List.mem_filter.mp ht
      exact ⟨of_decide_eq_true hp, hspan t ht⟩

theorem Neat.anchor (h : c.Neat) (hs : c.Sound) {anchor : Anchor}
    (later : c.clock ≤ anchor.span.start.offset)
    (ordered : anchor.span.start.offset ≤ anchor.span.stop.offset) :
    { c.send [.anchor anchor c.contexts.length] with
      awaits := some c.contexts.length, clock := anchor.span.stop.offset }.Neat := by
  have hclock : c.clock ≤ anchor.span.stop.offset := later.trans ordered
  have hbare := Node.tidy_ofAnchor anchor
  refine ⟨?_, fun w hw ↦ h.waiting w ?_⟩
  · change (c.assembly.anchor anchor c.contexts.length).Neat anchor.span.stop.offset
    have hadd : ∀ {b : Assembly} {n : Node}, b.Neat anchor.span.stop.offset → n.Tidy →
        (b.addAnchor n).Neat anchor.span.stop.offset :=
      fun hb hn ↦ (hb.insert hn).of_eq rfl rfl
    have hopen := h.assembly.mono hclock
    unfold Assembly.anchor
    cases hw : c.assembly.waitingAt? c.contexts.length with
    | none => exact hadd hopen hbare
    | some w =>
      have hmem := Assembly.mem_waiting_of_waitingAt? hw
      dsimp only
      split
      · refine hadd ?_ hbare
        exact Assembly.Neat.insert (hopen.of_eq rfl rfl) (h.waiting w hmem).tidy
      · refine hadd (hopen.of_eq rfl rfl) ((h.waiting w hmem).tidy_anchor ?_)
        exact (hs.timely w hmem).past.trans later
  · replace hw : w ∈ (c.assembly.anchor anchor c.contexts.length).waiting := hw
    rw [Assembly.anchor_waiting] at hw
    split at hw
    · exact List.mem_of_mem_tail hw
    · exact hw

theorem Neat.close (h : c.Neat) (hs : c.Sound) {outer : List Context}
    {stops : List Position} {awaits : Option Nat} {clock : Nat}
    (ordered : stops.Pairwise fun p q ↦ p.offset ≤ q.offset)
    (between : ∀ p ∈ stops, c.clock ≤ p.offset ∧ p.offset ≤ clock) (later : c.clock ≤ clock) :
    { c.send (Event.closing stops outer.length) with contexts := outer, awaits, clock }.Neat := by
  obtain ⟨-, hroot, hframes, -⟩ :=
    (c.assembly.replay (stops.map .bodyLeft)).closeWaiting_fields outer.length
      (c.assembly.replay (stops.map .bodyLeft)).waiting
  refine ⟨?_, fun w hw ↦ h.waiting w ?_⟩
  · change (c.assembly.replay (Event.closing stops outer.length)).Neat clock
    rw [c.assembly.replay_closing stops outer.length]
    exact (h.assembly.leaveBodies hs.nested ordered between later).of_eq hroot hframes
  · replace hw : w ∈ (c.assembly.replay (Event.closing stops outer.length)).waiting := hw
    rw [Assembly.closing_waiting hs.deeper] at hw
    exact (List.mem_filter.mp hw).1

/-- Every move that sends tags inside their comments keeps them in place. -/
theorem Move.neat (hs : c.Sound) (hc : c.Covered → c.Neat) (h : Move source c d)
    (hd : d.Covered) : d.Neat := by
  cases h with
  | @idle es awaits clock brackets waits later =>
    have hneat := hc hd.of_send.1
    rw [send, Assembly.replay_brackets brackets]
    exact ⟨hneat.assembly.mono later, hneat.waiting⟩
  | comment later ordered inside place =>
    obtain ⟨hcovered, htags⟩ := Covered.of_send hd
    exact (hc hcovered).comment hs later ordered (htags _ (List.mem_singleton_self _))
  | anchor later ordered kinds place => exact (hc hd.of_send.1).anchor hs later ordered
  | openBlock later fresh => exact ⟨(hc hd).assembly.mono later, (hc hd).waiting⟩
  | @enterBody opened indent later waits ready =>
    have hneat := hc hd.of_send.1
    obtain ⟨-, slot, n, anchor, hpoised, -⟩ := hs.poised _ waits (Nat.le_refl _)
    refine ⟨hneat.assembly.enterBody hs.nested hpoised later, fun w hw ↦ hneat.waiting w ?_⟩
    exact (c.assembly.enterBody_waiting opened) ▸ hw
  | close split each ordered between later waits =>
    exact (hc hd.of_send.1).close hs ordered between later

end Course

/-- Every pass that a scan reaches has its tags in place. -/
theorem Pass.neat_of_reaches {s : Setup} {source : List Char} {p : Pass}
    (h : Reaches (step s) (start s source) p) : p.course.Neat := by
  have hinvariant : p.course.Sound ∧ (p.course.Covered → p.course.Neat) := by
    refine (reaches_moves h).1.invariant (P := fun c ↦ c.Sound ∧ (c.Covered → c.Neat)) ?_
      ⟨Course.sound_start s source,
        fun _ ↦ ⟨Assembly.neat_start source s.options.maxBlankLines, fun w hw ↦ by cases hw⟩⟩
    exact fun c d hc hm ↦ ⟨hm.sound hc.1, hm.neat hc.1 hc.2⟩
  exact hinvariant.2 (covered_of_reaches h)

/-! ## Outlines -/

/-- The root of an outline is for tags of no anchor around them, and what is below it is well nested
and tidy. -/
theorem Setup.tidy_scan (s : Setup) (source : List Char) :
    let root := (s.scan source).outline.root
    (∀ t ∈ root.tags, t.placement = .enclosingAnchor) ∧
      ∀ c ∈ root.children, c.WellNested ∧ c.Tidy := by
  obtain ⟨p, hreach, hsettled, -, hframes, hroot⟩ := s.scan_root source
  have hreg := (Pass.reaches_moves hreach).2
  have hsound := Pass.sound_of_reaches hreach
  have hclock : p.course.clock = p.lastEnd.offset := hsettled.clock
  have hlast := hreg.lastEnd
  obtain ⟨hnested, -⟩ := Pass.closeAll_nested hreg hsound hsettled
  have hneat : (p.closeAll s.grammar).assembly.Neat p.cursor.position.offset := by
    rw [Pass.closeAll_eq, Pass.flatMap_leaving _ _ hreg.contexts]
    refine (Pass.neat_of_reaches hreach).assembly.leaveBodies hsound.nested
      (List.pairwise_replicate.mpr (.inr (Nat.le_refl _))) ?_ (by rw [hclock]; exact hlast)
    intro q hq
    rw [List.eq_of_mem_replicate hq, hclock]
    split <;> omega
  have hmem : (p.closeAll s.grammar).assembly.root ∈ (p.closeAll s.grammar).assembly.openNodes := by
    rw [Assembly.openNodes, hframes]
    exact List.mem_singleton_self _
  obtain ⟨hown, htidy⟩ := hneat.nodes _ hmem
  dsimp only
  rw [hroot]
  refine ⟨fun t ht ↦ ?_, fun c hc ↦ ⟨(hnested.isOpen _ hmem).2 c hc, htidy c hc⟩⟩
  have hadmits := hown t ht
  unfold Node.Admits at hadmits
  cases hplace : t.placement with
  | enclosingAnchor => rfl
  | nextAnchor =>
    rw [hplace] at hadmits
    obtain ⟨a, ha, -⟩ := hadmits
    rw [hnested.root_anchor] at ha
    cases ha
  | freeFloating =>
    rw [hplace] at hadmits
    exact hadmits.elim

namespace Node

variable {n m : Node} {v : Visit} {t : Tag}

/-- A node with an anchor whose span contains a tag from after the anchor. -/
def Surrounds (n : Node) (t : Tag) : Prop :=
  ∃ a, n.anchor = some a ∧ n.span.contains t.span = true ∧
    a.span.stop.offset ≤ t.span.start.offset

/-- A node of a tree has a tag that belongs there by its placement: on the root or around the tag;
without an anchor, below the root or a node around it; ahead of an anchor, or without one. -/
def Visit.Suits (root : Node) (v : Visit) (t : Tag) : Prop :=
  match t.placement with
  | .enclosingAnchor => v = ⟨root, none, 0⟩ ∨ v.node.Surrounds t
  | .freeFloating =>
    v.node.anchor = none ∧ v.node.span.contains t.span = true ∧
      ∃ parent, v.parent = some parent ∧ (parent = root ∨ parent.Surrounds t)
  | .nextAnchor =>
    (∃ a, v.node.anchor = some a ∧ t.span.stop.offset ≤ a.span.start.offset) ∨
      v.node.anchor = none ∧ v.node.span.contains t.span = true

/-- A node surrounds the tags of its body that its span contains. -/
theorem Lined.surrounds (h : n.Lined) (hanchor : n.anchor ≠ none) (ht : t ∈ n.bodyTags)
    (hspan : n.span.contains t.span = true) : n.Surrounds t := by
  obtain ⟨a, ha⟩ := Option.ne_none_iff_exists'.mp hanchor
  exact ⟨a, ha, hspan, (h.spans a ha t ht).1⟩

end Node

/-- The nodes of an outline other than the root are well nested and hold their tags in place. -/
theorem Setup.fits_scan (s : Setup) (source : List Char) :
    let root := (s.scan source).outline.root
    ∀ n ∈ root.nodes, (n = root ∨ n.Fits) ∧
      ∀ c ∈ n.children, c.Fits ∧ ∀ t ∈ c.tags, c.Seats t := by
  intro root n hn
  have hchildren : ∀ c ∈ root.children, c.WellNested ∧ c.Tidy := (s.tidy_scan source).2
  rw [Node.nodes_eq, List.mem_cons, List.mem_flatMap] at hn
  rcases hn with rfl | ⟨d, hd, hn⟩
  · refine ⟨.inl rfl, fun c hc ↦ ?_⟩
    exact ⟨(hchildren c hc).1 c c.mem_nodes_self, (hchildren c hc).2 c c.mem_nodes_self⟩
  · obtain ⟨hnested, htidy⟩ := hchildren d hd
    refine ⟨.inr (hnested n hn), fun c hc ↦ ?_⟩
    have hmem := Node.mem_nodes_trans hn hc
    exact ⟨hnested c hmem, htidy c hmem⟩

/-- Every tag of an outline sits on a node that suits its placement. -/
theorem scan_seats_tags_by_placement (s : Setup) (source : List Char) :
    let root := (s.scan source).outline.root
    ∀ v ∈ root.walk, ∀ t ∈ v.node.tags, v.Suits root t := by
  intro root v hv t ht
  have hroot : ∀ t ∈ root.tags, t.placement = .enclosingAnchor := (s.tidy_scan source).1
  have hlined : root.AllLined := s.allLined_scan source
  unfold Node.Visit.Suits
  rcases Node.eq_or_child_of_mem_walk hv with rfl | ⟨m, hm, hparent, hnode⟩
  · rw [hroot t ht]
    exact .inl rfl
  obtain ⟨hfits, hbelow⟩ := s.fits_scan source m hm
  obtain ⟨-, hseats⟩ := hbelow v.node hnode
  have hseat := hseats t ht
  unfold Node.Seats at hseat
  cases hplace : t.placement with
  | enclosingAnchor =>
    cases ha : v.node.anchor with
    | none =>
      rw [hplace, ha] at hseat
      exact hseat.elim
    | some a =>
      rw [hplace, ha] at hseat
      have hown : t ∈ v.node.bodyTags :=
        List.mem_append_left _ (List.mem_filter.mpr ⟨ht, decide_eq_true hplace⟩)
      have hline := hlined v.node (Node.mem_nodes_trans hm hnode)
      exact .inr (hline.surrounds (by rw [ha]; simp) hown hseat)
  | freeFloating =>
    cases ha : v.node.anchor with
    | some a =>
      rw [hplace, ha] at hseat
      exact hseat.elim
    | none =>
      rw [hplace, ha] at hseat
      refine ⟨rfl, hseat, m, hparent, hfits.imp id fun hfits ↦ ?_⟩
      have hanchor : m.anchor ≠ none := by
        intro hnone
        rw [(hfits.floating hnone).1] at hnode
        cases hnode
      have hbody : t ∈ m.bodyTags := by
        refine List.mem_append_right _ (List.mem_flatMap.mpr ⟨v.node, hnode, ?_⟩)
        rw [Node.allTags_eq_append]
        exact List.mem_append_left _ ht
      have hinside := Span.contains_iff.mp (hfits.hosts.contains hnode (Nat.le_refl _))
      have hspan := Span.contains_iff.mp hseat
      refine (hlined m hm).surrounds hanchor hbody (Span.contains_iff.mpr ?_)
      exact ⟨hinside.1.trans hspan.1, hspan.2.trans hinside.2⟩
  | nextAnchor =>
    cases ha : v.node.anchor with
    | none =>
      rw [hplace, ha] at hseat
      exact .inr ⟨rfl, hseat⟩
    | some a =>
      rw [hplace, ha] at hseat
      exact .inl ⟨a, rfl, hseat⟩

end Marginalia
