import Marginalia.Proofs.Containment

/-!
# Anchors that enclose others

The open nodes of an assembly are the start of one tree: each of them will be a child of the next.
Events only add to that tree, so an anchor that has come to stand below another one stands below it
in the finished outline.
-/

namespace Marginalia

open scoped List

namespace Node

variable {n m k c : Node} {a b : Anchor}

/-- The anchors below a node. -/
def anchorsBelow (n : Node) : List Anchor := (n.children.flatMap nodes).filterMap (·.anchor)

/-- Some node of a tree has the first anchor, and the second one is below it. -/
def Encloses (n : Node) (a b : Anchor) : Prop :=
  ∃ m ∈ n.nodes, m.anchor = some a ∧ b ∈ m.anchorsBelow

instance : Decidable (n.Encloses a b) :=
  inferInstanceAs (Decidable (∃ m ∈ n.nodes, m.anchor = some a ∧ b ∈ m.anchorsBelow))

theorem mem_anchorsBelow :
    b ∈ n.anchorsBelow ↔ ∃ c ∈ n.children, c.anchor = some b ∨ b ∈ c.anchorsBelow := by
  simp only [anchorsBelow, List.mem_filterMap, List.mem_flatMap]
  constructor
  · rintro ⟨m, ⟨c, hc, hm⟩, hb⟩
    rw [nodes_eq, List.mem_cons, List.mem_flatMap] at hm
    rcases hm with rfl | hm
    · exact ⟨m, hc, .inl hb⟩
    · exact ⟨c, hc, .inr ⟨m, hm, hb⟩⟩
  · rintro ⟨c, hc, hb | ⟨m, hm, hb⟩⟩
    · exact ⟨c, ⟨c, hc, c.mem_nodes_self⟩, hb⟩
    · obtain ⟨d, hd, hm⟩ := hm
      exact ⟨m, ⟨c, hc, mem_nodes_of_mem_children hd hm⟩, hb⟩

theorem encloses_iff : n.Encloses a b ↔
    n.anchor = some a ∧ b ∈ n.anchorsBelow ∨ ∃ c ∈ n.children, c.Encloses a b := by
  unfold Encloses
  rw [nodes_eq]
  simp only [List.mem_cons, List.mem_flatMap, exists_eq_or_imp]
  refine or_congr_right ⟨?_, ?_⟩
  · rintro ⟨m, ⟨c, hc, hm⟩, h⟩
    exact ⟨c, hc, m, hm, h⟩
  · rintro ⟨c, hc, m, hm, h⟩
    exact ⟨m, ⟨c, hc, hm⟩, h⟩

/-- A node with the same anchor that has at least the same tags and children, and the same anchors
below it and enclosed in it. Its children may have grown as well. -/
structure Grows (n m : Node) : Prop where
  anchor : m.anchor = n.anchor
  tags : n.tags ⊆ m.tags
  children : ∀ c ∈ n.children, ∃ d ∈ m.children, d.anchor = c.anchor ∧ c.tags ⊆ d.tags
  below : ∀ b ∈ n.anchorsBelow, b ∈ m.anchorsBelow
  encloses : ∀ a b, n.Encloses a b → m.Encloses a b

namespace Grows

theorem refl (n : Node) : n.Grows n where
  anchor := rfl
  tags := List.Subset.refl _
  children c hc := ⟨c, hc, rfl, List.Subset.refl _⟩
  below _ hb := hb
  encloses _ _ hab := hab

theorem trans (h : n.Grows m) (h' : m.Grows k) : n.Grows k where
  anchor := h'.anchor.trans h.anchor
  tags := List.Subset.trans h.tags h'.tags
  children c hc := by
    obtain ⟨d, hd, hanchor, htags⟩ := h.children c hc
    obtain ⟨e, he, hanchor', htags'⟩ := h'.children d hd
    exact ⟨e, he, hanchor'.trans hanchor, List.Subset.trans htags htags'⟩
  below b hb := h'.below b (h.below b hb)
  encloses a b hab := h'.encloses a b (h.encloses a b hab)

/-- A node grows with its children. -/
theorem of_children (hanchor : m.anchor = n.anchor) (htags : n.tags ⊆ m.tags)
    (h : ∀ c ∈ n.children, ∃ d ∈ m.children, c.Grows d) : n.Grows m := by
  have hbelow : ∀ b ∈ n.anchorsBelow, b ∈ m.anchorsBelow := by
    intro b hb
    obtain ⟨c, hc, hb⟩ := mem_anchorsBelow.mp hb
    obtain ⟨d, hd, hcd⟩ := h c hc
    refine mem_anchorsBelow.mpr ⟨d, hd, hb.imp (fun hb ↦ ?_) (hcd.below b)⟩
    rw [hcd.anchor, hb]
  have hchildren : ∀ c ∈ n.children, ∃ d ∈ m.children, d.anchor = c.anchor ∧ c.tags ⊆ d.tags := by
    intro c hc
    obtain ⟨d, hd, hcd⟩ := h c hc
    exact ⟨d, hd, hcd.anchor, hcd.tags⟩
  refine ⟨hanchor, htags, hchildren, hbelow, fun a b hab ↦ ?_⟩
  rw [encloses_iff] at hab ⊢
  rcases hab with ⟨ha, hb⟩ | ⟨c, hc, hab⟩
  · exact .inl ⟨hanchor ▸ ha, hbelow b hb⟩
  · obtain ⟨d, hd, hcd⟩ := h c hc
    exact .inr ⟨d, hd, hcd.encloses a b hab⟩

theorem of_subset (hanchor : m.anchor = n.anchor) (htags : n.tags ⊆ m.tags)
    (h : n.children ⊆ m.children) : n.Grows m :=
  of_children hanchor htags fun c hc ↦ ⟨c, h hc, .refl c⟩

theorem insert (n c : Node) : n.Grows (n.insert c) :=
  of_subset rfl (List.Subset.refl _) fun _ hd ↦
    (insert_children_perm n c).mem_iff.mpr (List.mem_cons_of_mem _ hd)

end Grows

/-! ## Open nodes as a tree -/

/-- The tree of open nodes from the innermost to the outermost, each a child of the next. -/
def plait : Node → List Node → Node
  | n, [] => n
  | n, m :: outer => plait { m with children := n :: m.children } outer

theorem Grows.plait (h : n.Grows m) (outer : List Node) :
    (Node.plait n outer).Grows (Node.plait m outer) := by
  induction outer generalizing n m with
  | nil => exact h
  | cons k outer ih =>
    refine ih (.of_children rfl (List.Subset.refl _) fun c hc ↦ ?_)
    rcases List.mem_cons.mp hc with rfl | hc
    · exact ⟨m, List.mem_cons_self, h⟩
    · exact ⟨c, List.mem_cons_of_mem _ hc, .refl c⟩

theorem encloses_plait_of_encloses (h : n.Encloses a b) (outer : List Node) :
    (plait n outer).Encloses a b := by
  induction outer generalizing n with
  | nil => exact h
  | cons k outer ih => exact ih (encloses_iff.mpr (.inr ⟨n, List.mem_cons_self, h⟩))

/-- All open nodes enclose what is below the innermost of them. -/
theorem encloses_plait {outer : List Node} (ha : some a ∈ (n :: outer).map (·.anchor))
    (hb : b ∈ n.anchorsBelow) : (plait n outer).Encloses a b := by
  induction outer generalizing n with
  | nil =>
    have ha : n.anchor = some a := by simpa [eq_comm] using ha
    exact encloses_iff.mpr (.inl ⟨ha, hb⟩)
  | cons k outer ih =>
    rw [List.map_cons, List.mem_cons] at ha
    rcases ha with ha | ha
    · exact encloses_plait_of_encloses (encloses_iff.mpr (.inl ⟨ha.symm, hb⟩)) _
    · exact ih ha (mem_anchorsBelow.mpr ⟨n, List.mem_cons_self, .inr hb⟩)

end Node

namespace Assembly

variable {a b : Assembly}

/-- The open nodes as one tree. -/
def tree (a : Assembly) : Node := Node.plait a.top a.openNodes.tail

theorem tree_congr (hroot : b.root = a.root) (hframes : b.frames = a.frames) : b.tree = a.tree := by
  simp only [tree, top, openNodes, hroot, hframes]

/-- The tree grows with the innermost open node. -/
theorem grows_of_top (htop : a.top.Grows b.top) (htail : b.openNodes.tail = a.openNodes.tail) :
    a.tree.Grows b.tree := by
  rw [tree, tree, htail]
  exact htop.plait _

theorem grows_mapTop {f : Node → Node} (h : a.top.Grows (f a.top)) :
    a.tree.Grows (a.mapTop f).tree :=
  grows_of_top (by rwa [top_mapTop]) (by rw [openNodes_mapTop, List.tail_cons])

/-- An open node is a child of the next one. -/
theorem tree_push (a : Assembly) (f : Frame) (latest : Option Nat) :
    Assembly.tree { a with frames := f :: a.frames, lastAnchor := latest } =
      (a.mapTop fun t ↦ { t with children := f.node :: t.children }).tree := by
  have hpush : Assembly.tree { a with frames := f :: a.frames, lastAnchor := latest } =
      Node.plait f.node a.openNodes := rfl
  rw [hpush, openNodes_eq, Node.plait, tree, top_mapTop, openNodes_mapTop, List.tail_cons]

theorem grows_insert (a : Assembly) (n : Node) : a.tree.Grows (a.mapTop (·.insert n)).tree :=
  grows_mapTop (.insert a.top n)

theorem grows_addAnchor (a : Assembly) (n : Node) : a.tree.Grows (a.addAnchor n).tree :=
  a.grows_insert n

theorem grows_comment (a : Assembly) (tags : List Tag) (span : Span) (depth : Nat) :
    a.tree.Grows (a.comment tags span depth).tree := by
  refine comment_induction (P := fun b ↦ a.tree.Grows b.tree) ?_ ?_ ?_ ?_ (.refl _)
  · intro b c hroot hframes _ h
    rwa [tree_congr hroot hframes]
  · exact fun b ts h ↦ h.trans
      (grows_mapTop (.of_subset rfl (List.subset_append_left _ _) (List.Subset.refl _)))
  · exact fun b old _ h ↦ h.trans (b.grows_insert _)
  · exact fun b ts _ _ h ↦ h.trans (b.grows_insert _)

theorem grows_anchor (a : Assembly) (anchor : Anchor) (depth : Nat) :
    a.tree.Grows (a.anchor anchor depth).tree := by
  obtain ⟨b, tags, heq, hkeeps⟩ := a.anchor_eq anchor depth
  rw [heq]
  refine (hkeeps (fun b ↦ a.tree.Grows b.tree) ?_ ?_ (.refl _)).trans (b.grows_addAnchor _)
  · intro c d hroot hframes _ h
    rwa [tree_congr hroot hframes]
  · exact fun c w _ h ↦ h.trans (c.grows_insert _)

/-- An anchor is added below the innermost open node. -/
theorem mem_anchorsBelow_anchor (a : Assembly) (x : Anchor) (depth : Nat) :
    x ∈ (a.anchor x depth).top.anchorsBelow := by
  obtain ⟨b, tags, heq, -⟩ := a.anchor_eq x depth
  have htop : (a.anchor x depth).top = b.top.insert { Node.ofAnchor x with tags } := by
    rw [heq]
    exact top_mapTop b _
  rw [htop]
  refine Node.mem_anchorsBelow.mpr ⟨{ Node.ofAnchor x with tags }, ?_, .inl rfl⟩
  exact (Node.insert_children_perm b.top _).mem_iff.mpr List.mem_cons_self

/-- The anchors of all open nodes enclose what is below the innermost of them. -/
theorem tree_encloses {x y : Anchor} {n : Node} (hn : n ∈ a.openNodes) (hx : n.anchor = some x)
    (hy : y ∈ a.top.anchorsBelow) : a.tree.Encloses x y := by
  refine Node.encloses_plait ?_ hy
  rw [← openNodes_eq, ← hx]
  exact List.mem_map_of_mem hn

/-- A child that takes a body goes on to stand below its parent. -/
theorem grows_enterBody (a : Assembly) (p : Position) : a.tree.Grows (a.enterBody p).tree := by
  unfold enterBody
  split
  · exact .refl _
  rename_i slot hslot
  split
  · exact .refl _
  rename_i n hn
  split
  · exact .refl _
  obtain ⟨hlt, hget⟩ := List.getElem?_eq_some_iff.mp hn
  have hgrows : a.top.Grows
      { a.top with children :=
          { n with span := { n.span with stop := p } } :: a.top.children.eraseIdx slot } := by
    refine .of_children rfl (List.Subset.refl _) fun c hc ↦ ?_
    rw [← (List.getElem_cons_eraseIdx_perm hlt).mem_iff, hget, List.mem_cons] at hc
    rcases hc with rfl | hc
    · exact ⟨_, List.mem_cons_self, .of_subset rfl (List.Subset.refl _) (List.Subset.refl _)⟩
    · exact ⟨c, List.mem_cons_of_mem _ hc, .refl c⟩
  generalize hb : (a.mapTop fun t ↦ { t with children := t.children.eraseIdx slot }) = b
  have hopen : a.tree.Grows
      (b.mapTop fun t ↦ { t with
        children := { n with span := { n.span with stop := p } } :: t.children }).tree := by
    rw [← hb]
    refine grows_of_top ?_ ?_
    · rw [top_mapTop, top_mapTop]
      exact hgrows
    · rw [openNodes_mapTop, openNodes_mapTop, List.tail_cons, List.tail_cons]
  exact (b.tree_push ⟨{ n with span := { n.span with stop := p } }, slot⟩ none) ▸ hopen

/-- A node whose body ends stays below its parent. -/
theorem grows_leaveBody (a : Assembly) (stop : Position) :
    a.tree.Grows (a.leaveBody stop).tree := by
  unfold leaveBody
  split
  · exact .refl _
  rename_i f frames hfr
  have hgrows : ∀ t : Node, Node.Grows { t with children := f.node :: t.children }
      { t with children := t.children.take f.slot ++
        { f.node with span := { f.node.span with stop } } :: t.children.drop f.slot } := by
    refine fun t ↦ .of_children rfl (List.Subset.refl _) fun c hc ↦ ?_
    rcases List.mem_cons.mp hc with rfl | hc
    · exact ⟨{ f.node with span := { f.node.span with stop } },
        List.mem_append_right _ List.mem_cons_self,
        .of_subset rfl (List.Subset.refl _) (List.Subset.refl _)⟩
    · refine ⟨c, ?_, .refl c⟩
      rw [← List.take_append_drop f.slot t.children, List.mem_append] at hc
      rw [List.mem_append, List.mem_cons]
      tauto
  have hleft : a.tree.Grows ({ a with frames }.mapTop fun t ↦
      { t with children := t.children.take f.slot ++
        { f.node with span := { f.node.span with stop } } :: t.children.drop f.slot }).tree := by
    have hpush : a.tree = Assembly.tree { { a with frames } with frames := f :: frames } :=
      tree_congr rfl hfr
    rw [hpush, tree_push { a with frames } f a.lastAnchor]
    refine grows_of_top ?_ ?_
    · rw [top_mapTop, top_mapTop]
      exact hgrows _
    · rw [openNodes_mapTop, openNodes_mapTop, List.tail_cons, List.tail_cons]
  exact hleft

/-- Events only add to the tree. -/
theorem grows_apply (a : Assembly) (e : Event) : a.tree.Grows (a.apply e).tree := by
  cases e with
  | comment tags span depth => exact a.grows_comment tags span depth
  | anchor anchor depth => exact a.grows_anchor anchor depth
  | bracketOpened => exact .refl _
  | bracketClosed => exact .refl _
  | bodyEntered p => exact a.grows_enterBody p
  | bodyLeft stop => exact a.grows_leaveBody stop
  | blockClosed depth =>
    obtain ⟨-, hroot, hframes, -⟩ := a.closeWaiting_fields depth a.waiting
    rw [show a.apply (.blockClosed depth) = a.closeWaiting depth a.waiting from rfl,
      tree_congr hroot hframes]
    exact .refl _

theorem grows_replay (a : Assembly) (es : List Event) : a.tree.Grows (a.replay es).tree := by
  induction es generalizing a with
  | nil => exact .refl _
  | cons e es ih => exact (a.grows_apply e).trans (ih _)

/-! ## The owner of a body -/

/-- The body that opened at a place is that of an anchor, as long as it is open. -/
def Owned (p : Position) (x : Anchor) (a : Assembly) : Prop :=
  ∀ f ∈ a.frames, f.node.span.stop = p → f.node.anchor = some x

variable {p : Position} {x : Anchor}

theorem Owned.mapTop (h : a.Owned p x) {f : Node → Node} (hspan : ∀ n, (f n).span = n.span)
    (hanchor : ∀ n, (f n).anchor = n.anchor) : (a.mapTop f).Owned p x := by
  unfold Owned Assembly.mapTop at *
  split
  · rename_i hfr
    simp [hfr]
  · rename_i fr frs hfr
    rw [hfr, List.forall_mem_cons] at h
    rw [List.forall_mem_cons, hspan, hanchor]
    exact h

theorem Owned.comment (h : a.Owned p x) (tags : List Tag) (span : Span) (depth : Nat) :
    (a.comment tags span depth).Owned p x := by
  refine comment_induction (P := Owned p x) ?_ ?_ ?_ ?_ h
  · intro b c _ hframes _ hb
    rwa [Owned, hframes]
  · exact fun b ts hb ↦ hb.mapTop (fun _ ↦ rfl) fun _ ↦ rfl
  · exact fun b old _ hb ↦ hb.mapTop (fun _ ↦ rfl) fun _ ↦ rfl
  · exact fun b ts _ _ hb ↦ hb.mapTop (fun _ ↦ rfl) fun _ ↦ rfl

theorem Owned.anchor (h : a.Owned p x) (other : Anchor) (depth : Nat) :
    (a.anchor other depth).Owned p x := by
  have hinsert : ∀ (b : Assembly) (n : Node), b.Owned p x →
      (b.mapTop (·.insert n)).Owned p x :=
    fun b n hb ↦ hb.mapTop (fun _ ↦ rfl) fun _ ↦ rfl
  obtain ⟨b, tags, heq, hkeeps⟩ := a.anchor_eq other depth
  rw [heq]
  refine hinsert b _ (hkeeps (Owned p x) ?_ (fun c w _ hc ↦ hinsert c _ hc) h)
  intro c d _ hframes _ hc
  rwa [Owned, hframes]

theorem Owned.enterBody (h : a.Owned p x) {q : Position} (hq : q ≠ p) :
    (a.enterBody q).Owned p x := by
  unfold Assembly.enterBody
  split
  · exact h
  split
  · exact h
  split
  · exact h
  rename_i slot _ _ n _ _
  have herase : (a.mapTop fun t ↦ { t with children := t.children.eraseIdx slot }).Owned p x :=
    h.mapTop (fun _ ↦ rfl) fun _ ↦ rfl
  rw [Owned, List.forall_mem_cons]
  exact ⟨fun hstop ↦ absurd hstop hq, herase⟩

theorem Owned.leaveBody (h : a.Owned p x) (stop : Position) :
    (a.leaveBody stop).Owned p x := by
  unfold Assembly.leaveBody
  split
  · exact h
  rename_i f frames hfr
  have hrest : { a with frames }.Owned p x := by
    intro g hg
    exact h g (by rw [hfr]; exact List.mem_cons_of_mem _ hg)
  exact hrest.mapTop (fun _ ↦ rfl) fun _ ↦ rfl

/-- A body has its owner until another one opens at the same place. -/
theorem Owned.replay {es : List Event} (h : a.Owned p x) (hes : .bodyEntered p ∉ es) :
    (a.replay es).Owned p x := by
  induction es generalizing a with
  | nil => exact h
  | cons e es ih =>
    rw [List.mem_cons, not_or] at hes
    refine ih ?_ hes.2
    cases e with
    | comment tags span depth => exact h.comment tags span depth
    | anchor other depth => exact h.anchor other depth
    | bracketOpened => exact h
    | bracketClosed => exact h
    | bodyEntered q => exact h.enterBody fun heq ↦ hes.1 (by rw [heq])
    | bodyLeft stop => exact h.leaveBody stop
    | blockClosed depth =>
      obtain ⟨-, -, hframes, -⟩ := a.closeWaiting_fields depth a.waiting
      rw [show a.apply (.blockClosed depth) = a.closeWaiting depth a.waiting from rfl, Owned,
        hframes]
      exact h

end Assembly

/-! ## Courses and scans -/

/-- A move sends events, and bodies open at or after the clock. -/
theorem Course.Move.sends {source : List Char} {c d : Course} (h : Move source c d) :
    ∃ es, d.assembly = c.assembly.replay es ∧
      (∀ p, .bodyEntered p ∈ es → c.clock ≤ p.offset) ∧ c.clock ≤ d.clock := by
  cases h with
  | @idle es awaits clock brackets waits later =>
    refine ⟨es, rfl, fun p hp ↦ ?_, later⟩
    cases brackets _ hp
  | @comment tags span later ordered inside place =>
    exact ⟨[.comment tags span c.contexts.length], rfl, by simp, later.trans ordered⟩
  | @anchor anchor later ordered kinds place =>
    exact ⟨[.anchor anchor c.contexts.length], rfl, by simp, later.trans ordered⟩
  | openBlock later fresh => exact ⟨[], rfl, by simp, later⟩
  | @enterBody opened indent later waits ready =>
    refine ⟨[.bodyEntered opened], rfl, fun p hp ↦ ?_, later⟩
    cases List.mem_singleton.mp hp
    exact later
  | @close inner outer stops awaits clock split each ordered between later waits =>
    refine ⟨Event.closing stops outer.length, rfl, fun p hp ↦ ?_, later⟩
    simp [Event.closing] at hp

namespace Pass

variable {s : Setup} {source : List Char} {p q : Pass}

/-- A pass that is reached from a regular one is regular and has been moved to. -/
theorem Regular.reaches (h : p.Regular s.grammar source) (hpq : Reaches (step s) p q) :
    Course.Moves source p.course q.course ∧ q.Regular s.grammar source := by
  refine hpq.invariant (P := fun q : Pass ↦ Course.Moves source p.course q.course ∧
    q.Regular s.grammar source) ?_ ⟨.refl _, h⟩
  rintro q r ⟨hmoves, hreg⟩ hqr
  obtain ⟨hmoves', hreg'⟩ := step_moves hreg hqr
  exact ⟨hmoves.trans hmoves', hreg'⟩

/-- A body keeps its owner all along a scan. -/
theorem owned_of_reaches (h : p.Regular s.grammar source) (hpq : Reaches (step s) p q)
    {o : Position} {anchor : Anchor} (ho : o.offset < p.clock)
    (howned : p.assembly.Owned o anchor) : q.assembly.Owned o anchor := by
  have hmoves := (h.reaches hpq).1
  refine (hmoves.invariant (P := fun c ↦ o.offset < c.clock ∧ c.assembly.Owned o anchor) ?_
    ⟨ho, howned⟩).2
  rintro c d ⟨hclock, hc⟩ hcd
  obtain ⟨es, hassembly, hentered, hle⟩ := hcd.sends
  refine ⟨hclock.trans_le hle, ?_⟩
  rw [hassembly]
  exact hc.replay fun hmem ↦ absurd (hentered o hmem) (Nat.not_le.mpr hclock)

/-- What stands below an anchor during a scan stands below it in the outline. -/
theorem grows_scan (h : Reaches (step s) (start s source) p) :
    p.assembly.tree.Grows (s.scan source).outline.root := by
  obtain ⟨q, -, -, hrun, hframes, hroot⟩ := s.scan_root source
  have hpq : Reaches (step s) p q :=
    h.to_end (hrun ▸ reaches_run s _) (hrun ▸ step_run (atComment_start s source))
  have hgrows : p.assembly.tree.Grows q.assembly.tree := by
    refine ((reaches_moves h).2.reaches hpq).1.invariant
      (P := fun c ↦ p.assembly.tree.Grows c.assembly.tree) ?_ (.refl _)
    intro c d hc hcd
    obtain ⟨es, hassembly, -⟩ := hcd.sends
    rw [hassembly]
    exact hc.trans (Assembly.grows_replay _ es)
  have hclose : q.assembly.tree.Grows (q.closeAll s.grammar).assembly.tree := by
    rw [closeAll_eq]
    exact Assembly.grows_replay _ _
  refine (hgrows.trans hclose).trans ?_
  rw [hroot, Assembly.tree, Assembly.top, Assembly.openNodes, hframes]
  exact .of_subset rfl (List.Subset.refl _) (List.Subset.refl _)

end Pass

end Marginalia
