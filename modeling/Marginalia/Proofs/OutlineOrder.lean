import Marginalia.Proofs.TagOrder

/-!
# The order of the tags of an outline

The walk over an outline lists the tags of a node before those below it, and what is below a child
before what is below the next one. Children come in the order of their first tags, or anchors. So
tags are listed in the order of the text as far as that allows: a tag for the enclosing anchor comes
before all that is below its node, and a node comes with all of its body before what stands in the
text between its first tag and its body.
-/

namespace Marginalia

open scoped List

namespace Node

variable {n m c : Node} {t u : Tag} {clock clock' lo hi : Nat}

/-- The tags that the body of a node holds: those for the node as the enclosing anchor, and those of
the nodes below it. -/
def bodyTags (n : Node) : List Tag :=
  n.tags.filter (·.placement = .enclosingAnchor) ++ n.children.flatMap allTags

theorem allTags_eq_append (n : Node) : n.allTags = n.tags ++ n.children.flatMap allTags := by
  rw [allTags_eq, nodes_eq, List.flatMap_cons, List.flatMap_assoc]
  congr 1
  exact List.flatMap_congr fun c _ ↦ (allTags_eq c).symm

/-- The span of a node has no part in its tags. -/
theorem allTags_span (n : Node) (span : Span) : allTags { n with span } = n.allTags := by
  rw [allTags_eq_append, allTags_eq_append]

theorem mem_allTags :
    t ∈ n.allTags ↔ t ∈ n.tags ∧ t.placement ≠ .enclosingAnchor ∨ t ∈ n.bodyTags := by
  rw [allTags_eq_append, bodyTags, List.mem_append, List.mem_append, List.mem_filter,
    decide_eq_true_eq]
  tauto

/-- What starts between two offsets comes after all tags of a node, or before its body. -/
def Beside (lo hi : Nat) (n : Node) : Prop :=
  (∀ v ∈ n.allTags, v.span.start.offset < lo) ∨ ∀ v ∈ n.bodyTags, hi ≤ v.span.start.offset

/-- A tag comes after all tags of a node, or before its body. -/
def BesideTag (t : Tag) (n : Node) : Prop :=
  n.Beside t.span.start.offset (t.span.start.offset + 1)

theorem Beside.tag (h : n.Beside lo hi) (hlo : lo ≤ t.span.start.offset)
    (hhi : t.span.start.offset < hi) : n.BesideTag t :=
  h.imp (fun h v hv ↦ (h v hv).trans_le hlo) fun h v hv ↦ Nat.lt_of_lt_of_le hhi (h v hv)

theorem beside_of_bodyTags (h : n.bodyTags = []) : n.Beside lo hi :=
  .inr fun v hv ↦ by rw [h] at hv; cases hv

/-! ## Finished nodes -/

/-- Children in order: each comes with the key of its first tag, and later ones beside it. -/
structure Ordered (cs : List Node) : Prop where
  keys : ∀ c ∈ cs, ∀ t ∈ c.allTags, c.key ≤ t.span.start.offset
  siblings : cs.Pairwise fun c d ↦ c.key ≤ d.key ∧ ∀ u ∈ d.allTags, c.BesideTag u

/-- A finished node with its tags in order. -/
structure Lined (n : Node) : Prop where
  own : n.tags.Pairwise Tag.Before
  header : ∀ t ∈ n.tags, t.placement ≠ .enclosingAnchor → ∀ v ∈ n.bodyTags, t.Before v
  children : Ordered n.children
  spans : ∀ a, n.anchor = some a → ∀ v ∈ n.bodyTags,
    a.span.stop.offset ≤ v.span.start.offset ∧ v.span.start.offset < n.span.stop.offset

/-- A finished node with all tags below it in order. -/
def AllLined (n : Node) : Prop := ∀ m ∈ n.nodes, m.Lined

theorem allLined_iff : n.AllLined ↔ n.Lined ∧ ∀ c ∈ n.children, c.AllLined := by
  unfold AllLined
  rw [nodes_eq]
  simp only [List.mem_cons, List.mem_flatMap, forall_eq_or_imp, forall_exists_index, and_imp]
  exact and_congr_right fun _ ↦ ⟨fun h c hc m hm ↦ h m c hc hm, fun h m c hc hm ↦ h c hc m hm⟩

theorem Ordered.insertAt {cs : List Node} {k : Nat} (h : Ordered cs)
    (hkeys : ∀ t ∈ m.allTags, m.key ≤ t.span.start.offset)
    (hbefore : ∀ x ∈ cs.take k, x.key ≤ m.key ∧ ∀ u ∈ m.allTags, x.BesideTag u)
    (hafter : ∀ y ∈ cs.drop k, m.key ≤ y.key ∧ ∀ u ∈ y.allTags, m.BesideTag u) :
    Ordered (cs.take k ++ m :: cs.drop k) := by
  have hsplit := h.siblings
  rw [← List.take_append_drop k cs, List.pairwise_append] at hsplit
  refine ⟨?_, ?_⟩
  · intro c hc
    rw [List.mem_append, List.mem_cons] at hc
    rcases hc with hc | rfl | hc
    · exact h.keys c (List.mem_of_mem_take hc)
    · exact hkeys
    · exact h.keys c (List.mem_of_mem_drop hc)
  · refine List.pairwise_append.mpr ⟨hsplit.1, List.pairwise_cons.mpr ⟨hafter, hsplit.2.1⟩, ?_⟩
    intro x hx y hy
    rw [List.mem_cons] at hy
    rcases hy with rfl | hy
    · exact hbefore x hx
    · exact hsplit.2.2 x hx y hy

theorem Ordered.sublist {cs ds : List Node} (h : Ordered cs) (hsub : ds <+ cs) : Ordered ds :=
  ⟨fun c hc ↦ h.keys c (hsub.subset hc), h.siblings.sublist hsub⟩

/-- A new node comes before the children whose keys are greater. -/
theorem key_lt_of_mem_drop_place {parent n : Node}
    (h : parent.children.Pairwise fun c d ↦ c.key ≤ d.key) :
    ∀ y ∈ parent.children.drop (place parent n), n.key < y.key := by
  have hdrop : parent.children.drop (place parent n) =
      parent.children.dropWhile (·.key ≤ n.key) := by
    have hsplit := List.takeWhile_append_dropWhile (p := fun c : Node ↦ decide (c.key ≤ n.key))
      (l := parent.children)
    rw [place]
    nth_rewrite 2 [← hsplit]
    exact List.drop_left' rfl
  rw [hdrop]
  have hsorted := h.sublist (List.dropWhile_sublist (fun c : Node ↦ decide (c.key ≤ n.key)))
  have hfirst := List.head?_dropWhile_not (fun c : Node ↦ decide (c.key ≤ n.key)) parent.children
  cases hcs : parent.children.dropWhile (·.key ≤ n.key) with
  | nil => simp
  | cons c cs =>
    rw [hcs] at hsorted hfirst
    have hc : n.key < c.key := by simpa using hfirst
    intro y hy
    rw [List.mem_cons] at hy
    rcases hy with rfl | hy
    · exact hc
    · exact hc.trans_le ((List.pairwise_cons.mp hsorted).1 y hy)

/-- Tags in order are no earlier than the key of their node. -/
theorem key_le_of_own (h : n.tags.Pairwise Tag.Before) :
    ∀ t ∈ n.tags, n.key ≤ t.span.start.offset := by
  unfold key
  cases htags : n.tags with
  | nil => simp
  | cons u us =>
    rw [htags, List.pairwise_cons] at h
    have hfirst : ∀ t ∈ u :: us, u.span.start.offset ≤ t.span.start.offset := by
      intro t ht
      rw [List.mem_cons] at ht
      rcases ht with rfl | ht
      · exact Nat.le_refl _
      · exact (h.1 t ht).le
    intro t ht
    rw [List.head?_cons]
    cases n.anchor with
    | none => exact hfirst t ht
    | some a => exact (Nat.min_le_left _ _).trans (hfirst t ht)

/-- The key of an anchor is no later than its start. -/
theorem key_le_start (h : n.anchor.isSome = true) : n.key ≤ n.span.start.offset := by
  unfold key
  split
  · exact Nat.le_refl _
  · rename_i hnone _
    rw [hnone] at h
    cases h
  · exact Nat.min_le_right _ _

/-- Tags from after the start of an anchor leave its key. -/
theorem key_append {ts : List Tag} (h : n.anchor.isSome = true)
    (hts : ∀ t ∈ ts, n.span.start.offset ≤ t.span.start.offset) :
    key { n with tags := n.tags ++ ts } = n.key := by
  obtain ⟨a, ha⟩ := Option.isSome_iff_exists.mp h
  unfold key
  rw [ha]
  cases n.tags with
  | cons u us => rfl
  | nil =>
    cases ts with
    | nil => rfl
    | cons t ts => exact Nat.min_eq_right (hts t List.mem_cons_self)

/-! ## Leaves -/

/-- A node for tags of one comment, below which there is nothing. -/
structure Leaf (n : Node) : Prop where
  own : n.tags.Pairwise Tag.Before
  header : ∀ t ∈ n.tags, t.placement ≠ .enclosingAnchor
  empty : n.children = []

theorem Leaf.bodyTags_eq (h : n.Leaf) : n.bodyTags = [] := by
  rw [bodyTags, h.empty, List.flatMap_nil, List.append_nil, List.filter_eq_nil_iff]
  intro t ht
  simpa using h.header t ht

theorem Leaf.allTags_eq (h : n.Leaf) : n.allTags = n.tags := by
  rw [allTags_eq_append, h.empty, List.flatMap_nil, List.append_nil]

theorem Leaf.allLined (h : n.Leaf) : n.AllLined := by
  rw [allLined_iff, h.empty]
  refine ⟨⟨h.own, ?_, by rw [h.empty]; exact ⟨by simp, .nil⟩, ?_⟩, by simp⟩
  · rw [h.bodyTags_eq]
    simp
  · rw [h.bodyTags_eq]
    simp

/-! ## Open nodes -/

/-- An open node with its tags in order so far. Its body has opened where it ends for now. -/
structure Rising (clock : Nat) (n : Node) : Prop where
  own : n.tags.Pairwise Tag.Before
  header : ∀ t ∈ n.tags, t.placement ≠ .enclosingAnchor →
    t.span.start.offset < n.span.stop.offset
  body : ∀ v ∈ n.bodyTags, n.span.stop.offset ≤ v.span.start.offset
  children : Ordered n.children
  lined : ∀ c ∈ n.children, c.AllLined
  before : ∀ t ∈ n.allTags, t.span.start.offset < clock
  opened : n.span.stop.offset ≤ clock

namespace Rising

theorem mono (h : n.Rising clock) (hle : clock ≤ clock') : n.Rising clock' :=
  { h with before := fun t ht ↦ (h.before t ht).trans_le hle, opened := h.opened.trans hle }

theorem before_child (h : n.Rising clock) (hc : c ∈ n.children) (ht : t ∈ c.allTags) :
    t.span.start.offset < clock := by
  refine h.before t ?_
  rw [allTags_eq_append]
  exact List.mem_append_right _ (List.mem_flatMap.mpr ⟨c, hc, ht⟩)

/-- Tags for the enclosing anchor may be added to an open node. -/
theorem attach {ts : List Tag} (h : n.Rising clock) (hts : ts.Pairwise Tag.Before)
    (hplace : ∀ t ∈ ts, t.placement = .enclosingAnchor)
    (hlater : ∀ t ∈ ts, clock ≤ t.span.start.offset ∧ t.span.start.offset < clock')
    (hle : clock ≤ clock') : Rising clock' { n with tags := n.tags ++ ts } := by
  have hown : ∀ t ∈ n.tags, t.span.start.offset < clock := by
    intro t ht
    refine h.before t ?_
    rw [allTags_eq_append]
    exact List.mem_append_left _ ht
  refine ⟨List.pairwise_append.mpr
    ⟨h.own, hts, fun t ht u hu ↦ (hown t ht).trans_le (hlater u hu).1⟩, ?_, ?_, h.children,
    h.lined, ?_, h.opened.trans hle⟩
  · intro t ht hne
    rcases List.mem_append.mp ht with ht | ht
    · exact h.header t ht hne
    · exact absurd (hplace t ht) hne
  · intro v hv
    rw [bodyTags, List.filter_append, List.append_assoc, List.mem_append, List.mem_append] at hv
    rcases hv with hv | hv | hv
    · exact h.body v (List.mem_append_left _ hv)
    · exact h.opened.trans (hlater v (List.mem_filter.mp hv).1).1
    · exact h.body v (List.mem_append_right _ hv)
  · intro t ht
    rw [allTags_eq_append, List.append_assoc, List.mem_append, List.mem_append] at ht
    rcases ht with ht | ht | ht
    · exact (hown t ht).trans_le hle
    · exact (hlater t ht).2
    · refine (h.before t ?_).trans_le hle
      rw [allTags_eq_append]
      exact List.mem_append_right _ ht

/-- A node that goes to its place among the children of an open node, in order with them. -/
theorem put {k : Nat} (h : n.Rising clock) (hm : m.AllLined)
    (hkeys : ∀ t ∈ m.allTags, m.key ≤ t.span.start.offset)
    (hbefore : ∀ x ∈ n.children.take k, x.key ≤ m.key ∧ ∀ u ∈ m.allTags, x.BesideTag u)
    (hafter : ∀ y ∈ n.children.drop k, m.key ≤ y.key ∧ ∀ u ∈ y.allTags, m.BesideTag u)
    (hinside : ∀ t ∈ m.allTags, n.span.stop.offset ≤ t.span.start.offset ∧
      t.span.start.offset < clock) :
    Rising clock { n with children := n.children.take k ++ m :: n.children.drop k } := by
  have hperm : n.children.take k ++ m :: n.children.drop k ~ m :: n.children := by
    refine List.perm_middle.trans ?_
    rw [List.take_append_drop]
  have hmem : ∀ t, t ∈ (n.children.take k ++ m :: n.children.drop k).flatMap allTags ↔
      t ∈ m.allTags ∨ t ∈ n.children.flatMap allTags := by
    intro t
    rw [(hperm.flatMap_right allTags).mem_iff, List.flatMap_cons, List.mem_append]
  refine ⟨h.own, h.header, ?_, h.children.insertAt hkeys hbefore hafter, ?_, ?_, h.opened⟩
  · intro v hv
    rw [bodyTags, List.mem_append, hmem] at hv
    rcases hv with hv | hv | hv
    · exact h.body v (List.mem_append_left _ hv)
    · exact (hinside v hv).1
    · exact h.body v (List.mem_append_right _ hv)
  · intro c hc
    rw [hperm.mem_iff, List.mem_cons] at hc
    rcases hc with rfl | hc
    · exact hm
    · exact h.lined c hc
  · intro t ht
    rw [allTags_eq_append, List.mem_append, hmem] at ht
    rcases ht with ht | ht | ht
    · refine h.before t ?_
      rw [allTags_eq_append]
      exact List.mem_append_left _ ht
    · exact (hinside t ht).2
    · refine h.before t ?_
      rw [allTags_eq_append]
      exact List.mem_append_right _ ht

/-- A leaf may be added to an open node if its tags come beside all children. -/
theorem insert (h : n.Rising clock) (hm : m.Leaf)
    (hbeside : ∀ x ∈ n.children, ∀ u ∈ m.tags, x.BesideTag u)
    (hinside : ∀ t ∈ m.tags, n.span.stop.offset ≤ t.span.start.offset ∧
      t.span.start.offset < clock) : (n.insert m).Rising clock := by
  have hsorted := h.children.siblings.imp fun hcd ↦ hcd.1
  refine h.put hm.allLined ?_ ?_ ?_ ?_
  · rw [hm.allTags_eq]
    exact key_le_of_own hm.own
  · intro x hx
    rw [hm.allTags_eq]
    exact ⟨ take_place_prefix n m x hx, hbeside x (List.mem_of_mem_take hx)⟩
  · exact fun y hy ↦
      ⟨(key_lt_of_mem_drop_place hsorted y hy).le, fun u _ ↦ beside_of_bodyTags hm.bodyTags_eq⟩
  · rw [hm.allTags_eq]
    exact hinside

/-- An open node may lose children. -/
theorem remove {cs : List Node} (h : n.Rising clock) (hsub : cs <+ n.children) :
    Rising clock { n with children := cs } := by
  have htags : ∀ t ∈ cs.flatMap allTags, t ∈ n.children.flatMap allTags := by
    intro t ht
    obtain ⟨c, hc, ht⟩ := List.mem_flatMap.mp ht
    exact List.mem_flatMap.mpr ⟨c, hsub.subset hc, ht⟩
  refine ⟨h.own, h.header, ?_, h.children.sublist hsub, fun c hc ↦ h.lined c (hsub.subset hc), ?_,
    h.opened⟩
  · intro v hv
    rw [bodyTags, List.mem_append] at hv
    exact h.body v (List.mem_append.mpr (hv.imp id (htags v)))
  · intro t ht
    rw [allTags_eq_append, List.mem_append] at ht
    refine h.before t ?_
    rw [allTags_eq_append]
    exact List.mem_append.mpr (ht.imp id (htags t))

/-- A child whose body holds no tags yet may take its body. -/
theorem enter {p : Position} (h : n.Rising clock) (hc : c ∈ n.children) (hempty : c.children = [])
    (hbody : c.bodyTags = []) (hle : clock ≤ p.offset) :
    Rising p.offset { c with span := { c.span with stop := p } } := by
  obtain ⟨hlined, -⟩ := allLined_iff.mp (h.lined c hc)
  have hbefore : ∀ t ∈ c.allTags, t.span.start.offset < p.offset :=
    fun t ht ↦ (h.before_child hc ht).trans_le hle
  refine ⟨hlined.own, ?_, ?_, hlined.children, by simp [hempty], by rwa [allTags_span],
    Nat.le_refl _⟩
  · intro t ht hne
    exact hbefore t (mem_allTags.mpr (.inl ⟨ht, hne⟩))
  · intro v hv
    rw [show bodyTags { c with span := { c.span with stop := p } } = c.bodyTags from rfl,
      hbody] at hv
    cases hv

/-- The end of its body finishes an open node. -/
theorem close {span : Span} (h : n.Rising clock)
    (hanchor : ∀ a, n.anchor = some a → a.span.stop.offset ≤ n.span.stop.offset)
    (hstop : clock ≤ span.stop.offset) : AllLined { n with span } := by
  rw [allLined_iff]
  refine ⟨⟨h.own, ?_, h.children, ?_⟩, h.lined⟩
  · intro t ht hne v hv
    exact (h.header t ht hne).trans_le (h.body v hv)
  · intro a ha v hv
    refine ⟨(hanchor a ha).trans (h.body v hv), ?_⟩
    refine (h.before v ?_).trans_le hstop
    exact mem_allTags.mpr (.inr hv)

/-- The key of an open node is no later than its tags. -/
theorem key_le (h : n.Rising clock) (hanchor : n.anchor.isSome = true)
    (hordered : n.span.start.offset ≤ n.span.stop.offset) :
    ∀ t ∈ n.allTags, n.key ≤ t.span.start.offset := by
  intro t ht
  rw [allTags_eq_append, List.mem_append] at ht
  rcases ht with ht | ht
  · exact key_le_of_own h.own t ht
  · exact ((key_le_start hanchor).trans hordered).trans (h.body t (List.mem_append_right _ ht))

end Rising

end Node

/-! ## Assemblies -/

/-- A frame whose node can go back to its place in the parent: the other children keep to their
sides of it, and have all come before its body. -/
structure Frame.Held (f : Frame) (parent : Node) : Prop where
  keysBefore : ∀ x ∈ parent.children.take f.slot, x.key ≤ f.node.key
  keysAfter : ∀ y ∈ parent.children.drop f.slot, f.node.key ≤ y.key
  early : ∀ x ∈ parent.children, ∀ t ∈ x.allTags, t.span.start.offset < f.node.span.stop.offset
  beside : ∀ x ∈ parent.children.take f.slot, ∀ u ∈ f.node.tags, u.placement ≠ .enclosingAnchor →
    x.BesideTag u
  opened : parent.span.stop.offset ≤ f.node.span.stop.offset
  inside : ∀ u ∈ f.node.tags, u.placement ≠ .enclosingAnchor →
    parent.span.stop.offset ≤ u.span.start.offset

/-- A frame stays held if only what comes after the opening of its body changes. -/
theorem Frame.Held.of_eq {f : Frame} {parent n : Node} (h : f.Held parent)
    (hkey : n.key = f.node.key) (hspan : n.span = f.node.span)
    (htags : ∀ t ∈ n.tags, t.placement ≠ .enclosingAnchor → t ∈ f.node.tags) :
    Frame.Held { f with node := n } parent := by
  obtain ⟨hbefore, hafter, hearly, hbeside, hopened, hinside⟩ := h
  refine ⟨?_, ?_, ?_, ?_, ?_, ?_⟩
  · rw [hkey]; exact hbefore
  · rw [hkey]; exact hafter
  · rw [hspan]; exact hearly
  · exact fun x hx u hu hne ↦ hbeside x hx u (htags u hu hne) hne
  · rw [hspan]; exact hopened
  · exact fun u hu hne ↦ hinside u (htags u hu hne) hne

/-- A child that is taken out of its parent for its body is held by it. -/
theorem Frame.held_of_erase {parent n : Node} {clock slot : Nat} {p : Position}
    (h : parent.Rising clock) (hn : parent.children[slot]? = some n) (hle : clock ≤ p.offset) :
    Frame.Held ⟨{ n with span := { n.span with stop := p } }, slot⟩
      { parent with children := parent.children.eraseIdx slot } := by
  obtain ⟨hlt, hget⟩ := List.getElem?_eq_some_iff.mp hn
  have hmem : n ∈ parent.children := List.mem_of_getElem? hn
  have htake : (parent.children.eraseIdx slot).take slot = parent.children.take slot := by
    rw [List.eraseIdx_eq_take_drop_succ, List.take_left' (List.length_take_of_le hlt.le)]
  have hdrop : (parent.children.eraseIdx slot).drop slot = parent.children.drop (slot + 1) := by
    rw [List.eraseIdx_eq_take_drop_succ, List.drop_left' (List.length_take_of_le hlt.le)]
  have hsiblings := h.children.siblings
  rw [← List.take_append_drop slot parent.children, ← List.cons_getElem_drop_succ (h := hlt), hget,
    List.pairwise_append, List.pairwise_cons] at hsiblings
  obtain ⟨-, ⟨hafter, -⟩, hbefore⟩ := hsiblings
  refine ⟨?_, ?_, ?_, ?_, h.opened.trans hle, ?_⟩
  · intro x hx
    exact (hbefore x (htake ▸ hx) n List.mem_cons_self).1
  · intro y hy
    exact (hafter y (hdrop ▸ hy)).1
  · intro x hx t ht
    exact (h.before_child (List.mem_of_mem_eraseIdx hx) ht).trans_le hle
  · intro x hx u hu hne
    exact (hbefore x (htake ▸ hx) n List.mem_cons_self).2 u (Node.mem_allTags.mpr (.inl ⟨hu, hne⟩))
  · intro u hu hne
    refine h.body u (List.mem_append_right _ (List.mem_flatMap.mpr ⟨n, hmem, ?_⟩))
    exact Node.mem_allTags.mpr (.inl ⟨hu, hne⟩)

/-- The node of a held frame may go back to its parent when its body ends. -/
theorem Frame.Held.put {f : Frame} {parent : Node} {clock : Nat} {stop : Position}
    (h : f.Held parent) (hparent : parent.Rising clock) (hnode : f.node.Rising clock)
    (hbelow : f.node.Below clock parent) (hle : clock ≤ stop.offset) :
    Node.Rising stop.offset
      { parent with
        children := parent.children.take f.slot ++
          { f.node with span := { f.node.span with stop } } :: parent.children.drop f.slot } := by
  obtain ⟨anchor, hanchor, -, hstop⟩ := hbelow.anchored
  have hbody : ∀ u ∈ f.node.allTags, u.placement ≠ .enclosingAnchor ∧ u ∈ f.node.tags ∨
      f.node.span.stop.offset ≤ u.span.start.offset := by
    intro u hu
    rcases Node.mem_allTags.mp hu with ⟨hu, hne⟩ | hu
    · exact .inl ⟨hne, hu⟩
    · exact .inr (hnode.body u hu)
  have htags := f.node.allTags_span { f.node.span with stop }
  refine (hparent.mono hle).put (hnode.close ?_ hle) ?_ ?_ ?_ ?_
  · intro b hb
    rw [hanchor] at hb
    cases hb
    exact hstop
  · rw [htags]
    exact hnode.key_le (by rw [hanchor]; rfl) hbelow.ordered
  · refine fun x hx ↦ ⟨h.keysBefore x hx, fun u hu ↦ ?_⟩
    rcases hbody u (htags ▸ hu) with ⟨hne, hu⟩ | hu
    · exact h.beside x hx u hu hne
    · exact .inl fun v hv ↦ (h.early x (List.mem_of_mem_take hx) v hv).trans_le hu
  · refine fun y hy ↦ ⟨h.keysAfter y hy, fun u hu ↦ ?_⟩
    exact .inr fun v hv ↦ (h.early y (List.mem_of_mem_drop hy) u hu).trans_le (hnode.body v hv)
  · rw [htags]
    refine fun u hu ↦ ⟨?_, (hnode.before u hu).trans_le hle⟩
    rcases hbody u hu with ⟨hne, hu⟩ | hu
    · exact h.inside u hu hne
    · exact h.opened.trans hu

namespace Assembly

variable {a b : Assembly} {clock clock' slot lo hi : Nat} {n : Node} {anchor : Anchor}

/-- The open nodes have their tags in order, and each frame is held by the node around it. -/
structure Lined (clock : Nat) (a : Assembly) : Prop where
  rising : ∀ n ∈ a.openNodes, n.Rising clock
  held : ∀ f fs, (f :: fs) <:+ a.frames → f.Held { a with frames := fs }.top
  root_stop : a.root.span.stop.offset = 0

/-- What starts between two offsets comes beside all that the open nodes hold. -/
def Aside (lo hi : Nat) (a : Assembly) : Prop :=
  ∀ n ∈ a.openNodes, ∀ c ∈ n.children, c.Beside lo hi

theorem lined_start (source : List Char) (maxBlankLines : Nat) :
    (start source maxBlankLines).Lined 0 := by
  refine ⟨?_, fun f fs h ↦ ?_, rfl⟩
  · intro n hn
    rw [List.mem_singleton.mp hn]
    have htags : Node.allTags {} = [] := by rw [Node.allTags_eq_append]; rfl
    exact ⟨.nil, by simp [start], by simp [Node.bodyTags, start], ⟨by simp [start], .nil⟩,
      by simp [start], by rw [show (start source maxBlankLines).root = {} from rfl, htags]; simp,
      Nat.le_refl _⟩
  · have := h.length_le
    simp [start] at this

theorem top_mem_openNodes (a : Assembly) : a.top ∈ a.openNodes := by
  rw [openNodes_eq]
  exact List.mem_cons_self

theorem Lined.mono (h : a.Lined clock) (hle : clock ≤ clock') : a.Lined clock' :=
  ⟨fun n hn ↦ (h.rising n hn).mono hle, h.held, h.root_stop⟩

theorem Lined.top (h : a.Lined clock) : a.top.Rising clock := h.rising a.top a.top_mem_openNodes

/-- Only the frames and the root matter. -/
theorem Lined.of_eq (h : a.Lined clock) (hroot : b.root = a.root) (hframes : b.frames = a.frames) :
    b.Lined clock := by
  have hopen : b.openNodes = a.openNodes := by simp [openNodes, hroot, hframes]
  refine ⟨by rw [hopen]; exact h.rising, ?_, by rw [hroot]; exact h.root_stop⟩
  intro f fs hsuffix
  have htop : { b with frames := fs }.top = { a with frames := fs }.top := by
    simp only [Assembly.top, hroot]
  rw [htop]
  exact h.held f fs (hframes ▸ hsuffix)

theorem Aside.of_eq (h : a.Aside lo hi) (hroot : b.root = a.root) (hframes : b.frames = a.frames) :
    b.Aside lo hi := by
  have hopen : b.openNodes = a.openNodes := by simp [openNodes, hroot, hframes]
  rw [Aside, hopen]
  exact h

/-- The innermost open node may change in its body. -/
theorem Lined.mapTop {g : Node → Node} (h : a.Lined clock) (hle : clock ≤ clock')
    (hrising : (g a.top).Rising clock') (hkey : a.frames ≠ [] → (g a.top).key = a.top.key)
    (hspan : (g a.top).span = a.top.span)
    (htags : ∀ t ∈ (g a.top).tags, t.placement ≠ .enclosingAnchor → t ∈ a.top.tags) :
    (a.mapTop g).Lined clock' := by
  refine ⟨?_, ?_, ?_⟩
  · intro n hn
    rw [openNodes_mapTop, List.mem_cons] at hn
    rcases hn with rfl | hn
    · exact hrising
    · exact (h.rising n (List.mem_of_mem_tail hn)).mono hle
  · intro f fs hsuffix
    unfold Assembly.mapTop at hsuffix ⊢
    cases hfr : a.frames with
    | nil =>
      rw [hfr] at hsuffix
      exact absurd (List.suffix_nil.mp hsuffix) (List.cons_ne_nil _ _)
    | cons fr frs =>
      have htop : a.top = fr.node := by rw [Assembly.top, hfr]
      rw [hfr] at hsuffix
      dsimp only at hsuffix ⊢
      rw [List.suffix_cons_iff, List.cons.injEq] at hsuffix
      rcases hsuffix with ⟨rfl, rfl⟩ | hsuffix
      · rw [htop] at hkey hspan htags
        exact (h.held fr fs (by rw [hfr])).of_eq (hkey (by rw [hfr]; simp)) hspan htags
      · exact h.held f fs (by rw [hfr]; exact hsuffix.trans (List.suffix_cons fr frs))
  · rcases a.mapTop_root g with hr | ⟨hr, ht⟩
    · rw [hr]
      exact h.root_stop
    · rw [hr, ← ht, hspan, ht]
      exact h.root_stop

theorem Aside.mapTop {g : Node → Node} (h : a.Aside lo hi)
    (hbeside : ∀ c ∈ (g a.top).children, c ∈ a.top.children ∨ c.Beside lo hi) :
    (a.mapTop g).Aside lo hi := by
  intro n hn c hc
  rw [openNodes_mapTop, List.mem_cons] at hn
  rcases hn with rfl | hn
  · rcases hbeside c hc with hc | hc
    · exact h a.top a.top_mem_openNodes c hc
    · exact hc
  · exact h n (List.mem_of_mem_tail hn) c hc

/-- What has been dealt with comes before all that is still to come. -/
theorem Lined.aside (h : a.Lined clock) (hle : clock ≤ lo) : a.Aside lo hi :=
  fun n hn _ hc ↦ .inl fun _ hv ↦ ((h.rising n hn).before_child hc hv).trans_le hle

/-- A leaf may be added to the innermost open node if its tags come beside what that holds. -/
theorem Lined.insert {m : Node} (h : a.Lined clock) (hm : m.Leaf)
    (hbeside : ∀ x ∈ a.top.children, ∀ u ∈ m.tags, x.BesideTag u)
    (hinside : ∀ t ∈ m.tags, a.top.span.stop.offset ≤ t.span.start.offset ∧
      t.span.start.offset < clock) : (a.mapTop (·.insert m)).Lined clock :=
  h.mapTop (Nat.le_refl _) (h.top.insert hm hbeside hinside) (fun _ ↦ rfl) rfl fun _ ht _ ↦ ht

theorem Aside.insert {m : Node} (h : a.Aside lo hi) (hm : m.Leaf) :
    (a.mapTop (·.insert m)).Aside lo hi := by
  refine h.mapTop fun c hc ↦ ?_
  have hmem := (Node.insert_children_perm a.top m).mem_iff.mp hc
  rw [List.mem_cons] at hmem
  rcases hmem with rfl | hmem
  · exact .inr (Node.beside_of_bodyTags hm.bodyTags_eq)
  · exact .inl hmem

/-- The node of a frame is in place below the node around it. -/
theorem Nested.below {f : Frame} {fs : List Frame} (h : a.Nested clock) (hfr : a.frames = f :: fs) :
    f.node.Below clock { a with frames := fs }.top := by
  have hchain := h.chain
  have hopen : a.openNodes = f.node :: { a with frames := fs }.openNodes := by
    simp [openNodes, hfr]
  rw [hopen, openNodes_eq { a with frames := fs }, List.isChain_cons_cons] at hchain
  exact hchain.1

/-- Tags for the enclosing anchor may be added to the innermost open node. -/
theorem Lined.attach {ts : List Tag} (h : a.Lined clock) (hnested : a.Nested clock)
    (hts : ts.Pairwise Tag.Before) (hplace : ∀ t ∈ ts, t.placement = .enclosingAnchor)
    (hlater : ∀ t ∈ ts, clock ≤ t.span.start.offset ∧ t.span.start.offset < clock')
    (hle : clock ≤ clock') :
    (a.mapTop fun n ↦ { n with tags := n.tags ++ ts }).Lined clock' := by
  refine h.mapTop hle (h.top.attach hts hplace hlater hle) ?_ rfl ?_
  · intro hne
    obtain ⟨f, fs, hfr⟩ := List.exists_cons_of_ne_nil hne
    have hbelow := hnested.below hfr
    obtain ⟨anchor, hanchor, -⟩ := hbelow.anchored
    rw [Assembly.top, hfr]
    refine Node.key_append (by rw [hanchor]; rfl) fun t ht ↦ ?_
    exact (hbelow.ordered.trans hbelow.opened).trans (hlater t ht).1
  · intro t ht hne
    rcases List.mem_append.mp ht with ht | ht
    · exact ht
    · exact absurd (hplace t ht) hne

/-- The latest anchor may take a body: no tags belong to its body yet. -/
theorem Lined.enterBody (h : a.Lined clock) (hp : a.Poised slot n anchor) {p : Position}
    (hle : clock ≤ p.offset) : (a.enterBody p).Lined p.offset := by
  have hmem : n ∈ a.top.children := List.mem_of_getElem? hp.there
  obtain ⟨hlined, -⟩ := Node.allLined_iff.mp (h.top.lined n hmem)
  have hbody : n.bodyTags = [] := by
    rw [List.eq_nil_iff_forall_not_mem]
    intro v hv
    obtain ⟨hstop, hlt⟩ := hlined.spans anchor hp.anchored v hv
    rw [hp.span] at hlt
    omega
  generalize hb : (a.mapTop fun t ↦ { t with children := t.children.eraseIdx slot }) = b
  have hrest : b.Lined p.offset := by
    rw [← hb]
    exact h.mapTop hle ((h.top.mono hle).remove (List.eraseIdx_sublist _ _)) (fun _ ↦ rfl) rfl
      fun _ ht _ ↦ ht
  rw [hp.enterBody_eq p, hb]
  refine ⟨?_, ?_, hrest.root_stop⟩
  · intro m hm
    rcases List.mem_cons.mp hm with rfl | hm
    · exact h.top.enter hmem hp.empty hbody hle
    · exact hrest.rising m hm
  · intro f fs hsuffix
    rw [List.suffix_cons_iff, List.cons.injEq] at hsuffix
    rcases hsuffix with ⟨rfl, rfl⟩ | hsuffix
    · have htop : b.top = { a.top with children := a.top.children.eraseIdx slot } := by
        rw [← hb, top_mapTop]
      have hheld := Frame.held_of_erase h.top hp.there hle
      rw [← htop] at hheld
      exact hheld
    · exact hrest.held f fs hsuffix

theorem Aside.enterBody (h : a.Aside lo hi) (hp : a.Poised slot n anchor) (p : Position) :
    (a.enterBody p).Aside lo hi := by
  have hrest : (a.mapTop fun t ↦ { t with children := t.children.eraseIdx slot }).Aside lo hi :=
    h.mapTop fun c hc ↦ .inl (List.mem_of_mem_eraseIdx hc)
  rw [hp.enterBody_eq p]
  intro m hm c hc
  rcases List.mem_cons.mp hm with rfl | hm
  · rw [hp.empty] at hc
    cases hc
  · exact hrest m hm c hc

/-- The end of a body finishes the innermost open node, which goes back to its place. -/
theorem Lined.leaveBody (h : a.Lined clock) (hnested : a.Nested clock) {stop : Position}
    (hle : clock ≤ stop.offset) : (a.leaveBody stop).Lined stop.offset := by
  unfold Assembly.leaveBody
  split
  · exact h.mono hle
  rename_i f fs hfr
  have hrest : { a with frames := fs }.Lined clock := by
    refine ⟨fun n hn ↦ h.rising n ?_, fun g gs hsuffix ↦ h.held g gs ?_, h.root_stop⟩
    · rw [openNodes, hfr]
      exact List.mem_cons_of_mem _ hn
    · rw [hfr]
      exact hsuffix.trans (List.suffix_cons f fs)
  have hnode : f.node.Rising clock := by
    refine h.rising f.node ?_
    rw [openNodes, hfr]
    exact List.mem_cons_self
  have hput := (h.held f fs (by rw [hfr])).put hrest.top hnode (hnested.below hfr) hle
  exact (hrest.mapTop hle hput (fun _ ↦ rfl) rfl fun _ ht _ ↦ ht).of_eq rfl rfl

/-- What ends after something has come is beside it if its body opened after it. -/
theorem Aside.leaveBody (h : a.Aside lo hi) (ha : a.Lined clock) (stop : Position)
    (hopen : ∀ p, a.openings.head? = some p → hi ≤ p.offset) : (a.leaveBody stop).Aside lo hi := by
  unfold Assembly.leaveBody
  split
  · exact h
  rename_i f fs hfr
  have hrest : { a with frames := fs }.Aside lo hi := by
    refine fun n hn ↦ h n ?_
    rw [openNodes, hfr]
    exact List.mem_cons_of_mem _ hn
  have hnode : f.node.Rising clock := by
    refine ha.rising f.node ?_
    rw [openNodes, hfr]
    exact List.mem_cons_self
  have hhi : hi ≤ f.node.span.stop.offset := hopen _ (by rw [openings, hfr]; rfl)
  refine (hrest.mapTop (g := fun t ↦ { t with children := t.children.take f.slot ++
    { f.node with span := { f.node.span with stop } } :: t.children.drop f.slot }) ?_).of_eq rfl rfl
  intro c hc
  rw [List.mem_append, List.mem_cons] at hc
  rcases hc with hc | rfl | hc
  · exact .inl (List.mem_of_mem_take hc)
  · exact .inr (.inr fun v hv ↦ hhi.trans (hnode.body v hv))
  · exact .inl (List.mem_of_mem_drop hc)

end Assembly

end Marginalia
