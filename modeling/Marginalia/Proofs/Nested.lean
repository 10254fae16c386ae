import Marginalia.Proofs.Fields
import Marginalia.Proofs.Seats
import Mathlib.Data.List.Chain

/-!
# Well nested outlines

A finished node spans its anchor and its children, whose anchors do not overlap. While an outline
is assembled, the anchors with open bodies form a chain from the innermost one to the root: their
children are finished, but their own ends are still to come.
-/

namespace Marginalia

open scoped List

namespace Node

variable {n m c parent : Node} {clock clock' : Nat}

/-- The kind of a node's anchor. -/
def kind? (n : Node) : Option AnchorKind := n.anchor.map (·.kind)

/-- Nodes whose spans do not overlap if both have an anchor. -/
def Apart (n m : Node) : Prop :=
  n.anchor.isSome = true → m.anchor.isSome = true →
    n.span.stop.offset ≤ m.span.start.offset ∨ m.span.stop.offset ≤ n.span.start.offset

theorem Apart.symm (h : n.Apart m) : m.Apart n := fun hm hn ↦ (h hn hm).symm

/-- The children of a node lie between its start and a given end, those with an anchor apart from
each other, and no class holds a function. -/
structure Hosts (stop : Nat) (n : Node) : Prop where
  inside : ∀ c ∈ n.children, n.span.start.offset ≤ c.span.start.offset ∧ c.span.stop.offset ≤ stop
  apart : n.children.Pairwise Apart
  kinds : n.kind? = some .classDecl → ∀ c ∈ n.children, c.kind? ≠ some .functionDecl

/-- A finished node below the root. -/
structure Fits (n : Node) : Prop where
  ordered : n.span.start.offset ≤ n.span.stop.offset
  hosts : n.Hosts n.span.stop.offset
  anchored : ∀ a, n.anchor = some a → n.span.start = a.span.start ∧
    a.span.stop.offset ≤ n.span.stop.offset
  floating : n.anchor = none → n.children = [] ∧ n.tags ≠ []

/-- A finished node, with all nodes below it. -/
def WellNested (n : Node) : Prop := ∀ m ∈ n.nodes, m.Fits

theorem wellNested_iff : n.WellNested ↔ n.Fits ∧ ∀ c ∈ n.children, c.WellNested := by
  unfold WellNested
  rw [nodes_eq]
  simp only [List.mem_cons, List.mem_flatMap, forall_eq_or_imp, forall_exists_index, and_imp]
  exact and_congr_right fun _ ↦ ⟨fun h c hc m hm ↦ h m c hc hm, fun h m c hc hm ↦ h c hc m hm⟩

/-- An open node: its children are finished and lie before the clock. -/
def Open (clock : Nat) (n : Node) : Prop := n.Hosts clock ∧ ∀ c ∈ n.children, c.WellNested

/-- An open node is in place below its parent, which is open too: it comes after all anchors that
the parent has, and its body has opened. -/
structure Below (clock : Nat) (n parent : Node) : Prop where
  anchored : ∃ a, n.anchor = some a ∧ n.span.start = a.span.start ∧
    a.span.stop.offset ≤ n.span.stop.offset
  ordered : n.span.start.offset ≤ n.span.stop.offset
  opened : n.span.stop.offset ≤ clock
  inside : parent.span.start.offset ≤ n.span.start.offset
  last : ∀ c ∈ parent.children, c.anchor.isSome = true →
    c.span.stop.offset ≤ n.span.start.offset
  kinds : parent.kind? = some .classDecl → n.kind? ≠ some .functionDecl

theorem Hosts.mono (h : n.Hosts clock) (hle : clock ≤ clock') : n.Hosts clock' :=
  ⟨fun c hc ↦ ⟨(h.inside c hc).1, (h.inside c hc).2.trans hle⟩, h.apart, h.kinds⟩

theorem Open.mono (h : n.Open clock) (hle : clock ≤ clock') : n.Open clock' := ⟨h.1.mono hle, h.2⟩

theorem Below.mono (h : n.Below clock parent) (hle : clock ≤ clock') : n.Below clock' parent :=
  { h with opened := h.opened.trans hle }

theorem Hosts.of_empty (h : n.children = []) : n.Hosts clock := by
  constructor <;> simp [h]

theorem Open.of_empty (h : n.children = []) : n.Open clock := ⟨.of_empty h, by simp [h]⟩

/-- A node may gain a finished child that is apart from the others. -/
theorem Open.add (h : n.Open clock) (hanchor : m.anchor = n.anchor)
    (hstart : m.span.start = n.span.start) (hperm : m.children ~ c :: n.children)
    (hc : c.WellNested) (hinside : n.span.start.offset ≤ c.span.start.offset)
    (hstop : c.span.stop.offset ≤ clock) (hapart : ∀ d ∈ n.children, c.Apart d)
    (hkind : n.kind? = some .classDecl → c.kind? ≠ some .functionDecl) : m.Open clock := by
  have hmem : ∀ d, d ∈ m.children ↔ d = c ∨ d ∈ n.children := by
    intro d
    rw [hperm.mem_iff, List.mem_cons]
  refine ⟨⟨?_, ?_, ?_⟩, ?_⟩
  · intro d hd
    rw [hstart]
    rcases (hmem d).mp hd with rfl | hd
    · exact ⟨hinside, hstop⟩
    · exact h.1.inside d hd
  · rw [List.Perm.pairwise_iff Apart.symm hperm, List.pairwise_cons]
    exact ⟨hapart, h.1.apart⟩
  · intro hclass d hd
    rw [kind?, hanchor] at hclass
    rcases (hmem d).mp hd with rfl | hd
    · exact hkind hclass
    · exact h.1.kinds hclass d hd
  · intro d hd
    rcases (hmem d).mp hd with rfl | hd
    · exact hc
    · exact h.2 d hd

/-- A node may lose children. -/
theorem Open.remove (h : n.Open clock) (hanchor : m.anchor = n.anchor)
    (hstart : m.span.start = n.span.start) (hsub : m.children.Sublist n.children) :
    m.Open clock := by
  refine ⟨⟨?_, h.1.apart.sublist hsub, ?_⟩, fun d hd ↦ h.2 d (hsub.subset hd)⟩
  · intro d hd
    rw [hstart]
    exact h.1.inside d (hsub.subset hd)
  · intro hclass d hd
    rw [kind?, hanchor] at hclass
    exact h.1.kinds hclass d (hsub.subset hd)

/-- Tags in a comment make a finished node. -/
theorem wellNested_floating {tags : List Tag} {span : Span} (htags : tags ≠ [])
    (hspan : span.start.offset ≤ span.stop.offset) : WellNested { tags, span } := by
  rw [wellNested_iff]
  refine ⟨⟨hspan, .of_empty rfl, by simp, fun _ ↦ ⟨rfl, htags⟩⟩, by simp⟩

/-- An anchor without a body makes a finished node. -/
theorem wellNested_anchor {a : Anchor} (tags : List Tag)
    (hspan : a.span.start.offset ≤ a.span.stop.offset) :
    WellNested { anchor := some a, tags, span := a.span } := by
  rw [wellNested_iff]
  refine ⟨⟨hspan, .of_empty rfl, ?_, by simp⟩, by simp⟩
  rintro b hb
  cases hb
  exact ⟨rfl, Nat.le_refl _⟩

/-- The end of its body finishes an open node. -/
theorem wellNested_close {stop : Position} (h : n.Open clock) (hb : n.Below clock parent)
    (hstop : clock ≤ stop.offset) :
    WellNested { n with span := { n.span with stop } } := by
  rw [wellNested_iff]
  obtain ⟨a, ha, hstart, hheader⟩ := hb.anchored
  have hopened := hb.opened.trans hstop
  refine ⟨⟨hb.ordered.trans hopened, ?_, ?_, ?_⟩, h.2⟩
  · exact ⟨(h.1.mono hstop).inside, h.1.apart, h.1.kinds⟩
  · intro b hb'
    rw [show n.anchor = some b from hb'] at ha
    cases ha
    exact ⟨hstart, hheader.trans hopened⟩
  · intro hnone
    rw [show n.anchor = none from hnone] at ha
    cases ha

end Node

namespace Assembly

variable {a : Assembly} {clock clock' : Nat}

/-- The open nodes, innermost first; the root is the outermost. -/
def openNodes (a : Assembly) : List Node := a.frames.map (·.node) ++ [a.root]

theorem openNodes_eq (a : Assembly) : a.openNodes = a.top :: a.openNodes.tail := by
  unfold openNodes top
  cases a.frames <;> rfl

theorem openNodes_mapTop (a : Assembly) (f : Node → Node) :
    (a.mapTop f).openNodes = f a.top :: a.openNodes.tail := by
  unfold openNodes mapTop top
  cases a.frames <;> rfl

/-- The open nodes of an assembly are in order, and what they hold is finished. -/
structure Nested (clock : Nat) (a : Assembly) : Prop where
  root_anchor : a.root.anchor = none
  root_start : a.root.span.start.offset = 0
  isOpen : ∀ n ∈ a.openNodes, n.Open clock
  chain : a.openNodes.IsChain (Node.Below clock)

theorem nested_start (source : List Char) (maxBlankLines : Nat) :
    (start source maxBlankLines).Nested 0 := by
  refine ⟨rfl, rfl, ?_, List.isChain_singleton _⟩
  intro n hn
  rw [List.mem_singleton.mp hn]
  exact .of_empty rfl

theorem Nested.mono (h : a.Nested clock) (hle : clock ≤ clock') : a.Nested clock' :=
  ⟨h.root_anchor, h.root_start, fun n hn ↦ (h.isOpen n hn).mono hle,
    h.chain.imp fun _ _ hb ↦ hb.mono hle⟩

/-- Only the frames and the root matter. -/
theorem Nested.of_eq {b : Assembly} (h : a.Nested clock) (hroot : b.root = a.root)
    (hframes : b.frames = a.frames) : b.Nested clock := by
  have hopen : b.openNodes = a.openNodes := by simp [openNodes, hroot, hframes]
  exact ⟨by rw [hroot]; exact h.root_anchor, by rw [hroot]; exact h.root_start,
    by rw [hopen]; exact h.isOpen, by rw [hopen]; exact h.chain⟩

theorem Nested.top_open (h : a.Nested clock) : a.top.Open clock :=
  h.isOpen a.top (by rw [openNodes_eq]; exact List.mem_cons_self)

theorem mapTop_root (a : Assembly) (f : Node → Node) :
    (a.mapTop f).root = a.root ∨ (a.mapTop f).root = f a.root ∧ a.top = a.root := by
  unfold mapTop top
  cases a.frames
  · exact .inr ⟨rfl, rfl⟩
  · exact .inl rfl

/-- A change of what the innermost open node holds keeps all others in place. -/
theorem Nested.mapTop (h : a.Nested clock) {f : Node → Node}
    (hanchor : (f a.top).anchor = a.top.anchor) (hspan : (f a.top).span = a.top.span)
    (hopen : (f a.top).Open clock) : (a.mapTop f).Nested clock := by
  have hroot : (a.mapTop f).root.anchor = a.root.anchor ∧ (a.mapTop f).root.span = a.root.span := by
    rcases a.mapTop_root f with hr | ⟨hr, ht⟩
    · rw [hr]; exact ⟨rfl, rfl⟩
    · rw [hr, ← ht]; exact ⟨hanchor, hspan⟩
  refine ⟨by rw [hroot.1]; exact h.root_anchor, by rw [hroot.2]; exact h.root_start, ?_, ?_⟩
  · intro n hn
    rw [openNodes_mapTop, List.mem_cons] at hn
    rcases hn with rfl | hn
    · exact hopen
    · exact h.isOpen n (List.mem_of_mem_tail hn)
  · have hchain := h.chain
    rw [openNodes_mapTop]
    rw [openNodes_eq] at hchain
    cases ht : a.openNodes.tail with
    | nil => exact List.isChain_singleton _
    | cons parent rest =>
      rw [ht, List.isChain_cons_cons] at hchain
      rw [List.isChain_cons_cons]
      refine ⟨?_, hchain.2⟩
      obtain ⟨hanchored, hordered, hopened, hinside, hlast, hkinds⟩ := hchain.1
      refine ⟨?_, ?_, ?_, ?_, ?_, ?_⟩
      · rw [hanchor, hspan]; exact hanchored
      · rw [hspan]; exact hordered
      · rw [hspan]; exact hopened
      · rw [hspan]; exact hinside
      · rw [hspan]; exact hlast
      · rw [show (f a.top).kind? = a.top.kind? by rw [Node.kind?, hanchor]; rfl]; exact hkinds

/-- A finished node may be added to the innermost open node if it is apart from what that holds. -/
theorem Nested.insert (h : a.Nested clock) {n : Node} (hn : n.WellNested)
    (hinside : a.top.span.start.offset ≤ n.span.start.offset) (hstop : n.span.stop.offset ≤ clock)
    (hapart : ∀ d ∈ a.top.children, n.Apart d)
    (hkind : a.top.kind? = some .classDecl → n.kind? ≠ some .functionDecl) :
    (a.mapTop (·.insert n)).Nested clock :=
  h.mapTop rfl rfl <|
    h.top_open.add rfl rfl (Node.insert_children_perm _ _) hn hinside hstop hapart hkind

/-! ## Bodies -/

/-- The latest anchor is in place to take a body: nothing has been added to it or in front of it,
and all other anchors beside it come before it. -/
structure Poised (slot : Nat) (n : Node) (anchor : Anchor) (a : Assembly) : Prop where
  latest : a.lastAnchor = some slot
  there : a.top.children[slot]? = some n
  anchored : n.anchor = some anchor
  span : n.span = anchor.span
  empty : n.children = []
  last : ∀ m ∈ a.top.children.eraseIdx slot, m.anchor.isSome = true →
    m.span.stop.offset ≤ anchor.span.start.offset
  keys : ∀ m ∈ a.top.children.take (slot + 1), m.key ≤ anchor.span.start.offset

theorem Poised.enterBody_eq {slot : Nat} {n : Node} {anchor : Anchor}
    (h : a.Poised slot n anchor) (p : Position) :
    a.enterBody p =
      { (a.mapTop fun t ↦ { t with children := t.children.eraseIdx slot }) with
        frames := ⟨{ n with span := { n.span with stop := p } }, slot⟩ ::
          (a.mapTop fun t ↦ { t with children := t.children.eraseIdx slot }).frames
        lastAnchor := none } := by
  simp [enterBody, h.latest, h.there, h.anchored]

theorem Nested.enterBody {slot : Nat} {n : Node} {anchor : Anchor} (h : a.Nested clock)
    (hp : a.Poised slot n anchor) {p : Position} (hle : clock ≤ p.offset) :
    (a.enterBody p).Nested p.offset := by
  have hmem : n ∈ a.top.children := List.mem_of_getElem? hp.there
  have hfits := (Node.wellNested_iff.mp (h.top_open.2 n hmem)).1
  have hinside := h.top_open.1.inside n hmem
  have herase : (a.mapTop fun t ↦ { t with children := t.children.eraseIdx slot }).Nested clock :=
    h.mapTop rfl rfl (h.top_open.remove rfl rfl (List.eraseIdx_sublist _ _))
  have hopen : (a.enterBody p).openNodes =
      { n with span := { n.span with stop := p } } ::
        (a.mapTop fun t ↦ { t with children := t.children.eraseIdx slot }).openNodes := by
    rw [hp.enterBody_eq p]
    rfl
  have hroot : (a.enterBody p).root =
      (a.mapTop fun t ↦ { t with children := t.children.eraseIdx slot }).root := by
    rw [hp.enterBody_eq p]
  refine ⟨by rw [hroot]; exact herase.root_anchor, by rw [hroot]; exact herase.root_start, ?_, ?_⟩
  · intro m hm
    rw [hopen, List.mem_cons] at hm
    rcases hm with rfl | hm
    · exact .of_empty hp.empty
    · exact (herase.isOpen m hm).mono hle
  · have hchain := (herase.mono hle).chain
    rw [openNodes_mapTop] at hchain
    rw [hopen, openNodes_mapTop, List.isChain_cons_cons]
    refine ⟨?_, hchain⟩
    have hstop : n.span.stop.offset ≤ p.offset := hinside.2.trans hle
    refine ⟨⟨anchor, hp.anchored, by rw [hp.span], ?_⟩, hfits.ordered.trans hstop, Nat.le_refl _,
      hinside.1, ?_, ?_⟩
    · rw [← hp.span]; exact hstop
    · rw [hp.span]; exact hp.last
    · exact fun hclass ↦ h.top_open.1.kinds hclass n hmem

/-- The end of a body finishes the innermost open node, which goes back to its parent. -/
theorem Nested.leaveBody (h : a.Nested clock) {stop : Position} (hle : clock ≤ stop.offset) :
    (a.leaveBody stop).Nested stop.offset := by
  unfold Assembly.leaveBody
  split
  · exact h.mono hle
  rename_i f frames hfr
  have hopen : a.openNodes = f.node :: { a with frames }.openNodes := by
    simp [openNodes, hfr]
  have hchain := h.chain
  rw [hopen, openNodes_eq { a with frames }, List.isChain_cons_cons] at hchain
  obtain ⟨hbelow, hrest⟩ := hchain
  have houter : { a with frames }.Nested clock := by
    refine ⟨h.root_anchor, h.root_start, ?_, ?_⟩
    · intro n hn
      exact h.isOpen n (by rw [hopen]; exact List.mem_cons_of_mem _ hn)
    · rw [openNodes_eq]
      exact hrest
  have hinner : f.node.Open clock := h.isOpen f.node (by rw [hopen]; exact List.mem_cons_self)
  have hfinished := Node.wellNested_close hinner hbelow hle
  refine (Nested.mapTop (houter.mono hle) ?_ ?_ ?_).of_eq rfl rfl
  · rfl
  · rfl
  · refine (houter.mono hle).top_open.add rfl rfl ?_ hfinished hbelow.inside (Nat.le_refl _) ?_
      hbelow.kinds
    · refine List.perm_middle.trans ?_
      rw [List.take_append_drop]
    · intro d hd _ hanchored
      exact .inr (hbelow.last d hd hanchored)

end Assembly

end Marginalia
