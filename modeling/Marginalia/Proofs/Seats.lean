import Marginalia.Assembly
import Marginalia.Proofs.Walk
import Mathlib.Data.List.Perm.Basic

/-!
# Where tags sit

A tag of an outline sits on the root, on a node with or without an anchor, or among the unresolved
tags. The operations of an assembly move nodes about and put new tags into seats; none of them takes
a seated tag out of its seat. Seats are compared as permutations, because nodes change their places
among their siblings and between the frames and the tree.
-/

namespace Marginalia

open scoped List

/-- A place for tags in an outline. -/
inductive Seat where
  | root
  /-- A node below the root, with its anchor. -/
  | node (anchor : Option Anchor)
  | unresolved
deriving DecidableEq, Repr

namespace Node

/-- The tags of a node, in a given seat, and the tags below it in theirs. -/
def held (seat : Seat) (n : Node) : List (Seat × Tag) :=
  n.tags.map (seat, ·) ++ n.children.flatMap fun c ↦
    c.nodes.flatMap fun m ↦ m.tags.map (Seat.node m.anchor, ·)

/-- The tags of a node below the root, and the tags below it, in their seats. -/
def seated (n : Node) : List (Seat × Tag) := n.held (.node n.anchor)

theorem nodes_flatMap_tags (n : Node) :
    (n.nodes.flatMap fun m ↦ m.tags.map (Seat.node m.anchor, ·)) = n.seated := by
  rw [nodes_eq, List.flatMap_cons, List.flatMap_assoc]
  rfl

theorem held_eq (seat : Seat) (n : Node) :
    n.held seat = n.tags.map (seat, ·) ++ n.children.flatMap seated := by
  rw [held]
  congr 1
  exact List.flatMap_congr fun c _ ↦ c.nodes_flatMap_tags

/-- What a node holds depends on its children only up to their order. -/
theorem held_perm_of_children (seat : Seat) {n m : Node} (new : List Node)
    (htags : m.tags = n.tags) (h : m.children ~ new ++ n.children) :
    m.held seat ~ new.flatMap seated ++ n.held seat := by
  rw [held_eq, held_eq, htags]
  refine ((h.flatMap_right seated).append_left _).trans ?_
  rw [List.flatMap_append]
  exact List.perm_append_comm_assoc _ _ _

theorem insert_children_perm (parent n : Node) :
    (parent.insert n).children ~ n :: parent.children := by
  refine List.perm_middle.trans ?_
  rw [List.take_append_drop]

/-- A tag sits on a node of a tree exactly when the walk meets the node with the tag. -/
theorem mem_seated_iff {n : Node} {a : Option Anchor} {t : Tag} :
    (Seat.node a, t) ∈ n.seated ↔ ∃ m ∈ n.nodes, m.anchor = a ∧ t ∈ m.tags := by
  rw [← nodes_flatMap_tags]
  simp only [List.mem_flatMap, List.mem_map, Prod.mk.injEq, Seat.node.injEq]
  constructor
  · rintro ⟨m, hm, u, hu, ha, rfl⟩
    exact ⟨m, hm, ha, hu⟩
  · rintro ⟨m, hm, ha, hu⟩
    exact ⟨m, hm, t, hu, ha, rfl⟩

end Node

namespace Assembly

/-- The tags of an assembly that do not wait, in their seats. -/
def seated (a : Assembly) : List (Seat × Tag) :=
  a.root.held .root ++ a.frames.flatMap (·.node.seated) ++ a.unresolved.map (Seat.unresolved, ·)

/-- The seat of the innermost open node. -/
def topSeat (a : Assembly) : Seat :=
  match a.frames with
  | [] => .root
  | f :: _ => .node f.node.anchor

/-- A change of the innermost open node that adds tags to what it holds adds them to the
assembly. -/
theorem seated_mapTop {a : Assembly} {f : Node → Node} (new : Seat → List (Seat × Tag))
    (hanchor : ∀ n, (f n).anchor = n.anchor)
    (hheld : ∀ seat, (f a.top).held seat ~ new seat ++ a.top.held seat) :
    (a.mapTop f).seated ~ new a.topSeat ++ a.seated := by
  unfold mapTop seated topSeat
  cases hfr : a.frames with
  | nil =>
    have h : (f a.root).held .root ~ new .root ++ a.root.held .root := by
      simpa [top, hfr] using hheld .root
    simpa [hfr] using h.append_right _
  | cons fr frs =>
    have h : (f fr.node).seated ~ new (.node fr.node.anchor) ++ fr.node.seated := by
      simpa [top, hfr, Node.seated, hanchor] using hheld (.node fr.node.anchor)
    simp only [List.flatMap_cons, List.append_assoc]
    refine ((h.append_right _).append_left _).trans ?_
    simp only [List.append_assoc]
    exact List.perm_append_comm_assoc _ _ _

/-- A node that is added brings its tags with it. -/
theorem seated_insert (a : Assembly) (n : Node) :
    (a.mapTop (·.insert n)).seated ~ n.seated ++ a.seated := by
  refine seated_mapTop (fun _ ↦ n.seated) (fun _ ↦ rfl) fun seat ↦ ?_
  have h := Node.held_perm_of_children seat (n := a.top) (m := a.top.insert n) [n] rfl
    (Node.insert_children_perm _ _)
  simpa using h

/-- Tags that are added to the innermost open node sit on it. -/
theorem seated_addTags (a : Assembly) (ts : List Tag) :
    (a.mapTop fun n ↦ { n with tags := n.tags ++ ts }).seated ~
      ts.map (a.topSeat, ·) ++ a.seated := by
  refine seated_mapTop (fun seat ↦ ts.map (seat, ·)) (fun _ ↦ rfl) fun seat ↦ ?_
  simp only [Node.held_eq, List.map_append, List.append_assoc]
  exact List.perm_append_comm_assoc _ _ _

/-! ## Operations -/

@[simp] theorem seated_report (a : Assembly) (ts : List Tag) (why : String) :
    (a.report ts why).seated = a.seated := rfl

@[simp] theorem seated_dropWaiting (a : Assembly) : a.dropWaiting.seated = a.seated := rfl

theorem seated_leaf (anchor : Option Anchor) (tags : List Tag) (span : Span) :
    Node.seated { anchor, tags, span } = tags.map (Seat.node anchor, ·) := by
  simp [Node.seated, Node.held_eq]

/-- Tags that fall back sit on a node without an anchor. -/
theorem seated_fallBack (a : Assembly) (w : Waiting) (why : String) :
    (a.fallBack w why).seated ~ w.tags.map (Seat.node none, ·) ++ a.seated := by
  have h := seated_insert (a.report w.tags why) { tags := w.tags, span := w.comment }
  rwa [seated_leaf] at h

/-- Tags that are given up join the unresolved ones. -/
theorem seated_giveUp (a : Assembly) (w : Waiting) (why : String) :
    (a.giveUp w why).seated ~ w.tags.map (Seat.unresolved, ·) ++ a.seated := by
  simp only [giveUp, report, seated, List.map_append]
  rw [← List.append_assoc]
  exact List.perm_append_comm

theorem seated_attachEnclosing (a : Assembly) (tags : List Tag) :
    (a.attachEnclosing tags).seated ~
      ((tags.filter (·.placement = .enclosingAnchor)).map Tag.resolve).map (a.topSeat, ·) ++
        a.seated :=
  seated_addTags a _

theorem seated_placeFree (a : Assembly) (tags : List Tag) (span : Span) :
    (a.placeFree tags span).seated ~
      ((tags.filter (·.placement = .freeFloating)).map Tag.resolve).map (Seat.node none, ·) ++
        a.seated := by
  unfold placeFree
  dsimp only
  split
  · rename_i h
    rw [List.isEmpty_iff.mp h]
    exact .refl _
  · have h := seated_insert a
      { tags := (tags.filter (·.placement = .freeFloating)).map Tag.resolve, span }
    rwa [seated_leaf] at h

theorem seated_addAnchor (a : Assembly) (n : Node) :
    (a.addAnchor n).seated ~ n.seated ++ a.seated := seated_insert a n

/-- Opening a body takes a node out of the tree, with all that it holds. -/
theorem seated_enterBody (a : Assembly) (p : Position) : (a.enterBody p).seated ~ a.seated := by
  unfold enterBody
  split
  · exact .refl _
  rename_i slot _
  split
  · exact .refl _
  rename_i n hn
  split
  · exact .refl _
  obtain ⟨hlt, rfl⟩ := List.getElem?_eq_some_iff.mp hn
  -- the tree with the node out of it holds the rest
  have hout : (a.top.children[slot] ).seated ++
      (a.mapTop fun t ↦ { t with children := t.children.eraseIdx slot }).seated ~ a.seated := by
    unfold mapTop seated
    cases hfr : a.frames with
    | nil =>
      simp only [top, hfr] at hlt ⊢
      have h := Node.held_perm_of_children .root (n := { a.root with
        children := a.root.children.eraseIdx slot }) (m := a.root) [a.root.children[slot]] rfl
        (List.getElem_cons_eraseIdx_perm hlt).symm
      simpa [hfr] using h.symm.append_right _
    | cons fr frs =>
      simp only [top, hfr] at hlt ⊢
      have h := Node.held_perm_of_children (.node fr.node.anchor) (n := { fr.node with
        children := fr.node.children.eraseIdx slot }) (m := fr.node) [fr.node.children[slot]] rfl
        (List.getElem_cons_eraseIdx_perm hlt).symm
      simp only [List.flatMap_cons, List.flatMap_nil, List.append_nil, List.append_assoc] at h ⊢
      refine (List.perm_append_comm_assoc _ _ _).trans (List.Perm.append_left _ ?_)
      rw [← List.append_assoc]
      exact h.symm.append_right _
  refine List.Perm.trans ?_ hout
  simp only [seated, List.flatMap_cons, List.append_assoc]
  exact List.perm_append_comm_assoc _ _ _

/-- The end of a body puts the node back, with all that it holds. -/
theorem seated_leaveBody (a : Assembly) (stop : Position) :
    (a.leaveBody stop).seated ~ a.seated := by
  unfold leaveBody
  split
  · exact .refl _
  rename_i f frames hfr
  dsimp only
  have hin : ∀ n : Node, n.seated = f.node.seated →
      ({ a with frames }.mapTop fun t ↦
        { t with children := t.children.take f.slot ++ n :: t.children.drop f.slot }).seated ~
      f.node.seated ++ { a with frames }.seated := by
    intro n hn
    refine seated_mapTop (fun _ ↦ f.node.seated) (fun _ ↦ rfl) fun seat ↦ ?_
    have h := Node.held_perm_of_children seat (n := { a with frames }.top)
      (m := { { a with frames }.top with
        children := { a with frames }.top.children.take f.slot ++
          n :: { a with frames }.top.children.drop f.slot }) [n] rfl
      (by
        refine List.perm_middle.trans ?_
        rw [List.take_append_drop]
        exact .refl _)
    simpa [hn] using h
  refine (hin { f.node with span := { f.node.span with stop } } rfl).trans ?_
  simp only [seated, hfr, List.flatMap_cons, List.append_assoc]
  exact List.perm_append_comm_assoc _ _ _

theorem seated_endBodies (a : Assembly) (stop : Position) :
    (a.endBodies stop).seated ~ a.seated := by
  unfold endBodies
  generalize a.frames.length = k
  induction k with
  | zero => exact .refl _
  | succ k ih => exact (seated_leaveBody _ _).trans ih

end Assembly

/-- The tags of an outline in their seats. -/
def Outline.seated (o : Outline) : List (Seat × Tag) :=
  o.root.held .root ++ o.unresolved.map (Seat.unresolved, ·)

end Marginalia
