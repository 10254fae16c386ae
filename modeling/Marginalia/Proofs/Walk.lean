import Marginalia.Outline
import Mathlib.Algebra.GroupWithZero.Nat
import Mathlib.Data.List.Basic

/-!
# Walks

A walk visits a node before the nodes below it, and siblings from left to right. It is drained from
a list of visits that are due; here it is shown to be the recursive traversal of the tree.
-/

namespace Marginalia.Node

/-- What holds of a node whenever it holds of its children holds of every node. -/
theorem induction {P : Node → Prop} (h : ∀ n, (∀ c ∈ n.children, P c) → P n) : ∀ n, P n
  | ⟨anchor, tags, children, span⟩ => h _ fun c _ ↦ induction h c

mutual

/-- The visits of a node and of the nodes below it, parents first. -/
def visits (parent : Option Node) (depth : Nat) : Node → List Visit
  | ⟨anchor, tags, children, span⟩ =>
    ⟨⟨anchor, tags, children, span⟩, parent, depth⟩ ::
      visitsAll (some ⟨anchor, tags, children, span⟩) (depth + 1) children

/-- The visits of several nodes and of the nodes below them. -/
def visitsAll (parent : Option Node) (depth : Nat) : List Node → List Visit
  | [] => []
  | n :: ns => visits parent depth n ++ visitsAll parent depth ns

end

theorem visits_eq (parent : Option Node) (depth : Nat) (n : Node) :
    visits parent depth n = ⟨n, parent, depth⟩ :: visitsAll (some n) (depth + 1) n.children := by
  cases n
  rw [visits]

theorem visitsAll_eq_flatMap (parent : Option Node) (depth : Nat) (ns : List Node) :
    visitsAll parent depth ns = ns.flatMap (visits parent depth) := by
  induction ns with
  | nil => rw [visitsAll]; rfl
  | cons n ns ih => rw [visitsAll, ih, List.flatMap_cons]

theorem size_eq (n : Node) : n.size = sizeAll n.children + 1 := by
  cases n
  rw [size]

theorem sizeAll_eq_sum (ns : List Node) : sizeAll ns = (ns.map size).sum := by
  induction ns with
  | nil => rw [sizeAll]; rfl
  | cons n ns ih => rw [sizeAll, ih, List.map_cons, List.sum_cons]

/-- The visits that are due are drained in order, each followed by the visits below it. -/
theorem drain_eq_flatMap (k : Nat) (due : List Visit)
    (hk : (due.map (·.node.size)).sum ≤ k) :
    drain k due = due.flatMap fun v ↦ visits v.parent v.depth v.node := by
  induction k generalizing due with
  | zero =>
    cases due with
    | nil => rfl
    | cons v due =>
      rw [List.map_cons, List.sum_cons, size_eq] at hk
      omega
  | succ k ih =>
    cases due with
    | nil => rfl
    | cons v due =>
      have hchildren : (v.children.map (·.node.size)).sum = sizeAll v.node.children := by
        rw [sizeAll_eq_sum, Visit.children, List.map_map]
        rfl
      rw [List.map_cons, List.sum_cons, size_eq] at hk
      rw [drain, ih, List.flatMap_cons, List.flatMap_append, visits_eq, visitsAll_eq_flatMap,
        Visit.children, List.flatMap_map]
      · rfl
      · rw [List.map_append, List.sum_append, hchildren]
        omega

/-- The walk is the recursive traversal. -/
theorem walk_eq_visits (n : Node) : n.walk = visits none 0 n := by
  rw [walk, drain_eq_flatMap _ _ (by simp)]
  simp

/-- What passes from a visit to the visits of the children holds all along a walk. -/
theorem walk_induction {P : Visit → Prop} {n : Node} (hroot : P ⟨n, none, 0⟩)
    (hchild : ∀ v, P v → ∀ c ∈ v.children, P c) : ∀ v ∈ n.walk, P v := by
  have hdrain : ∀ k due, (∀ v ∈ due, P v) → ∀ v ∈ drain k due, P v := by
    intro k
    induction k with
    | zero => intro due _ v hv; cases hv
    | succ k ih =>
      intro due hdue v hv
      cases due with
      | nil => cases hv
      | cons w due =>
        rw [drain, List.mem_cons] at hv
        rcases hv with rfl | hv
        · exact hdue v List.mem_cons_self
        · refine ih _ ?_ v hv
          intro u hu
          rcases List.mem_append.mp hu with hu | hu
          · exact hchild w (hdue w List.mem_cons_self) u hu
          · exact hdue u (List.mem_cons_of_mem _ hu)
  exact hdrain _ _ (by simpa using hroot)

/-! ## Nodes -/

/-- The nodes of a tree in the order of the walk. -/
def nodes (n : Node) : List Node := n.walk.map (·.node)

theorem map_node_visits (parent : Option Node) (depth : Nat) (n : Node) :
    (visits parent depth n).map (·.node) = n.nodes := by
  induction n using induction generalizing parent depth with
  | h n ih =>
    have hall : ∀ (parent : Option Node) (depth : Nat),
        (visitsAll parent depth n.children).map (·.node) = n.children.flatMap nodes := by
      intro parent depth
      rw [visitsAll_eq_flatMap, List.map_flatMap]
      exact List.flatMap_congr fun c hc ↦ ih c hc parent depth
    rw [nodes, walk_eq_visits, visits_eq, visits_eq, List.map_cons, List.map_cons, hall, hall]

theorem nodes_eq (n : Node) : n.nodes = n :: n.children.flatMap nodes := by
  rw [nodes, walk_eq_visits, visits_eq, List.map_cons, visitsAll_eq_flatMap, List.map_flatMap]
  congr 1
  exact List.flatMap_congr fun c _ ↦ map_node_visits _ _ c

theorem mem_nodes_self (n : Node) : n ∈ n.nodes := by
  rw [nodes_eq]
  exact List.mem_cons_self

theorem mem_nodes_of_mem_children {n c m : Node} (hc : c ∈ n.children) (hm : m ∈ c.nodes) :
    m ∈ n.nodes := by
  rw [nodes_eq]
  exact List.mem_cons_of_mem _ (List.mem_flatMap.mpr ⟨c, hc, hm⟩)

theorem mem_nodes_trans {n c m : Node} (hm : m ∈ n.nodes) (hc : c ∈ m.children) : c ∈ n.nodes := by
  induction n using Node.induction with
  | h n ih =>
    rw [nodes_eq, List.mem_cons, List.mem_flatMap] at hm
    rcases hm with rfl | ⟨k, hk, hm⟩
    · exact mem_nodes_of_mem_children hc c.mem_nodes_self
    · exact mem_nodes_of_mem_children hk (ih k hk hm)

/-- A walk meets the node it starts from, and children of nodes that it has met. -/
theorem eq_or_child_of_mem_walk {n : Node} {v : Visit} (h : v ∈ n.walk) :
    v = ⟨n, none, 0⟩ ∨ ∃ m ∈ n.nodes, v.parent = some m ∧ v.node ∈ m.children := by
  refine (walk_induction (P := fun v ↦ v.node ∈ n.nodes ∧
    (v = ⟨n, none, 0⟩ ∨ ∃ m ∈ n.nodes, v.parent = some m ∧ v.node ∈ m.children))
    ⟨n.mem_nodes_self, .inl rfl⟩ ?_ v h).2
  rintro v ⟨hv, -⟩ w hw
  obtain ⟨c, hc, rfl⟩ := List.mem_map.mp hw
  exact ⟨mem_nodes_trans hv hc, .inr ⟨v.node, hv, rfl, hc⟩⟩

theorem allTags_eq (n : Node) : n.allTags = n.nodes.flatMap (·.tags) := by
  rw [allTags, nodes, List.flatMap_map]

end Marginalia.Node
