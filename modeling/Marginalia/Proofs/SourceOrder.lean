import Marginalia.Proofs.WalkOrder

/-!
# Children come in source order

Nodes are ordered by their keys. A new node is added after the children whose keys are no greater,
and one whose body ends goes back to the place that it was taken from, so all depends on keys that
stay as they are while bodies are open. Where children are in order, the place of a new node may
also be searched by halving the range that it lies in.
-/

namespace Marginalia

/-! ## Searching by halves -/

/-- The place between `lo` and `hi` where the items stop to satisfy `p`, found by halves. -/
def bisect {α : Type} (p : α → Bool) (xs : List α) (lo hi : Nat) : Nat :=
  if lo < hi then
    let mid := lo + (hi - lo) / 2
    if xs[mid]?.any p then bisect p xs (mid + 1) hi else bisect p xs lo mid
  else lo
termination_by hi - lo

/-- The place is found if the items in front of it satisfy `p` and those after it do not. -/
theorem bisect_eq {α : Type} {p : α → Bool} {xs : List α} {k lo hi : Nat}
    (hbefore : ∀ x ∈ xs.take k, p x = true) (hafter : ∀ x ∈ xs.drop k, p x = false)
    (hlo : lo ≤ k) (hhi : k ≤ hi) (hlength : hi ≤ xs.length) : bisect p xs lo hi = k := by
  have hitem : ∀ i < xs.length, xs[i]?.any p = decide (i < k) := by
    intro i hi
    rw [List.getElem?_eq_getElem hi, Option.any_some]
    by_cases hik : i < k
    · rw [hbefore _ (List.mem_take_iff_getElem.mpr ⟨i, by omega, rfl⟩), decide_eq_true hik]
    · have hmem : xs[i] ∈ xs.drop k :=
        List.mem_drop_iff_getElem.mpr ⟨i - k, by omega, by congr 1; omega⟩
      rw [hafter _ hmem, decide_eq_false hik]
  fun_induction bisect p xs lo hi with
  | case1 lo hi hlt mid hmid ih =>
    rw [hitem mid (by omega), decide_eq_true_eq] at hmid
    exact ih (by omega) hhi hlength
  | case2 lo hi hlt mid hmid ih =>
    rw [hitem mid (by omega), decide_eq_true_eq] at hmid
    exact ih hlo (by omega) (by omega)
  | case3 lo hi hge => omega

/-! ## Nodes -/

namespace Node

variable {parent n : Node}

/-- The keys of the children do not decrease. -/
def Sorted (n : Node) : Prop := (n.children.map key).Pairwise (· ≤ ·)

/-- The place of a new node among the children, found by halves. -/
def search (parent n : Node) : Nat :=
  bisect (·.key ≤ n.key) parent.children 0 parent.children.length

theorem sorted_iff : n.Sorted ↔ n.children.Pairwise fun c d ↦ c.key ≤ d.key := List.pairwise_map

/-- Searching by halves finds the place of a new node, if the children are in order. -/
theorem Sorted.search_eq_place (h : parent.Sorted) (n : Node) : search parent n = place parent n :=
  bisect_eq (fun c hc ↦ decide_eq_true <| take_place_prefix parent n c hc)
    (fun c hc ↦ decide_eq_false
      (Nat.not_le_of_lt (key_lt_of_mem_drop_place (sorted_iff.mp h) c hc)))
    (Nat.zero_le _) (place_le parent n) (Nat.le_refl _)

/-- A new node leaves the children in order. -/
theorem Sorted.insert (h : parent.Sorted) (n : Node) : (parent.insert n).Sorted := by
  have hsorted := sorted_iff.mp h
  rw [← List.take_append_drop (place parent n) parent.children, List.pairwise_append] at hsorted
  obtain ⟨hfront, hback, hcross⟩ := hsorted
  refine sorted_iff.mpr (List.pairwise_append.mpr ⟨hfront, List.pairwise_cons.mpr ⟨?_, hback⟩, ?_⟩)
  · exact fun c hc ↦ (key_lt_of_mem_drop_place (sorted_iff.mp h) c hc).le
  · intro c hc d hd
    rcases List.mem_cons.mp hd with rfl | hd
    · exact take_place_prefix parent d c hc
    · exact hcross c hc d hd

theorem Ordered.sorted (h : Ordered n.children) : n.Sorted :=
  sorted_iff.mpr (h.siblings.imp And.left)

end Node

/-! ## Scans -/

/-- In every state of a scan, the children of the open nodes are in order. -/
theorem Pass.sorted_of_reaches {s : Setup} {source : List Char} {p : Pass}
    (h : Reaches (step s) (start s source) p) : ∀ n ∈ p.assembly.openNodes, n.Sorted :=
  fun n hn ↦ ((lined_of_reaches h).assembly.rising n hn).children.sorted

/-- The children of every node of an outline come in the order of their keys. While the outline is
assembled, this holds of the open nodes: the place of a new node among their children may be found
by halves, and they are in order with the new node, too. -/
theorem scan_sorts_children (s : Setup) (source : List Char) :
    (∀ n ∈ (s.scan source).outline.root.nodes, (n.children.map Node.key).Pairwise (· ≤ ·)) ∧
      ∀ p, Reaches (Pass.step s) (Pass.start s source) p → ∀ parent ∈ p.assembly.openNodes,
        (parent.children.map Node.key).Pairwise (· ≤ ·) ∧
          ∀ n, parent.search n = parent.place n ∧
            ((parent.insert n).children.map Node.key).Pairwise (· ≤ ·) := by
  refine ⟨fun n hn ↦ (s.allLined_scan source n hn).children.sorted, fun p hp parent hparent ↦ ?_⟩
  have hsorted : parent.Sorted := Pass.sorted_of_reaches hp parent hparent
  exact ⟨hsorted, fun n ↦ ⟨hsorted.search_eq_place n, hsorted.insert n⟩⟩

end Marginalia
