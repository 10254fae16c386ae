import Marginalia.Assembly
import Mathlib.Data.List.Forall2
import Mathlib.Data.List.TakeWhile
import Mathlib.Order.Monotone.Basic

/-!
# Sorted findings

Findings are sorted by where they start, and those that start together keep their order. So what
starts before a place comes before what starts after it, and each part is sorted as if it were
alone.
-/

namespace Marginalia

variable {α β : Type} {key : α → Nat}

/-- Sort by a key; what has the same key keeps its order. -/
def sortBy (key : α → Nat) (l : List α) : List α := l.mergeSort fun a b ↦ decide (key a ≤ key b)

@[simp]
theorem mem_sortBy {a : α} {l : List α} : a ∈ sortBy key l ↔ a ∈ l := List.mem_mergeSort

/-- A sorted list takes a new first element in front of all that have no smaller key. -/
theorem sortBy_cons (a : α) (l : List α) :
    sortBy key (a :: l) = (sortBy key l).takeWhile (key · < key a) ++
      a :: (sortBy key l).dropWhile (key · < key a) := by
  have htrans : ∀ a b c : α, decide (key a ≤ key b) = true → decide (key b ≤ key c) = true →
      decide (key a ≤ key c) = true := by
    simp only [decide_eq_true_eq]
    exact fun a b c ↦ Nat.le_trans
  have htotal : ∀ a b : α, (decide (key a ≤ key b) || decide (key b ≤ key a)) = true := by
    simp only [Bool.or_eq_true, decide_eq_true_eq]
    exact fun a b ↦ Nat.le_total _ _
  obtain ⟨l₁, l₂, hcons, hl, hless⟩ := List.mergeSort_cons htrans htotal a l
  have hsorted := List.pairwise_mergeSort htrans htotal (a :: l)
  have hbefore : ∀ b ∈ l₁, decide (key b < key a) = true := by
    intro b hb
    simpa using hless b hb
  have hafter : l₂.takeWhile (key · < key a) = [] ∧ l₂.dropWhile (key · < key a) = l₂ := by
    cases l₂ with
    | nil => exact ⟨rfl, rfl⟩
    | cons b l₂ =>
      have hb : key a ≤ key b := by
        rw [hcons, List.pairwise_append, List.pairwise_cons] at hsorted
        simpa using hsorted.2.1.1 b List.mem_cons_self
      simp [Nat.not_lt.mpr hb]
  unfold sortBy
  rw [hcons, hl, List.takeWhile_append_of_pos hbefore, List.dropWhile_append_of_pos hbefore,
    hafter.1, hafter.2, List.append_nil]

/-- An element that goes in front of a second list goes to its place in the first. -/
theorem insert_append {p : α → Bool} {m : List α} (hm : ∀ b ∈ m, p b = false) (a : α)
    (l : List α) :
    (l ++ m).takeWhile p ++ a :: (l ++ m).dropWhile p =
      l.takeWhile p ++ a :: l.dropWhile p ++ m := by
  induction l with
  | nil =>
    cases m with
    | nil => rfl
    | cons b m => simp [hm b List.mem_cons_self]
  | cons b l ih =>
    cases hb : p b with
    | true => simpa [hb] using ih
    | false => simp [hb]

/-- What starts before a place comes first. -/
theorem sortBy_eq_append (n : Nat) (l : List α) :
    sortBy key l = sortBy key (l.filter (key · < n)) ++ sortBy key (l.filter (n ≤ key ·)) := by
  induction l with
  | nil => simp [sortBy]
  | cons a l ih =>
    have hlow : ∀ b ∈ sortBy key (l.filter (key · < n)), key b < n := by
      intro b hb
      simpa using (List.mem_filter.mp (mem_sortBy.mp hb)).2
    have hhigh : ∀ b ∈ sortBy key (l.filter (n ≤ key ·)), n ≤ key b := by
      intro b hb
      simpa using (List.mem_filter.mp (mem_sortBy.mp hb)).2
    rw [sortBy_cons, ih]
    by_cases ha : key a < n
    · have hstop : ∀ b ∈ sortBy key (l.filter (n ≤ key ·)), decide (key b < key a) = false := by
        intro b hb
        have := hhigh b hb
        simp only [decide_eq_false_iff_not]
        omega
      rw [List.filter_cons_of_pos (by simpa using ha),
        List.filter_cons_of_neg (by simpa using ha), insert_append hstop, ← sortBy_cons]
    · have hpass : ∀ b ∈ sortBy key (l.filter (key · < n)), decide (key b < key a) = true := by
        intro b hb
        have := hlow b hb
        simp only [decide_eq_true_eq]
        omega
      rw [List.filter_cons_of_neg (by simpa using ha),
        List.filter_cons_of_pos (by simpa using ha), List.takeWhile_append_of_pos hpass,
        List.dropWhile_append_of_pos hpass, sortBy_cons, List.append_assoc]

theorem pairwise_sortBy (key : α → Nat) (l : List α) :
    (sortBy key l).Pairwise fun a b ↦ key a ≤ key b := by
  refine (List.pairwise_mergeSort ?_ ?_ l).imp of_decide_eq_true
  · simp only [decide_eq_true_eq]
    exact fun a b c ↦ Nat.le_trans
  · simp only [Bool.or_eq_true, decide_eq_true_eq]
    exact fun a b ↦ Nat.le_total _ _

/-- What comes after the elements with smaller keys has none. -/
theorem dropWhile_sortBy (key : α → Nat) (k : Nat) (l : List α) :
    ∀ b ∈ (sortBy key l).dropWhile (key · < k), decide (key b < k) = false := by
  have hsorted := (pairwise_sortBy key l).sublist
    (List.dropWhile_sublist (fun b ↦ decide (key b < k)))
  have hhead := List.head?_dropWhile_not (fun b ↦ decide (key b < k)) (sortBy key l)
  cases hdrop : (sortBy key l).dropWhile (key · < k) with
  | nil => simp
  | cons c cs =>
    rw [hdrop, List.pairwise_cons] at hsorted
    rw [hdrop] at hhead
    have hc : decide (key c < k) = false := by simpa using hhead
    intro b hb
    rcases List.mem_cons.mp hb with rfl | hb
    · exact hc
    · have := hsorted.1 b hb
      simp only [decide_eq_false_iff_not] at hc ⊢
      omega

/-- A part of what is sorted is sorted as if it were alone. -/
theorem filter_sortBy (p : α → Bool) (l : List α) :
    (sortBy key l).filter p = sortBy key (l.filter p) := by
  induction l with
  | nil => simp [sortBy]
  | cons a l ih =>
    have hsplit : (sortBy key l).takeWhile (key · < key a) ++
        (sortBy key l).dropWhile (key · < key a) = sortBy key l :=
      List.takeWhile_append_dropWhile
    have hstop := dropWhile_sortBy key (key a) l
    have hpass : ∀ b ∈ ((sortBy key l).takeWhile (key · < key a)).filter p,
        decide (key b < key a) = true := by
      intro b hb
      exact List.mem_takeWhile_imp (p := fun c ↦ decide (key c < key a)) (List.mem_filter.mp hb).1
    have hfilter : (sortBy key l).filter p = ((sortBy key l).takeWhile (key · < key a)).filter p ++
        ((sortBy key l).dropWhile (key · < key a)).filter p := by
      rw [← List.filter_append, hsplit]
    rw [sortBy_cons, List.filter_append]
    cases ha : p a with
    | false =>
      rw [List.filter_cons_of_neg (by simp [ha]), List.filter_cons_of_neg (by simp [ha]),
        ← hfilter, ih]
    | true =>
      rw [List.filter_cons_of_pos ha, List.filter_cons_of_pos ha, sortBy_cons, ← ih]
      rw [hfilter, insert_append fun b hb ↦ hstop b (List.mem_filter.mp hb).1,
        List.takeWhile_eq_self_iff.mpr hpass, List.dropWhile_eq_nil_iff.mpr hpass,
        List.append_assoc]
      rfl

section Threshold

variable {n : Nat} {low high low' high' : List α}

theorem filter_low_append (hlow : ∀ a ∈ low, key a < n) (hhigh : ∀ a ∈ high, n ≤ key a) :
    (low ++ high).filter (key · < n) = low ∧ (low ++ high).filter (n ≤ key ·) = high := by
  constructor
  · rw [List.filter_append, List.filter_eq_self.mpr (by simpa using hlow),
      List.filter_eq_nil_iff.mpr (by simpa using hhigh), List.append_nil]
  · rw [List.filter_append, List.filter_eq_nil_iff.mpr (by simpa using hlow),
      List.filter_eq_self.mpr (by simpa using hhigh), List.nil_append]

theorem sortBy_append (hlow : ∀ a ∈ low, key a < n) (hhigh : ∀ a ∈ high, n ≤ key a) :
    sortBy key (low ++ high) = sortBy key low ++ sortBy key high := by
  obtain ⟨hl, hh⟩ := filter_low_append hlow hhigh
  rw [sortBy_eq_append n, hl, hh]

/-- Findings that are sorted in two stages keep apart what lies before a place and after it. -/
theorem sortBy_append_sortBy (hlow : ∀ a ∈ low, key a < n) (hhigh : ∀ a ∈ high, n ≤ key a)
    (hlow' : ∀ a ∈ low', key a < n) (hhigh' : ∀ a ∈ high', n ≤ key a) :
    sortBy key (sortBy key (low ++ high) ++ (low' ++ high')) =
      sortBy key (sortBy key low ++ low') ++ sortBy key (sortBy key high ++ high') := by
  have hsorted : ∀ a ∈ sortBy key low, key a < n := fun a ha ↦ hlow a (mem_sortBy.mp ha)
  have hsorted' : ∀ a ∈ sortBy key high, n ≤ key a := fun a ha ↦ hhigh a (mem_sortBy.mp ha)
  obtain ⟨hl, hh⟩ := filter_low_append hsorted hsorted'
  obtain ⟨hl', hh'⟩ := filter_low_append hlow' hhigh'
  rw [sortBy_append hlow hhigh, sortBy_eq_append n, List.filter_append (sortBy key low ++ _) _,
    List.filter_append (sortBy key low ++ _) _, hl, hh, hl', hh']

end Threshold

/-- Findings that are exchanged for others in the same order stay sorted. -/
theorem map_sortBy (key : α → Nat) (key' : β → Nat) {f : α → β} {o : Nat → Nat} (ho : StrictMono o)
    (h : ∀ a, key' (f a) = o (key a)) (l : List α) :
    (sortBy key l).map f = sortBy key' (l.map f) := by
  refine List.map_mergeSort fun a _ b _ ↦ ?_
  simp only [h, ho.le_iff_le]

theorem map_sortDiagnostics {f : Diagnostic → Diagnostic} {o : Nat → Nat} (ho : StrictMono o)
    (h : ∀ d, (f d).span.start.offset = o d.span.start.offset) (ds : List Diagnostic) :
    (sortDiagnostics ds).map f = sortDiagnostics (ds.map f) :=
  map_sortBy (fun d ↦ d.span.start.offset) (fun d : Diagnostic ↦ d.span.start.offset) ho h ds

theorem map_sortTags {f : Tag → Tag} {o : Nat → Nat} (ho : StrictMono o)
    (h : ∀ t, (f t).span.start.offset = o t.span.start.offset) (ts : List Tag) :
    (sortTags ts).map f = sortTags (ts.map f) :=
  map_sortBy (fun t ↦ t.span.start.offset) (fun t : Tag ↦ t.span.start.offset) ho h ts

/-- Findings that correspond one to one, in the same order, correspond when they are sorted. -/
theorem forall₂_sortBy {R : α → β → Prop} {key' : β → Nat} {o : Nat → Nat} (ho : StrictMono o)
    (hR : ∀ a b, R a b → key' b = o (key a)) {l : List α} {l' : List β} (h : List.Forall₂ R l l') :
    List.Forall₂ R (sortBy key l) (sortBy key' l') := by
  -- both lists are sides of the list of pairs, which sorts the same by either side's keys
  let pairs := sortBy (fun x ↦ key x.1) (l.zip l')
  have hpairs : ∀ x ∈ l.zip l', R x.1 x.2 := fun x hx ↦ List.forall₂_zip h hx
  have hleft : pairs.map (·.1) = sortBy key l := by
    rw [map_sortBy (fun x : α × β ↦ key x.1) key strictMono_id fun x ↦ rfl,
      List.map_fst_zip h.length_eq.le]
  have hright : pairs.map (·.2) = sortBy key' l' := by
    have hsame : pairs.map (·.2) = sortBy key' ((l.zip l').map (·.2)) := by
      refine List.map_mergeSort fun x hx y hy ↦ ?_
      simp only [hR _ _ (hpairs x hx), hR _ _ (hpairs y hy), ho.le_iff_le]
    rw [hsame, List.map_snd_zip h.length_eq.ge]
  rw [← hleft, ← hright, List.forall₂_map_left_iff, List.forall₂_map_right_iff, List.forall₂_same]
  exact fun x hx ↦ hpairs x (mem_sortBy.mp hx)

end Marginalia
