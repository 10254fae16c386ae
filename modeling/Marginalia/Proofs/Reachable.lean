import Marginalia.Iteration
import Mathlib.Logic.Relation

/-!
# States that a loop reaches

A loop visits the states that its step leads to. What every step keeps holds of each of them, and a
loop that ends because its step declines ends in the same state from each of them.
-/

namespace Marginalia

variable {α : Type} {step : α → Option α} {a b c : α}

/-- `b` is a state that the loop of `step` visits when it starts from `a`. -/
def Reaches (step : α → Option α) : α → α → Prop :=
  Relation.ReflTransGen fun a b ↦ step a = some b

namespace Reaches

theorem refl (a : α) : Reaches step a a := Relation.ReflTransGen.refl

theorem head (h : step a = some b) (h' : Reaches step b c) : Reaches step a c :=
  Relation.ReflTransGen.head h h'

theorem trans (h : Reaches step a b) (h' : Reaches step b c) : Reaches step a c :=
  Relation.ReflTransGen.trans h h'

/-- What every step keeps holds of every state that is reached. -/
theorem invariant {P : α → Prop} (hstep : ∀ a b, P a → step a = some b → P b)
    (h : Reaches step a b) (ha : P a) : P b := by
  induction h with
  | refl => exact ha
  | tail _ hbc ih => exact hstep _ _ ih hbc

/-- A run whose steps are the images of steps of another loop, as long as its states satisfy `Fits`,
is the image of a run of that loop. -/
theorem pull {β : Type} (step' : β → Option β) (lift : β → α) (Fits : α → Prop) (Holds : β → Prop)
    (hback : ∀ a b, step a = some b → Fits b → Fits a)
    (hstep : ∀ b a, Holds b → step (lift b) = some a → Fits a →
      ∃ b', step' b = some b' ∧ a = lift b' ∧ Holds b')
    {b : β} (h : Reaches step (lift b) a) (ha : Fits a) (hb : Holds b) :
    ∃ b', Reaches step' b b' ∧ a = lift b' ∧ Holds b' := by
  induction h with
  | refl => exact ⟨b, .refl b, rfl, hb⟩
  | tail _ hcd ih =>
    obtain ⟨b', hreach, rfl, hb'⟩ := ih (hback _ _ hcd ha)
    obtain ⟨b'', hb'', rfl, hholds⟩ := hstep b' _ hb' hcd ha
    exact ⟨b'', hreach.trans (.head hb'' (.refl b'')), rfl, hholds⟩

/-- A run to `e` is followed by another loop as long as its steps are, from related states to related
states, which they are up to a state that `Stops`. -/
theorem follow {β : Type} {step' : β → Option β} (R : α → β → Prop) (Stops : α → Prop) {e : α}
    (hstep : ∀ a b a', R a a' → ¬Stops a → step a = some b → Reaches step b e →
      ∃ b', step' a' = some b' ∧ R b b')
    (h : Reaches step a e) {a' : β} (ha : R a a') :
    ∃ c c', Reaches step a c ∧ Reaches step c e ∧ Reaches step' a' c' ∧ R c c' ∧
      (c = e ∨ Stops c) := by
  induction h using Relation.ReflTransGen.head_induction_on generalizing a' with
  | refl => exact ⟨e, a', .refl e, .refl e, .refl a', ha, .inl rfl⟩
  | head hab hbe ih =>
    rename_i a b
    by_cases hstops : Stops a
    · exact ⟨a, a', .refl a, .head hab hbe, .refl a', ha, .inr hstops⟩
    · obtain ⟨b', hab', hb⟩ := hstep a b a' ha hstops hab hbe
      obtain ⟨c, c', hbc, hce, hbc', hc, hend⟩ := ih hb
      exact ⟨c, c', .head hab hbc, hce, .head hab' hbc', hc, hend⟩

/-- A run to `e` is the image of a run of another loop as long as its steps are images of steps, which
they are up to a state that `Stops`. -/
theorem push {β : Type} (step' : β → Option β) (lift : α → β) (Holds Stops : α → Prop) {e : α}
    (hstep : ∀ a b, Holds a → ¬Stops a → step a = some b → Reaches step b e →
      step' (lift a) = some (lift b) ∧ Holds b)
    (h : Reaches step a e) (ha : Holds a) :
    ∃ c, Reaches step a c ∧ Reaches step' (lift a) (lift c) ∧ Holds c ∧ (c = e ∨ Stops c) := by
  obtain ⟨c, -, hac, -, hac', ⟨rfl, hc⟩, hend⟩ :=
    h.follow (fun a a' ↦ a' = lift a ∧ Holds a) Stops
      (fun a b a' ha hstops hab hbe ↦ by
        obtain ⟨rfl, ha⟩ := ha
        obtain ⟨hab', hb⟩ := hstep a b ha hstops hab hbe
        exact ⟨_, hab', rfl, hb⟩) ⟨rfl, ha⟩
  exact ⟨c, hac, hac', hc, hend⟩

/-- Steps are deterministic: a state where they end is reached from all states on the way. -/
theorem to_end (h : Reaches step a b) (hc : Reaches step a c) (hend : step c = none) :
    Reaches step b c := by
  induction h using Relation.ReflTransGen.head_induction_on with
  | refl => exact hc
  | head hab _ ih =>
    rcases Relation.ReflTransGen.cases_head hc with rfl | ⟨d, had, hdc⟩
    · rw [hend] at hab
      cases hab
    · rw [hab] at had
      cases had
      exact ih hdc

/-- Only one state where steps end is reached. -/
theorem end_unique (h : Reaches step a b) (hb : step b = none) (hc : Reaches step a c)
    (hend : step c = none) : b = c := by
  rcases Relation.ReflTransGen.cases_head (h.to_end hc hend) with rfl | ⟨d, hbd, _⟩
  · rfl
  · rw [hb] at hbd
    cases hbd

end Reaches

/-- The states that a loop visits, at most `n` steps long. -/
def visited (step : α → Option α) : Nat → α → List α
  | 0, a => [a]
  | n + 1, a =>
    a :: match step a with
      | none => []
      | some b => visited step n b

theorem reaches_of_mem_visited {n : Nat} (h : b ∈ visited step n a) : Reaches step a b := by
  induction n generalizing a with
  | zero =>
    rw [visited, List.mem_singleton] at h
    rw [h]
    exact .refl a
  | succ n ih =>
    rw [visited, List.mem_cons] at h
    rcases h with rfl | h
    · exact .refl _
    · cases hs : step a with
      | none => simp [hs] at h
      | some c =>
        rw [hs] at h
        exact .head hs (ih h)

/-- A loop that ends within `n` steps reaches no other states. -/
theorem mem_visited_of_reaches {n : Nat} (hend : step (iterate step n a) = none)
    (h : Reaches step a b) : b ∈ visited step n a := by
  induction n generalizing a with
  | zero =>
    rcases Relation.ReflTransGen.cases_head h with rfl | ⟨c, hac, -⟩
    · exact List.mem_singleton_self _
    · rw [iterate_zero, hac] at hend
      cases hend
  | succ n ih =>
    rw [visited]
    rcases Relation.ReflTransGen.cases_head h with rfl | ⟨c, hac, hcb⟩
    · exact List.mem_cons_self
    · rw [iterate_of_some hac] at hend
      rw [hac]
      exact List.mem_cons_of_mem _ (ih hend hcb)

theorem reaches_iterate (n : Nat) (a : α) : Reaches step a (iterate step n a) := by
  induction n generalizing a with
  | zero => exact .refl a
  | succ n ih =>
    cases hs : step a with
    | none => rw [iterate_of_none hs]; exact .refl a
    | some b => rw [iterate_of_some hs]; exact .head hs (ih b)

theorem iterate_succ_eq (n : Nat) (a : α) :
    iterate step (n + 1) a = (step (iterate step n a)).getD (iterate step n a) := by
  induction n generalizing a with
  | zero =>
    cases hs : step a with
    | none => rw [iterate_of_none hs, iterate_zero, hs]; rfl
    | some b => rw [iterate_of_some hs, iterate_zero, iterate_zero, hs]; rfl
  | succ n ih =>
    cases hs : step a with
    | none => rw [iterate_of_none hs, iterate_of_none hs, hs]; rfl
    | some b => rw [iterate_of_some hs, iterate_of_some hs, ih]

/-- A loop whose step commutes with `lift`, unless it leaves less than `n`, commutes with `lift` if it
leaves `n` in the end. -/
theorem iterate_lift (lift : α → α) (left : α → Nat) (Holds : α → Prop) {n : Nat}
    (hless : ∀ a b, step a = some b → left b < left a)
    (hholds : ∀ a b, Holds a → step a = some b → Holds b)
    (hstep : ∀ a, Holds a → step (lift a) = (step a).map lift ∨
      ∃ b, step (lift a) = some b ∧ left b < n)
    {k k' : Nat} (ha : Holds a) (hk : left a ≤ k) (hk' : left (lift a) ≤ k')
    (hfit : n ≤ left (iterate step k' (lift a))) :
    iterate step k' (lift a) = lift (iterate step k a) := by
  induction k' generalizing a k with
  | zero =>
    have hnone : step a = none := by
      rcases hstep a ha with h | ⟨b, h, -⟩
      · cases hs : step a with
        | none => rfl
        | some b =>
          rw [hs, Option.map_some] at h
          have := hless _ _ h
          omega
      · have := hless _ _ h
        omega
    rw [iterate_of_none hnone, iterate_zero]
  | succ k' ih =>
    rcases hstep a ha with h | ⟨b, h, hb⟩
    · cases hs : step a with
      | none =>
        rw [hs, Option.map_none] at h
        rw [iterate_of_none h, iterate_of_none hs]
      | some b =>
        rw [hs, Option.map_some] at h
        have hba := hless _ _ hs
        have hba' := hless _ _ h
        obtain ⟨j, rfl⟩ : ∃ j, k = j + 1 := ⟨k - 1, by omega⟩
        rw [iterate_of_some h] at hfit ⊢
        rw [iterate_of_some hs]
        exact ih (hholds _ _ ha hs) (by omega) (by omega) hfit
    · -- the loop only goes on from a state that leaves too little
      rw [iterate_of_some h] at hfit
      have hle : left (iterate step k' b) ≤ left b :=
        iterate_induction (P := fun c ↦ left c ≤ left b)
          (fun c d hc hcd ↦ by have := hless _ _ hcd; omega) k' (Nat.le_refl _)
      omega

/-- Loops whose steps go together, from related states to related states, stay together. -/
theorem iterate_rel {β : Type} {step' : β → Option β} {R : α → β → Prop}
    (hstep : ∀ c d, Reaches step a c → R c d → Option.Rel R (step c) (step' d)) (n : Nat) {b : β}
    (h : R a b) : R (iterate step n a) (iterate step' n b) := by
  induction n generalizing a b with
  | zero => exact h
  | succ n ih =>
    have hrel := hstep a b (.refl a) h
    cases ha : step a with
    | none =>
      rw [ha] at hrel
      cases hb : step' b with
      | none => rwa [iterate_of_none ha, iterate_of_none hb]
      | some b' => rw [hb] at hrel; cases hrel
    | some a' =>
      rw [ha] at hrel
      cases hb : step' b with
      | none => rw [hb] at hrel; cases hrel
      | some b' =>
        rw [hb] at hrel
        rw [iterate_of_some ha, iterate_of_some hb]
        cases hrel with
        | some h' => exact ih (fun c d hc ↦ hstep c d (.head ha hc)) h'

end Marginalia
