/-!
# Bounded iteration

A loop is a step that may decline, run at most a given number of times. When every step lowers a
measure and the bound is no less than the measure at the start, the loop ends because its step
declines, not because the bound is reached.
-/

namespace Marginalia

variable {α : Type}

/-- Apply `step` until it declines, at most `n` times. -/
def iterate (step : α → Option α) : Nat → α → α
  | 0, a => a
  | n + 1, a =>
    match step a with
    | none => a
    | some b => iterate step n b

@[simp]
theorem iterate_zero (step : α → Option α) (a : α) : iterate step 0 a = a := rfl

theorem iterate_of_none {step : α → Option α} {a : α} (h : step a = none) (n : Nat) :
    iterate step n a = a := by
  cases n <;> simp [iterate, h]

theorem iterate_of_some {step : α → Option α} {a b : α} (h : step a = some b) (n : Nat) :
    iterate step (n + 1) a = iterate step n b := by
  simp [iterate, h]

/-- What every step keeps, the loop keeps. -/
theorem iterate_induction {step : α → Option α} {P : α → Prop}
    (h : ∀ a b, P a → step a = some b → P b) (n : Nat) {a : α} (ha : P a) :
    P (iterate step n a) := by
  induction n generalizing a with
  | zero => exact ha
  | succ n ih =>
    cases hs : step a with
    | none => rwa [iterate_of_none hs]
    | some b => rw [iterate_of_some hs]; exact ih (h a b ha hs)

/-- A loop whose steps keep `P` and lower `m` where it holds ends because its step declines. -/
theorem step_iterate {step : α → Option α} {P : α → Prop} (m : α → Nat)
    (hP : ∀ a b, P a → step a = some b → P b) (h : ∀ a b, P a → step a = some b → m b < m a)
    (n : Nat) (a : α) (ha : P a) (hn : m a ≤ n) : step (iterate step n a) = none := by
  induction n generalizing a with
  | zero =>
    cases hs : step a with
    | none => rwa [iterate_of_none hs]
    | some b => have := h a b ha hs; omega
  | succ n ih =>
    cases hs : step a with
    | none => rwa [iterate_of_none hs]
    | some b =>
      rw [iterate_of_some hs]
      exact ih b (hP a b ha hs) (by have := h a b ha hs; omega)

/-- A loop that has ended stays where it is, however large its bound. -/
theorem iterate_eq_of_le {step : α → Option α} {n m : Nat} {a : α}
    (h : step (iterate step n a) = none) (hle : n ≤ m) : iterate step m a = iterate step n a := by
  induction n generalizing a m with
  | zero => exact iterate_of_none h m
  | succ n ih =>
    cases hs : step a with
    | none => rw [iterate_of_none hs, iterate_of_none hs]
    | some b =>
      obtain ⟨k, rfl⟩ : ∃ k, m = k + 1 := ⟨m - 1, by omega⟩
      rw [iterate_of_some hs] at h ⊢
      rw [iterate_of_some hs]
      exact ih h (Nat.le_of_succ_le_succ hle)

end Marginalia
