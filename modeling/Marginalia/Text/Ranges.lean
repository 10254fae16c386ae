/-!
# Ranges of code points

A character class is a list of closed ranges in increasing order.
-/

namespace Marginalia.Text

/-- Code points as closed ranges, in increasing order. -/
abbrev Ranges := List (Nat × Nat)

/-- Whether `n` lies in one of the ranges. The search ends at the first range past `n`. -/
def Ranges.contains : Ranges → Nat → Bool
  | [], _ => false
  | (lo, hi) :: rest, n => decide (lo ≤ n) && (decide (n ≤ hi) || Ranges.contains rest n)

end Marginalia.Text
