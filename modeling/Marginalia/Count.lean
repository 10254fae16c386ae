/-!
# Counts

Offsets, lines, columns and limits are counted in 64-bit words.
-/

namespace Marginalia

/-- One past the largest count that a word holds. -/
def wordBound : Nat := 18446744073709551616

end Marginalia
