import Marginalia.Proofs.Locality
import Marginalia.Proofs.Reassembly

/-!
# Gaps in two texts

The blank lines between a comment and an anchor are counted in the text between them. The count
stays the same when some of that text is exchanged, as long as no blank line comes or goes.
-/

namespace Marginalia

namespace Text

variable {s t u : List Char}

/-! ## Lines -/

theorem lines_cons_newline (s : List Char) : lines ('\n' :: s) = [] :: lines s := rfl

theorem lines_cons_of_ne {c : Char} (hc : c ≠ '\n') (s : List Char) :
    lines (c :: s) = (c :: (lines s).head?.getD []) :: (lines s).tail := by
  unfold lines
  rw [pieces, if_neg (by simpa using hc)]
  cases hs : pieces (· = '\n') s with
  | nil => exact absurd hs (pieces_ne_nil _ _)
  | cons w ws => rfl

theorem lines_ne_nil (s : List Char) : lines s ≠ [] := pieces_ne_nil _ _

theorem lines_of_not_mem (h : '\n' ∉ s) : lines s = [s] := by
  induction s with
  | nil => rfl
  | cons c s ih =>
    obtain ⟨hc, hs⟩ := not_or.mp (mt List.mem_cons.mpr h)
    rw [lines_cons_of_ne (Ne.symm hc), ih hs]
    rfl

/-- The last line of a text goes on with the first line of the text after it. -/
theorem lines_append (s t : List Char) :
    lines (s ++ t) = (lines s).dropLast ++
      ((lines s).getLast?.getD [] ++ (lines t).head?.getD []) :: (lines t).tail := by
  induction s with
  | nil =>
    obtain ⟨l, ls, hls⟩ := List.exists_cons_of_ne_nil (lines_ne_nil t)
    rw [List.nil_append, hls]
    rfl
  | cons c s ih =>
    obtain ⟨l, ls, hls⟩ := List.exists_cons_of_ne_nil (lines_ne_nil s)
    by_cases hc : c = '\n'
    · subst hc
      rw [List.cons_append, lines_cons_newline, lines_cons_newline, ih, hls]
      simp
    · rw [List.cons_append, lines_cons_of_ne hc, lines_cons_of_ne hc, ih, hls]
      cases ls <;> simp

/-- A line starts after the end of a line. -/
theorem lines_append_of_endsLine (h : EndsLine s) :
    (lines s).dropLast ≠ [] ∧ ∀ t, lines (s ++ t) = (lines s).dropLast ++ lines t := by
  obtain ⟨init, rfl⟩ := List.getLast?_eq_some_iff.mp h
  have hlines : lines (init ++ ['\n']) =
      ((lines init).dropLast ++ [(lines init).getLast?.getD []]) ++ [[]] := by
    rw [lines_append]
    simp [lines_cons_newline, lines_of_not_mem]
  rw [hlines, List.dropLast_concat]
  refine ⟨by simp, fun t ↦ ?_⟩
  obtain ⟨l, ls, hls⟩ := List.exists_cons_of_ne_nil (lines_ne_nil t)
  rw [lines_append, hlines, List.dropLast_concat, List.getLast?_concat, hls]
  rfl

/-! ## Blank lines -/

/-- Only which lines are blank matters to the count. -/
theorem blankLines_congr (h : (lines s).map isAllBlank = (lines t).map isAllBlank) :
    blankLines s = blankLines t := by
  have hcount : ∀ s, blankLines s = (((lines s).map isAllBlank).drop 1).dropLast.countP id := by
    intro s
    rw [← List.map_drop, ← List.map_dropLast, List.countP_map]
    rfl
  rw [hcount, hcount, h]

theorem isAllBlank_append (s t : List Char) :
    isAllBlank (s ++ t) = (isAllBlank s && isAllBlank t) := List.all_append

/-- A piece of a line that is not blank may be exchanged for another one. -/
theorem blankLines_exchange (hs : '\n' ∉ s) (ht : '\n' ∉ t) (hblank : isAllBlank s = false)
    (hblank' : isAllBlank t = false) (a b : List Char) :
    blankLines (a ++ (t ++ b)) = blankLines (a ++ (s ++ b)) := by
  refine blankLines_congr ?_
  rw [lines_append a, lines_append a, lines_append t, lines_append s, lines_of_not_mem hs,
    lines_of_not_mem ht]
  simp [isAllBlank_append, hblank, hblank']

/-- A line that is not blank may be added after the end of a line. -/
theorem blankLines_insert (hs : '\n' ∉ s) (hblank : isAllBlank s = false) {a : List Char}
    (ha : EndsLine a) (b : List Char) :
    blankLines (a ++ (s ++ '\n' :: b)) = blankLines (a ++ b) := by
  obtain ⟨hne, happend⟩ := lines_append_of_endsLine ha
  obtain ⟨l, ls, hls⟩ := List.exists_cons_of_ne_nil hne
  obtain ⟨m, ms, hms⟩ := List.exists_cons_of_ne_nil (lines_ne_nil b)
  have hadded : lines (s ++ '\n' :: b) = s :: lines b := by
    rw [lines_append, lines_of_not_mem hs, lines_cons_newline]
    simp
  unfold blankLines
  rw [happend, happend, hls, hadded, hms]
  simp [List.dropLast_append_of_ne_nil, hblank]

/-! ## Slices -/

theorem slice?_of_prefix (hs : s <+: t) (ht : t <+: u) :
    slice? u (byteSize s) (byteSize t) = some (t.drop s.length) := by
  obtain ⟨v, rfl⟩ := hs
  obtain ⟨w, rfl⟩ := ht
  rw [List.append_assoc, byteSize_append, slice?_append, List.drop_left]

theorem slice?_of_lt {i j : Nat} (h : j < i) (s : List Char) : slice? s i j = none :=
  if_neg (by omega)

/-- Of two starts of a text, the shorter one starts the longer one. -/
theorem prefix_of_byteSize_le (hs : s <+: u) (ht : t <+: u) (hle : byteSize s ≤ byteSize t) :
    s <+: t := by
  rcases List.prefix_or_prefix_of_prefix hs ht with hst | ⟨v, rfl⟩
  · exact hst
  · rw [byteSize_append] at hle
    have hv : v = [] := by
      have hlen := length_le_byteSize v
      exact List.eq_nil_of_length_eq_zero (by omega)
    rw [hv, List.append_nil]

end Text

/-- There are as many blank lines between two starts of a text as between two starts of another one,
if the first one that starts the other leaves a gap with as many. -/
theorem sameGap_of_prefix {o : Nat → Nat} {source source' s t s' t' : List Char}
    (hs : s <+: source) (ht : t <+: source) (hs' : s' <+: source') (ht' : t' <+: source')
    (hos : o (Text.byteSize s) = Text.byteSize s') (hot : o (Text.byteSize t) = Text.byteSize t')
    (hmono : StrictMono o)
    (hgap : s <+: t → blankLines (t'.drop s'.length) = blankLines (t.drop s.length)) :
    SameGap o source source' (Text.byteSize s) (Text.byteSize t) := by
  unfold SameGap
  rw [hos, hot]
  by_cases hle : Text.byteSize s ≤ Text.byteSize t
  · have hle' : Text.byteSize s' ≤ Text.byteSize t' := by
      rw [← hos, ← hot]
      exact hmono.monotone hle
    have hst := Text.prefix_of_byteSize_le hs ht hle
    rw [Text.slice?_of_prefix hst ht,
      Text.slice?_of_prefix (Text.prefix_of_byteSize_le hs' ht' hle') ht']
    exact hgap hst
  · have hlt : Text.byteSize t' < Text.byteSize s' := by
      rw [← hos, ← hot]
      exact hmono (by omega)
    rw [Text.slice?_of_lt hlt, Text.slice?_of_lt (by omega)]

end Marginalia
