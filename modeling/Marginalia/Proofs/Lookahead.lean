import Marginalia.Scan.Pass

/-!
# What lookahead finds

A query that finds something has found a text that is not empty and comes next. Every transition of
a scan that consumes what a query has found therefore makes progress.
-/

namespace Marginalia

namespace Cursor

theorem atEnd_eq (c : Cursor) : c.atEnd = c.peek?.isNone := by
  unfold atEnd peek?
  cases c.ahead <;> rfl

theorem ahead_ne_nil_of_peek? {c : Cursor} {d : Char} (h : c.peek? = some d) : c.ahead ≠ [] :=
  List.ne_nil_of_mem (List.mem_of_head? h)

theorem exists_peek?_of_ne_nil {c : Cursor} (h : c.ahead ≠ []) : ∃ d, c.peek? = some d :=
  ⟨c.ahead.head h, List.head?_eq_some_head h⟩

theorem startsWith_iff {c : Cursor} {t : List Char} :
    c.startsWith t = true ↔ t ≠ [] ∧ t <+: c.ahead := by
  simp [startsWith, List.isPrefixOf_iff_prefix]

/-- A token that comes next makes the text ahead shorter when it is consumed. -/
theorem length_pos_of_startsWith {c : Cursor} {t : List Char} (h : c.startsWith t = true) :
    0 < t.length ∧ t.length ≤ c.ahead.length :=
  ⟨List.length_pos_iff.mpr (startsWith_iff.mp h).1, (startsWith_iff.mp h).2.length_le⟩

end Cursor

namespace Grammar

variable {g : Grammar} {c : Cursor}

/-- The text that a comment of a given form starts with. -/
def commentOpener (g : Grammar) : CommentForm → List Char
  | .line i => g.lineComment i
  | .block i => (g.blockComment i).1

theorem startsWith_of_commentStart? {form : CommentForm} (h : g.commentStart? c = some form) :
    c.startsWith (g.commentOpener form) = true := by
  unfold commentStart? at h
  split at h
  · rename_i i hi
    obtain ⟨hlt, hp, -⟩ := List.findIdx?_eq_some_iff_getElem.mp hi
    cases h
    simpa [commentOpener, blockComment, List.getD_eq_getElem?_getD, hlt] using hp
  · obtain ⟨i, hi, rfl⟩ := Option.map_eq_some_iff.mp h
    obtain ⟨hlt, hp, -⟩ := List.findIdx?_eq_some_iff_getElem.mp hi
    simpa [commentOpener, lineComment, List.getD_eq_getElem?_getD, hlt] using hp

/-- The choice among delimiters keeps to the list it chooses from. -/
theorem mem_of_longest (ds : List (StringDelimiter × Nat)) (best : Option (Nat × Nat)) {i n : Nat}
    (h : ds.foldl
      (fun best (d, i) =>
        match best with
        | none => some (i, Text.byteSize d.opener)
        | some (j, size) =>
          if size ≤ Text.byteSize d.opener then some (i, Text.byteSize d.opener)
          else some (j, size))
      best = some (i, n)) :
    best = some (i, n) ∨ ∃ d, (d, i) ∈ ds := by
  induction ds generalizing best with
  | nil => exact .inl h
  | cons e es ih =>
    rcases ih _ h with hb | ⟨d, hd⟩
    · revert hb
      rcases best with - | ⟨j, size⟩
      · intro hb
        simp only [Option.some.injEq, Prod.mk.injEq] at hb
        exact .inr ⟨e.1, by simp [← hb.1]⟩
      · dsimp only
        split
        · intro hb
          simp only [Option.some.injEq, Prod.mk.injEq] at hb
          exact .inr ⟨e.1, by simp [← hb.1]⟩
        · exact fun hb ↦ .inl hb
    · exact .inr ⟨d, List.mem_cons_of_mem _ hd⟩

theorem startsWith_of_stringStart? {i : Nat} (h : g.stringStart? c = some i) :
    c.startsWith (g.delimiter i).opener = true := by
  obtain ⟨⟨j, n⟩, hj, rfl⟩ := Option.map_eq_some_iff.mp h
  rcases mem_of_longest _ _ hj with hn | ⟨d, hd⟩
  · cases hn
  · obtain ⟨hmem, hp⟩ := List.mem_filter.mp hd
    have hget : g.strings[j]? = some d := List.mem_zipIdx_iff_getElem?.mp hmem
    simpa [delimiter, List.getD_eq_getElem?_getD, hget] using hp

theorem startsWith_of_blockOpen? {i : Nat} (h : g.blockOpen? c = some i) :
    c.startsWith (g.pair i).opener = true := by
  obtain ⟨hlt, hp, -⟩ := List.findIdx?_eq_some_iff_getElem.mp h
  simpa [pair, List.getD_eq_getElem?_getD, hlt] using hp

theorem startsWith_of_blockClose? {i : Nat} (h : g.blockClose? c = some i) :
    c.startsWith (g.pair i).closer = true := by
  obtain ⟨hlt, hp, -⟩ := List.findIdx?_eq_some_iff_getElem.mp h
  simpa [pair, List.getD_eq_getElem?_getD, hlt] using hp

theorem startsWith_of_statementEnd? {t : List Char} (h : g.statementEnd? c = some t) :
    c.startsWith t = true := by
  simpa using List.find?_some h

theorem ahead_ne_nil_of_bodyOpener? {t : List Char} (h : g.bodyOpener? c = some t) :
    c.ahead ≠ [] ∧ t.length = 1 := by
  unfold bodyOpener? at h
  split at h
  · cases h
  · dsimp only at h
    split at h
    · rename_i hp
      cases h
      refine ⟨?_, rfl⟩
      rintro hnil
      simp [Cursor.peek?, hnil] at hp
    · cases h

/-- Only a grammar with indentation bodies has an opener for them. -/
theorem indents_of_bodyOpener? {t : List Char} (h : g.bodyOpener? c = some t) :
    g.indents = true := by
  unfold bodyOpener? at h
  unfold indents
  split at h
  · cases h
  · rename_i hbody
    rw [hbody]

/-- Only a grammar without indentation bodies has brackets for them. -/
theorem indents_of_isBodyPair {i : Nat} (h : g.isBodyPair i = true) : g.indents = false := by
  unfold isBodyPair at h
  unfold indents
  split at h
  · rename_i hbody
    rw [hbody]
  · cases h

theorem regexLiteral?_ne_nil {r : List Char} (h : g.regexLiteral? c = some r) :
    c.ahead ≠ [] ∧ r ≠ [] := by
  unfold regexLiteral? at h
  split at h
  · rename_i hp
    obtain ⟨n, -, rfl⟩ := Option.map_eq_some_iff.mp h
    cases ha : c.ahead with
    | nil => simp [Cursor.peek?, ha] at hp
    | cons d ds =>
      simp only [Cursor.peek?, ha, List.head?_cons, Bool.and_eq_true, decide_eq_true_eq,
        Option.some.injEq] at hp
      simp [Cursor.restOfLine, Text.firstLine, ha, hp.1.2]
  · cases h

end Grammar

end Marginalia
