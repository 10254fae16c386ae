import Marginalia.Proofs.ArgumentForms
import Marginalia.Proofs.Partition

/-!
# Bodies lose the indentation of their lines

The lines that continue a tag lose the indentation they have in common, and the body that they make
up is trimmed as a whole. The second step undoes the first where the header leaves nothing: what is
then trimmed is the first of these lines, which loses all of its indentation. So a body keeps the
shape of its lines just when none of them is indented less than the first.
-/

namespace Marginalia

open Text (isBlank)

namespace Text

variable {s t : List Char}

/-- A text that ends with something else than a blank. -/
def EndsFilled (s : List Char) : Prop := ∃ c ∈ s.getLast?, isBlank c = false

instance (s : List Char) : Decidable (EndsFilled s) :=
  decidable_of_iff ((s.getLast?.any fun c ↦ !isBlank c) = true)
    (by simp [EndsFilled, Option.any_eq_true])

namespace EndsFilled

theorem trimEnd_eq (h : EndsFilled s) : trimEnd s = s := by
  obtain ⟨c, hlast, hc⟩ := h
  exact trimEnd_eq_self hlast hc

theorem append (h : EndsFilled t) (s : List Char) : EndsFilled (s ++ t) := by
  obtain ⟨c, hlast, hc⟩ := h
  exact ⟨c, List.mem_getLast?_append_of_mem_getLast? hlast, hc⟩

theorem isAllBlank_eq (h : EndsFilled s) : isAllBlank s = false := by
  obtain ⟨c, hlast, hc⟩ := h
  exact List.all_eq_false.mpr ⟨c, List.mem_of_getLast? hlast, by simp [hc]⟩

theorem trimStart_ne_nil (h : EndsFilled s) : trimStart s ≠ [] := by
  intro hnil
  have hblank : isAllBlank s = true := List.all_eq_true.mpr (List.dropWhile_eq_nil_iff.mp hnil)
  rw [h.isAllBlank_eq] at hblank
  cases hblank

theorem trimStart (h : EndsFilled s) : EndsFilled (trimStart s) := by
  have hne := h.trimStart_ne_nil
  obtain ⟨c, hlast, hc⟩ := h
  rw [← indentation_append_trimStart s, List.getLast?_append_of_ne_nil _ hne] at hlast
  exact ⟨c, hlast, hc⟩

/-- The blanks in front of a line are trimmed without what comes after the line. -/
theorem trimStart_append (h : EndsFilled s) (t : List Char) :
    Text.trimStart (s ++ t) = Text.trimStart s ++ t := by
  have hne : (s.dropWhile isBlank).isEmpty = false := by
    rw [← Bool.not_eq_true, List.isEmpty_iff]
    exact h.trimStart_ne_nil
  rw [Text.trimStart, List.dropWhile_append, hne]
  rfl

theorem unlines {ls : List (List Char)} (hne : ls ≠ []) (h : ∀ l ∈ ls, EndsFilled l) :
    EndsFilled (unlines ls) := by
  induction ls with
  | nil => exact absurd rfl hne
  | cons l ls ih =>
    cases ls with
    | nil =>
      rw [unlines_singleton]
      exact h l List.mem_cons_self
    | cons m ls =>
      rw [unlines_cons_cons, List.append_cons]
      exact (ih (List.cons_ne_nil _ _) fun k hk ↦ h k (List.mem_cons_of_mem _ hk)).append _

end EndsFilled

/-- Trimming lines that end with something else than blanks takes the blanks in front of the first
line, and nothing else. -/
theorem trim_unlines_cons {l : List Char} {ls : List (List Char)}
    (h : ∀ m ∈ l :: ls, EndsFilled m) :
    trim (unlines (l :: ls)) = unlines (trimStart l :: ls) := by
  have hfilled : EndsFilled (unlines (l :: ls)) := .unlines (List.cons_ne_nil _ _) h
  rw [trim, hfilled.trimStart.trimEnd_eq]
  cases ls with
  | nil => rw [unlines_singleton, unlines_singleton]
  | cons m ls =>
    rw [unlines_cons_cons, unlines_cons_cons, (h l List.mem_cons_self).trimStart_append]

/-- Texts of lines that differ in the first line are different. -/
theorem unlines_cons_inj {l m : List Char} {ls : List (List Char)} :
    unlines (l :: ls) = unlines (m :: ls) ↔ l = m := by
  cases ls with
  | nil => rw [unlines_singleton, unlines_singleton]
  | cons k ls => rw [unlines_cons_cons, unlines_cons_cons, List.append_left_inj]

theorem byteSize_spaces (n : Nat) : byteSize (List.replicate n ' ') = n := by
  induction n with
  | zero => rfl
  | succ n ih =>
    rw [List.replicate_succ, byteSize_cons, ih, Nat.add_comm]
    rfl

end Text

/-! ## Lines -/

namespace CommentLine

variable {l : CommentLine} {n : Nat}

/-- The width of a line's indentation. -/
def indent (l : CommentLine) : Nat := (Text.indentation l.text).length

/-- A line that is indented with spaces only and ends with something else than a blank. -/
structure IsSpaced (l : CommentLine) : Prop where
  spaces : ∀ c ∈ Text.indentation l.text, c = ' '
  filled : Text.EndsFilled l.text

instance (l : CommentLine) : Decidable l.IsSpaced :=
  decidable_of_iff ((Text.indentation l.text).all (· = ' ') = true ∧ Text.EndsFilled l.text)
    ⟨fun h ↦ ⟨by simpa using h.1, h.2⟩, fun h ↦ ⟨by simpa using h.spaces, h.filled⟩⟩

theorem trimStart_eq_drop (l : CommentLine) : Text.trimStart l.text = l.text.drop l.indent := by
  have hsplit := congrArg (List.drop l.indent) (Text.indentation_append_trimStart l.text)
  rwa [indent, List.drop_left] at hsplit

theorem indent_le_length (l : CommentLine) : l.indent ≤ l.text.length :=
  (List.takeWhile_prefix _).length_le

theorem drop_indent_inj (hn : n ≤ l.indent) :
    l.text.drop l.indent = l.text.drop n ↔ l.indent = n := by
  refine ⟨fun h ↦ ?_, fun h ↦ by rw [h]⟩
  have hlength := congrArg List.length h
  have hle := l.indent_le_length
  rw [List.length_drop, List.length_drop] at hlength
  omega

namespace IsSpaced

theorem indentation_eq (h : l.IsSpaced) :
    Text.indentation l.text = List.replicate l.indent ' ' :=
  List.eq_replicate_iff.mpr ⟨rfl, h.spaces⟩

theorem byteSize_indentation (h : l.IsSpaced) :
    Text.byteSize (Text.indentation l.text) = l.indent := by
  rw [h.indentation_eq, Text.byteSize_spaces]

/-- Of a line that has more spaces in front of it than are cut off, the others are left. -/
theorem text_eq (h : l.IsSpaced) (hn : n ≤ l.indent) :
    l.text = List.replicate n ' ' ++
      (List.replicate (l.indent - n) ' ' ++ Text.trimStart l.text) := by
  rw [← List.append_assoc, List.replicate_append_replicate, Nat.add_sub_cancel' hn,
    ← h.indentation_eq, Text.indentation_append_trimStart]

theorem drop_eq (h : l.IsSpaced) (hn : n ≤ l.indent) :
    l.text.drop n = List.replicate (l.indent - n) ' ' ++ Text.trimStart l.text := by
  conv_lhs => rw [h.text_eq hn]
  exact List.drop_left' List.length_replicate

/-- Among spaces, bytes are cut off like characters. -/
theorem dropBytes?_eq (h : l.IsSpaced) (hn : n ≤ l.indent) :
    Text.dropBytes? n l.text = some (l.text.drop n) := by
  have hcut := Text.dropBytes?_append (List.replicate n ' ')
    (List.replicate (l.indent - n) ' ' ++ Text.trimStart l.text)
  rwa [← h.text_eq hn, ← h.drop_eq hn, Text.byteSize_spaces] at hcut

theorem drop_filled (h : l.IsSpaced) (hn : n ≤ l.indent) : Text.EndsFilled (l.text.drop n) := by
  rw [h.drop_eq hn]
  exact h.filled.trimStart.append _

theorem trimStart_drop (h : l.IsSpaced) (hn : n ≤ l.indent) :
    Text.trimStart (l.text.drop n) = l.text.drop l.indent := by
  have hblanks : ∀ c ∈ List.replicate (l.indent - n) ' ', isBlank c = true := by
    intro c hc
    rw [List.eq_of_mem_replicate hc]
    rfl
  rw [h.drop_eq hn, Text.trimStart, List.dropWhile_append_of_pos hblanks, ← trimStart_eq_drop]
  exact Arguments.trimStart_trimStart l.text

/-- What is left of the indentation. -/
theorem length_indentation_drop (h : l.IsSpaced) (hn : n ≤ l.indent) :
    (Text.indentation (l.text.drop n)).length + n = l.indent := by
  have hsplit := congrArg List.length (Text.indentation_append_trimStart (l.text.drop n))
  have hle := l.indent_le_length
  rw [h.trimStart_drop hn, List.length_append, List.length_drop, List.length_drop] at hsplit
  omega

end IsSpaced

end CommentLine

/-! ## Bodies -/

namespace TagLines

variable {l : CommentLine} {ls : List CommentLine} {common : Nat}

/-- The common indentation of lines that are indented with spaces is the least of their widths. -/
theorem commonIndent_eq (hspaced : ∀ m ∈ ls, m.IsSpaced)
    (hcommon : (ls.map CommentLine.indent).min? = some common) : commonIndent ls = common := by
  have hfilled : ls.filter (!Text.isAllBlank ·.text) = ls := by
    refine List.filter_eq_self.mpr fun m hm ↦ ?_
    rw [(hspaced m hm).filled.isAllBlank_eq]
    rfl
  have hwidths : ls.map (fun m ↦ Text.byteSize (Text.indentation m.text)) =
      ls.map CommentLine.indent :=
    List.map_congr_left fun m hm ↦ (hspaced m hm).byteSize_indentation
  rw [commonIndent, hfilled, hwidths, hcommon, Option.getD_some]

/-- Where the header leaves nothing, the first line that continues it loses all of its indentation,
and the others lose what is common. -/
theorem body_cons {rest : List Char} (hrest : Text.trim rest = [])
    (hspaced : ∀ m ∈ l :: ls, m.IsSpaced)
    (hcommon : ((l :: ls).map CommentLine.indent).min? = some common) :
    body rest (l :: ls) =
      Text.unlines (l.text.drop l.indent :: ls.map fun m ↦ m.text.drop common) := by
  have hle : ∀ m ∈ l :: ls, common ≤ m.indent := fun m hm ↦
    (List.min?_eq_some_iff.mp hcommon).2 _ (List.mem_map_of_mem hm)
  have hfilled : ∀ m ∈ l :: ls, Text.EndsFilled (m.text.drop common) := fun m hm ↦
    (hspaced m hm).drop_filled (hle m hm)
  have hcut : (l :: ls).map (fun m ↦
      Text.trimEnd ((Text.dropBytes? common m.text).getD (Text.trimStart m.text))) =
        (l :: ls).map fun m ↦ m.text.drop common := by
    refine List.map_congr_left fun m hm ↦ ?_
    rw [(hspaced m hm).dropBytes?_eq (hle m hm), Option.getD_some, (hfilled m hm).trimEnd_eq]
  have hl := (hspaced l List.mem_cons_self).trimStart_drop (hle l List.mem_cons_self)
  calc
    body rest (l :: ls)
    _ = Text.trim (Text.unlines ([] :: (l :: ls).map fun m ↦ m.text.drop common)) := by
      rw [body, commonIndent_eq hspaced hcommon, hcut, hrest]
    _ = Text.trim (Text.unlines ((l :: ls).map fun m ↦ m.text.drop common)) := by
      -- the newline after what the header leaves is trimmed
      rw [List.map_cons, Text.unlines_cons_cons, List.nil_append, ← Text.trim_trimStart]
      exact Text.trim_trimStart _
    _ = Text.unlines (l.text.drop l.indent :: ls.map fun m ↦ m.text.drop common) := by
      have hmap : ∀ m ∈ (l :: ls).map fun m ↦ m.text.drop common, Text.EndsFilled m :=
        List.forall_mem_map.mpr hfilled
      rw [List.map_cons, Text.trim_unlines_cons hmap, hl]

/-- The body of a tag whose header leaves nothing, and whose other lines are indented with spaces.
All of them lose their common indentation, except for the first, which loses all it has. So the body
has them with just the common indentation removed, and the differences between their indentations,
if and only if the first line is one of those that are indented least. -/
theorem parse_body_of_isSpaced (registry : Registry) {t : TagLines}
    (hrest : Text.trim (t.reading registry).rest = []) (hlines : t.continuation = l :: ls)
    (hspaced : ∀ m ∈ l :: ls, m.IsSpaced)
    (hcommon : ((l :: ls).map CommentLine.indent).min? = some common) :
    (t.parse registry).tag.body.toList =
        Text.unlines (l.text.drop l.indent :: ls.map fun m ↦ m.text.drop common) ∧
      (∀ m ∈ l :: ls, (Text.indentation (m.text.drop common)).length + common = m.indent) ∧
      ((t.parse registry).tag.body.toList =
        Text.unlines ((l :: ls).map fun m ↦ m.text.drop common) ↔ l.indent = common) := by
  have hle : ∀ m ∈ l :: ls, common ≤ m.indent := fun m hm ↦
    (List.min?_eq_some_iff.mp hcommon).2 _ (List.mem_map_of_mem hm)
  have hbody : (t.parse registry).tag.body.toList =
      Text.unlines (l.text.drop l.indent :: ls.map fun m ↦ m.text.drop common) := by
    rw [← body_cons hrest hspaced hcommon, ← hlines]
    exact String.toList_ofList
  refine ⟨hbody, fun m hm ↦ (hspaced m hm).length_indentation_drop (hle m hm), ?_⟩
  rw [hbody, List.map_cons, Text.unlines_cons_inj]
  exact CommentLine.drop_indent_inj (hle l List.mem_cons_self)

/-- An example whose first line is indented least keeps its shape. -/
theorem parse_body_of_isSpaced_example :
    let l : CommentLine := ⟨"  if (x) \x7b".toList, ⟨9, 2, 1⟩⟩
    let ls : List CommentLine :=
      [⟨"    go();".toList, ⟨20, 3, 1⟩⟩, ⟨"  \x7d".toList, ⟨30, 4, 1⟩⟩]
    let t : TagLines := ⟨⟨"@example".toList, .start⟩, l :: ls, 4⟩
    (Text.trim (t.reading .standard).rest = [] ∧ (∀ m ∈ l :: ls, m.IsSpaced) ∧
      ((l :: ls).map CommentLine.indent).min? = some 2) ∧
    (t.parse .standard).tag.body.toList =
      Text.unlines ((l :: ls).map fun m ↦ m.text.drop 2) := by
  intro l ls t
  have hrest : Text.trim (t.reading .standard).rest = [] := by decide +kernel
  have hspaced : ∀ m ∈ l :: ls, m.IsSpaced := by decide +kernel
  have hcommon : ((l :: ls).map CommentLine.indent).min? = some 2 := by decide +kernel
  obtain ⟨-, -, hkeeps⟩ := parse_body_of_isSpaced .standard (t := t) hrest rfl hspaced hcommon
  exact ⟨⟨hrest, hspaced, hcommon⟩, hkeeps.mpr (by decide +kernel)⟩

/-- An example whose first line is indented more than the next loses that difference: the common
indentation is two spaces, but the first line loses four. -/
theorem parse_body_loses_indent :
    let ls : List CommentLine := [⟨"    go();".toList, ⟨9, 2, 1⟩⟩, ⟨"  \x7d".toList, ⟨19, 3, 1⟩⟩]
    let t : TagLines := ⟨⟨"@example".toList, .start⟩, ls, 3⟩
    (Text.trim (t.reading .standard).rest = [] ∧ (∀ m ∈ ls, m.IsSpaced) ∧
      (ls.map CommentLine.indent).min? = some 2) ∧
    Text.unlines (ls.map fun m ↦ m.text.drop 2) = "  go();\n\x7d".toList ∧
    (t.parse .standard).tag.body = "go();\n\x7d" := by
  decide +kernel

end TagLines

end Marginalia
