import Marginalia.Proofs.Course
import Marginalia.Proofs.Names

/-!
# Positions in the text

A position is right when it is what counting through the text before it gives. The cursor is where
all positions come from, and the lines of a comment keep count while their decoration is stripped;
so the tags of a comment are read where they say they stand.
-/

namespace Marginalia

namespace Text

variable {n : Nat} {s t : List Char}

theorem takeBytes?_eq_some_iff : takeBytes? n s = some t ↔ t <+: s ∧ byteSize t = n := by
  refine ⟨fun h ↦ ?_, ?_⟩
  · induction s generalizing n t with
    | nil =>
      cases n with
      | zero => cases h; exact ⟨List.nil_prefix, rfl⟩
      | succ n => cases h
    | cons c cs ih =>
      cases n with
      | zero => cases h; exact ⟨List.nil_prefix, rfl⟩
      | succ n =>
        rw [takeBytes?] at h
        split at h
        · obtain ⟨u, hu, rfl⟩ := Option.map_eq_some_iff.mp h
          obtain ⟨hpre, hsize⟩ := ih hu
          exact ⟨List.cons_prefix_cons.mpr ⟨rfl, hpre⟩, by rw [byteSize_cons, hsize]; omega⟩
        · cases h
  · rintro ⟨⟨rest, rfl⟩, rfl⟩
    exact takeBytes?_append t rest

theorem trimEnd_prefix (s : List Char) : trimEnd s <+: s := by
  have h : s.reverse.dropWhile isBlank <:+ s.reverse := List.dropWhile_suffix _
  simpa [trimEnd] using List.reverse_prefix.mpr h

theorem unlines_cons_cons (l m : List Char) (ls : List (List Char)) :
    unlines (l :: m :: ls) = l ++ '\n' :: unlines (m :: ls) := by
  simp [unlines, List.intercalate_cons_cons]

theorem unlines_singleton (l : List Char) : unlines [l] = l := List.intercalate_singleton

/-- The lines of a text make up the text. -/
theorem unlines_lines (s : List Char) : unlines (lines s) = s := by
  unfold lines
  induction s with
  | nil => rfl
  | cons c cs ih =>
    rw [pieces]
    cases hp : pieces (· = '\n') cs with
    | nil => exact absurd hp (pieces_ne_nil _ _)
    | cons w ws =>
      rw [hp] at ih
      split
      · rename_i hc
        rw [unlines_cons_cons, ih, of_decide_eq_true hc]
        rfl
      · cases ws with
        | nil =>
          rw [unlines_singleton] at ih
          rw [unlines_singleton, ih]
        | cons v vs =>
          rw [unlines_cons_cons] at ih
          rw [unlines_cons_cons, List.cons_append, ih]

end Text

/-! ## Positions and spans -/

/-- A position of a text: its offset ends a character, and counting through the text before it
gives its line and column. -/
def Position.In (source : List Char) (p : Position) : Prop :=
  ∃ text, Text.takeBytes? p.offset source = some text ∧ p = Position.start.after text

namespace Position

variable {source pre : List Char} {p : Position}

theorem in_iff : p.In source ↔ ∃ pre, pre <+: source ∧ p = start.after pre := by
  refine ⟨?_, ?_⟩
  · rintro ⟨text, htext, hp⟩
    exact ⟨text, (Text.takeBytes?_eq_some_iff.mp htext).1, hp⟩
  · rintro ⟨pre, hpre, rfl⟩
    refine ⟨pre, Text.takeBytes?_eq_some_iff.mpr ⟨hpre, ?_⟩, rfl⟩
    rw [after_offset]
    exact (Nat.zero_add _).symm

theorem in_of_prefix (h : pre <+: source) : (start.after pre).In source := in_iff.mpr ⟨pre, h, rfl⟩

theorem step_after (p : Position) (s : List Char) (c : Char) :
    (p.after s).step c = p.after (s ++ [c]) := by
  rw [after_append]
  rfl

theorem in_start (source : List Char) : start.In source := in_of_prefix List.nil_prefix

end Position

/-- A span between positions of a text. -/
def Span.In (source : List Char) (s : Span) : Prop := s.start.In source ∧ s.stop.In source

theorem Span.in_point {source : List Char} {p : Position} (h : p.In source) :
    (Span.point p).In source := ⟨h, h⟩

namespace Cursor.In

variable {source : List Char} {c : Cursor}

/-- What comes next at a cursor stands after the text behind it. -/
theorem prefix_of_prefix (h : c.In source) {t : List Char} (ht : t <+: c.ahead) :
    c.behind.reverse ++ t <+: source := by
  rw [← h.1]
  exact (List.prefix_append_right_inj _).mpr ht

theorem position_in (h : c.In source) : c.position.In source := by
  rw [h.2, ← List.append_nil c.behind.reverse]
  exact Position.in_of_prefix (h.prefix_of_prefix List.nil_prefix)

theorem span_in (h : c.In source) (k : Nat) : ((c.consume k).spanFrom c.position).In source :=
  ⟨h.position_in, (h.consume k).position_in⟩

theorem offset_eq (h : c.In source) : c.position.offset = Text.byteSize c.behind.reverse := by
  rw [h.2, Position.after_offset]
  exact Nat.zero_add _

/-- The text between a cursor and where it is moved to. -/
theorem slice_consume (h : c.In source) (k : Nat) :
    Text.slice? source c.position.offset (c.consume k).position.offset =
      some (c.ahead.take k) := by
  have hsource : source = c.behind.reverse ++ (c.ahead.take k ++ c.ahead.drop k) := by
    rw [List.take_append_drop]
    exact h.1.symm
  rw [consume_position, Position.after_offset, h.offset_eq, hsource]
  exact Text.slice?_append _ _ _

end Cursor.In

/-! ## Lines of comments -/

/-- A line of a comment whose content stands in the text where it says. -/
def CommentLine.In (source : List Char) (l : CommentLine) : Prop :=
  ∃ pre, pre ++ l.text <+: source ∧ l.start = Position.start.after pre

namespace CommentLine

variable {source pre line : List Char} {l : CommentLine}

theorem in_strip (h : pre ++ line <+: source) (k : Nat) :
    (strip (Position.start.after pre) line k).In source := by
  refine ⟨pre ++ line.take k, ?_, (Position.after_append _ _ _).symm⟩
  rw [strip, List.append_assoc, List.take_append_drop]
  exact h

/-- The place after a part of a line. -/
theorem In.after (h : l.In source) {t : List Char} (ht : t <+: l.text) :
    (l.start.after t).In source := by
  obtain ⟨pre, hpre, hstart⟩ := h
  rw [hstart, ← Position.after_append]
  exact Position.in_of_prefix (((List.prefix_append_right_inj pre).mpr ht).trans hpre)

end CommentLine

namespace Comment

variable {source : List Char}

/-- The first of several lines stands in front of the others and a newline. -/
theorem prefix_unlines_cons {pre l : List Char} {ls : List (List Char)}
    (h : pre ++ Text.unlines (l :: ls) <+: source) :
    pre ++ l <+: source ∧ (ls ≠ [] → pre ++ l ++ ['\n'] ++ Text.unlines ls <+: source) := by
  cases ls with
  | nil =>
    rw [Text.unlines_singleton] at h
    exact ⟨h, fun hne ↦ absurd rfl hne⟩
  | cons m ms =>
    rw [Text.unlines_cons_cons] at h
    rw [← List.append_assoc] at h
    refine ⟨(List.prefix_append _ _).trans h, fun _ ↦ ?_⟩
    simpa using h

theorem in_stripLines (k : List Char → Nat) {pre : List Char} {ls : List (List Char)}
    (h : ls ≠ [] → pre ++ Text.unlines ls <+: source) :
    ∀ l ∈ stripLines k (Position.start.after pre) ls, l.In source := by
  induction ls generalizing pre with
  | nil => simp [stripLines]
  | cons m ms ih =>
    obtain ⟨hfirst, hrest⟩ := prefix_unlines_cons (h (List.cons_ne_nil _ _))
    intro l hl
    rw [stripLines, List.mem_cons] at hl
    rcases hl with rfl | hl
    · exact CommentLine.in_strip hfirst _
    · rw [← Position.after_append, Position.step_after] at hl
      exact ih hrest l hl

theorem in_blockLines {pre content : List Char} (h : pre ++ content <+: source) :
    ∀ l ∈ blockLines content (Position.start.after pre), l.In source := by
  unfold blockLines
  split
  · simp
  · rename_i m ms hlines
    rw [← Text.unlines_lines content, hlines] at h
    obtain ⟨hfirst, hrest⟩ := prefix_unlines_cons h
    intro l hl
    rw [List.mem_cons] at hl
    rcases hl with rfl | hl
    · exact CommentLine.in_strip hfirst _
    · rw [← Position.after_append, Position.step_after] at hl
      exact in_stripLines _ hrest l hl

end Comment

namespace Cursor

variable {source : List Char} {c : Cursor}

theorem in_commentLine (h : c.In source) (marker : List Char) :
    (c.commentLine marker).1.In source := by
  have hline : c.restOfLine <+: c.ahead := List.takeWhile_prefix _
  have hin := CommentLine.in_strip (h.prefix_of_prefix hline)
    (Comment.lineDecoration marker c.restOfLine)
  rwa [← h.2] at hin

theorem in_lineComments (h : c.In source) (marker : List Char) :
    ∀ l ∈ (c.lineComments marker).1, l.In source := by
  refine (iterate_induction (P := fun st : List CommentLine × Cursor ↦
    (∀ l ∈ st.1, l.In source) ∧ st.2.In source) ?_ _ ?_).1
  · rintro ⟨lines, d⟩ st' ⟨hlines, hd⟩ hst
    unfold nextCommentLine? at hst
    split at hst
    · dsimp only at hst
      split at hst
      · cases hst
        refine ⟨?_, (hd.consume _).consume _⟩
        intro l hl
        rw [List.mem_append, List.mem_singleton] at hl
        rcases hl with hl | rfl
        · exact hlines l hl
        · exact in_commentLine (hd.consume _) marker
      · cases hst
    · cases hst
  · refine ⟨?_, (h.consume _).consume _⟩
    intro l hl
    rw [List.mem_singleton.mp hl]
    exact in_commentLine (h.consume _) marker

end Cursor

/-! ## Tags and anchors -/

/-- A tag that is read where it says it stands. -/
def Tag.In (source : List Char) (t : Tag) : Prop :=
  t.span.In source ∧
    ∃ rest, Text.dropBytes? t.span.start.offset source = some ('@' :: (t.name.toList ++ rest))

/-- An anchor whose name is read in its span. -/
def Anchor.In (source : List Char) (a : Anchor) : Prop :=
  a.span.In source ∧
    ∃ header, Text.slice? source a.span.start.offset a.span.stop.offset = some header ∧
      a.name.toList <:+: header

/-- A line that starts a tag reads an at sign and the name after its blanks. -/
theorem CommentLine.trimStart_of_tagName? {l : CommentLine} {name : List Char}
    (h : l.tagName? = some name) : ∃ rest, Text.trimStart l.text = '@' :: (name ++ rest) := by
  unfold tagName? at h
  split at h
  · rename_i c cs htrim
    split at h
    · cases h
      exact ⟨cs.dropWhile isTagNamePart,
        by rw [htrim, List.cons_append, List.takeWhile_append_dropWhile]⟩
    · cases h
  · cases h

namespace TagLines

variable {source : List Char} {t : TagLines}

theorem start_in (h : t.first.In source) : t.start.In source :=
  h.after (List.takeWhile_prefix _)

/-- The header of a tag stands after the blanks that its first line starts with. -/
theorem header_prefix (t : TagLines) :
    Text.indentation t.first.text ++ t.header <+: t.first.text := by
  nth_rewrite 2 [← Text.indentation_append_trimStart t.first.text]
  exact (List.prefix_append_right_inj _).mpr (Text.trimEnd_prefix _)

theorem headerSpan_in (h : t.first.In source) : t.headerSpan.In source := by
  refine ⟨start_in h, ?_⟩
  rw [headerSpan, start, ← Position.after_append]
  exact h.after t.header_prefix

theorem span_in (h : t.first.In source) (hlast : t.last.In source) : t.span.In source :=
  ⟨start_in h, hlast.after (Text.trimEnd_prefix _)⟩

/-- The tag that lines make is read where they start. -/
theorem in_parse (registry : Registry) (h : t.first.In source) (hlast : t.last.In source)
    (hs : t.first.startsTag = true) : (t.parse registry).tag.In source := by
  refine ⟨span_in h hlast, ?_⟩
  obtain ⟨name, hname⟩ := Option.isSome_iff_exists.mp hs
  obtain ⟨rest, htrim⟩ := CommentLine.trimStart_of_tagName? hname
  obtain ⟨pre, ⟨post, hpost⟩, hstart⟩ := h
  have htag : (t.parse registry).tag.name.toList = name := by
    simp [parse, hname]
  have hsource : source = (pre ++ Text.indentation t.first.text) ++
      '@' :: (name ++ (rest ++ post)) := by
    rw [← hpost]
    nth_rewrite 1 [← Text.indentation_append_trimStart t.first.text]
    rw [htrim]
    simp
  have hoffset : (t.parse registry).tag.span.start.offset =
      Text.byteSize (pre ++ Text.indentation t.first.text) := by
    change t.start.offset = _
    rw [start, hstart, ← Position.after_append, Position.after_offset]
    exact Nat.zero_add _
  refine ⟨rest ++ post, ?_⟩
  rw [hoffset, htag, hsource]
  exact Text.dropBytes?_append _ _

end TagLines

/-- The tags of a comment whose lines stand in the text are read where they say, and what is wrong
with them is reported in the text. -/
theorem Comment.tags_in {source : List Char} {registry : Registry} {c : Comment}
    (h : ∀ l ∈ c.lines, l.In source) {p : ParsedTag} (hp : p ∈ c.tags registry) :
    p.tag.In source ∧ ∀ d ∈ p.diagnostics, d.span.In source := by
  obtain ⟨t, ht, htag, hds⟩ := mem_tagsAfter hp
  obtain ⟨hfirst, hs, hlast⟩ := TagLines.mem_ofLines ht
  have hf := h _ hfirst
  have hl := h _ hlast
  refine ⟨htag ▸ TagLines.in_parse registry hf hl hs, ?_⟩
  intro d hd
  rcases (hds d hd).1 with hspan | hspan
  · exact hspan ▸ TagLines.headerSpan_in hf
  · exact hspan ▸ TagLines.span_in hf hl

/-! ## Events -/

/-- An event with positions in the text. -/
def Event.In (source : List Char) : Event → Prop
  | .comment tags span _ => (∀ t ∈ tags, t.In source) ∧ span.In source
  | .anchor a _ => a.In source
  | .bracketOpened _ p | .bracketClosed _ p | .bodyEntered p | .bodyLeft p => p.In source
  | .blockClosed _ => True

/-- The header of an anchor at the cursor spans the text that was read for it. -/
theorem Recognition.Reads.anchor_in {source : List Char} {c : Cursor} {r : Recognition}
    (h : r.Reads c.ahead) (hc : c.In source) :
    Anchor.In source ⟨r.kind, String.ofList r.name,
      (c.consume (r.headerLength c.ahead)).spanFrom c.position⟩ := by
  refine ⟨hc.span_in _, c.ahead.take (r.headerLength c.ahead), hc.slice_consume _, ?_⟩
  obtain ⟨header, hahead, hname⟩ := h
  have htake : c.ahead.take (r.headerLength c.ahead) = header := by
    rw [headerLength, hahead, List.length_append, Nat.add_sub_cancel, List.take_left]
  rw [htake, String.toList_ofList]
  exact hname

end Marginalia
