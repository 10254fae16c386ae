import Marginalia.Iteration
import Marginalia.Scan.Remark
import Mathlib.Algebra.BigOperators.Group.List.Basic
import Mathlib.Algebra.GroupWithZero.Nat
import Mathlib.Data.Nat.Basic

/-!
# Where the tags of a comment stand

The lines of a comment lie inside it, so its tags and what is reported of them start inside it and
before its end.
-/

namespace Marginalia

namespace CommentLine

/-- The content of a line lies between two offsets. -/
def Within (lo hi : Nat) (l : CommentLine) : Prop :=
  lo ≤ l.start.offset ∧ l.start.offset + Text.byteSize l.text ≤ hi

theorem Within.mono {lo hi lo' hi' : Nat} {l : CommentLine} (h : l.Within lo hi) (hlo : lo' ≤ lo)
    (hhi : hi ≤ hi') : l.Within lo' hi' :=
  ⟨hlo.trans h.1, h.2.trans hhi⟩

/-- What is stripped from a line leaves the rest in its place. -/
theorem within_strip (p : Position) (line : List Char) (k : Nat) :
    (strip p line k).Within p.offset (p.offset + Text.byteSize line) := by
  have hsum : Text.byteSize (line.take k) + Text.byteSize (line.drop k) = Text.byteSize line := by
    rw [← Text.byteSize_append, List.take_append_drop]
  simp only [Within, strip, Position.after_offset]
  omega

end CommentLine

/-! ## Block comments -/

namespace Comment

/-- The number of bytes of lines, each with a newline. -/
def weight (ls : List (List Char)) : Nat := (ls.map fun l ↦ Text.byteSize l + 1).sum

theorem weight_lines (s : List Char) : weight (Text.lines s) = Text.byteSize s + 1 := by
  unfold Text.lines
  induction s with
  | nil => rfl
  | cons c cs ih =>
    rw [Text.pieces]
    split
    · rename_i hc
      rw [decide_eq_true_eq] at hc
      subst hc
      rw [weight, List.map_cons, List.sum_cons, ← weight, ih, Text.byteSize_cons]
      have : '\n'.utf8Size = 1 := rfl
      simp only [Text.byteSize_nil]
      omega
    · split
      · rename_i hp
        exact absurd hp (Text.pieces_ne_nil _ _)
      · rename_i w ws hw
        rw [hw] at ih
        simp only [weight, List.map_cons, List.sum_cons, Text.byteSize_cons] at ih ⊢
        omega

theorem step_newline_offset (p : Position) : (p.step '\n').offset = p.offset + 1 := rfl

theorem within_stripLines (k : List Char → Nat) (p : Position) (ls : List (List Char)) :
    ∀ l ∈ stripLines k p ls, l.Within p.offset (p.offset + weight ls - 1) := by
  induction ls generalizing p with
  | nil => simp [stripLines]
  | cons m ms ih =>
    have hw : weight (m :: ms) = Text.byteSize m + 1 + weight ms := by simp [weight]
    intro l hl
    rw [stripLines, List.mem_cons] at hl
    rcases hl with rfl | hl
    · exact (CommentLine.within_strip p m (k m)).mono le_rfl (by omega)
    · refine (ih _ l hl).mono ?_ ?_ <;>
        simp only [step_newline_offset, Position.after_offset] <;> omega

/-- The lines of a block comment lie in its content. -/
theorem within_blockLines (content : List Char) (p : Position) :
    ∀ l ∈ blockLines content p, l.Within p.offset (p.offset + Text.byteSize content) := by
  have hweight := weight_lines content
  unfold blockLines
  cases hls : Text.lines content with
  | nil => simp
  | cons m ms =>
    have hw : weight (m :: ms) = Text.byteSize m + 1 + weight ms := by simp [weight]
    rw [hls] at hweight
    intro l hl
    rw [List.mem_cons] at hl
    rcases hl with rfl | hl
    · exact (CommentLine.within_strip p m _).mono le_rfl (by omega)
    · refine (within_stripLines _ _ _ l hl).mono ?_ ?_ <;>
        simp only [step_newline_offset, Position.after_offset] <;> omega

end Comment

/-! ## Line comments -/

namespace Cursor

theorem consume_position (c : Cursor) (k : Nat) :
    (c.consume k).position = c.position.after (c.ahead.take k) := rfl

theorem offset_le_consume (c : Cursor) (k : Nat) :
    c.position.offset ≤ (c.consume k).position.offset := by
  simp [consume_position]

/-- The line comment that is read lies between the cursor before it and the cursor after it. -/
theorem within_commentLine (c : Cursor) (marker : List Char) :
    (c.commentLine marker).1.Within c.position.offset
      (c.commentLine marker).2.position.offset := by
  have htake : c.ahead.take c.restOfLine.length = c.restOfLine :=
    (List.prefix_iff_eq_take.mp (List.takeWhile_prefix _)).symm
  have h := CommentLine.within_strip c.position c.restOfLine
    (Comment.lineDecoration marker c.restOfLine)
  simpa [commentLine, consume_position, htake] using h

/-- A run of line comments consumes text, and its lines lie in what it has consumed. -/
theorem lineComments_spec (c : Cursor) (marker : List Char) :
    (∃ k, (c.lineComments marker).2 = c.consume k) ∧
      ∀ l ∈ (c.lineComments marker).1,
        l.Within c.position.offset (c.lineComments marker).2.position.offset := by
  unfold lineComments
  refine iterate_induction (P := fun st : List CommentLine × Cursor ↦
    (∃ k, st.2 = c.consume k) ∧
      ∀ l ∈ st.1, l.Within c.position.offset st.2.position.offset) ?_ _ ?_
  · rintro st st' ⟨⟨k, hk⟩, hlines⟩ hst
    unfold nextCommentLine? at hst
    split at hst
    · rename_i rest _
      dsimp only at hst
      split at hst
      · cases hst
        have hline := (st.2.consume (1 + (rest.takeWhile Text.isInlineBlank).length +
          marker.length)).within_commentLine marker
        refine ⟨⟨_, by rw [commentLine, hk, consume_consume, consume_consume]⟩, ?_⟩
        intro l hl
        rw [List.mem_append, List.mem_singleton] at hl
        rcases hl with hl | rfl
        · refine (hlines l hl).mono le_rfl ?_
          exact (st.2.offset_le_consume _).trans (offset_le_consume _ _)
        · refine hline.mono ?_ le_rfl
          rw [hk]
          exact (c.offset_le_consume _).trans (offset_le_consume _ _)
      · cases hst
    · cases hst
  · refine ⟨⟨_, consume_consume c _ _⟩, ?_⟩
    intro l hl
    rw [List.mem_singleton] at hl
    subst hl
    exact ((c.consume marker.length).within_commentLine marker).mono (offset_le_consume _ _) le_rfl

end Cursor

theorem blockContent_prefix (closer s : List Char) :
    (blockContent closer s).1 <+: s := by
  induction s with
  | nil => exact List.nil_prefix
  | cons c cs ih =>
    rw [blockContent]
    split
    · exact List.nil_prefix
    · exact List.cons_prefix_cons.mpr ⟨rfl, ih⟩

/-! ## Arguments -/

namespace Arguments

/-- What is wrong with the arguments of a tag is reported at its header, as being malformed. -/
def Reading.At (s : Site) (r : Reading) : Prop :=
  ∀ d ∈ r.diagnostics, d.span = s.span ∧ d.kind = .malformedArgument

theorem at_keepRaw (s : Site) (why : String) (raw rest : List Char) :
    (s.keepRaw why raw rest).At s := by
  intro d hd
  rw [Site.keepRaw, List.mem_singleton] at hd
  rw [hd]
  exact ⟨rfl, rfl⟩

theorem at_nil (s : Site) (arguments : List Argument) (rest : List Char) :
    Reading.At s ⟨arguments, [], rest⟩ := by
  simp [Reading.At]

theorem at_concat {s : Site} {r : Reading} (h : r.At s) (why : String) (raw : List Char)
    (arguments : List Argument) (rest : List Char) :
    Reading.At s ⟨arguments, r.diagnostics ++ [s.malformed why raw], rest⟩ := by
  intro d hd
  rw [List.mem_append, List.mem_singleton] at hd
  rcases hd with hd | rfl
  · exact h d hd
  · exact ⟨rfl, rfl⟩

theorem at_parenthesised (s : Site) (d : Option TagDefinition) (inner : List Char) :
    (parenthesised s d inner).At s := by
  unfold parenthesised
  split
  · exact at_keepRaw s _ _ _
  · split
    · exact at_nil s _ _
    · split
      · exact at_nil s _ _
      · exact at_keepRaw s _ _ _

/-- What holds of the reading so far, or at its end. -/
def Words.Holds (P : Reading → Prop) : Words → Prop
  | .ok r | .error r => P r

/-- What holds of the reading after a type in braces, and is kept with each slot that is filled from
words, holds of the reading of words. -/
theorem holds_asWords {P : Reading → Prop} {s : Site} {d : TagDefinition} {text : List Char}
    (hlead : Words.Holds P (leadingType s d text))
    (hfill : ∀ r slot, P r → Words.Holds P (fillWord s (Text.trim text) r slot)) :
    P (asWords s d text) := by
  have hfold : ∀ (slots : List Slot) (r : Reading), P r →
      Words.Holds P (slots.foldlM (fillWord s (Text.trim text)) r) := by
    intro slots
    induction slots with
    | nil => exact fun r hr ↦ hr
    | cons slot slots ih =>
      intro r hr
      have hslot := hfill r slot hr
      rw [List.foldlM_cons]
      cases hw : fillWord s (Text.trim text) r slot with
      | ok r' =>
        rw [hw] at hslot
        exact ih r' hslot
      | error r' =>
        rw [hw] at hslot
        exact hslot
  unfold asWords
  cases hw : leadingType s d text with
  | error r =>
    rw [hw] at hlead
    exact hlead
  | ok r =>
    rw [hw] at hlead
    have hslots := hfold d.slots r hlead
    have hbind : (Except.ok r : Words).bind (d.slots.foldlM (fillWord s (Text.trim text))) =
      d.slots.foldlM (fillWord s (Text.trim text)) r := rfl
    rw [hbind]
    cases hf : d.slots.foldlM (fillWord s (Text.trim text)) r with
    | ok r' => rw [hf] at hslots; exact hslots
    | error r' => rw [hf] at hslots; exact hslots

theorem at_missing {s : Site} {r : Reading} (h : r.At s) (slot : Slot) : (missing s slot r).At s := by
  unfold missing
  split
  · exact h
  · exact at_concat h _ _ _ _

theorem at_fillWord {s : Site} {r : Reading} (h : r.At s) (raw : List Char) (slot : Slot) :
    Words.Holds (·.At s) (fillWord s raw r slot) := by
  unfold fillWord
  split
  · exact h
  · split
    · exact at_missing h slot
    · exact h
  all_goals
    dsimp only
    split
    · exact at_missing h slot
    · split
      · exact h
      · split
        · exact h
        · exact at_concat h _ _ _ _

theorem at_asWords (s : Site) (d : TagDefinition) (text : List Char) : (asWords s d text).At s := by
  refine holds_asWords ?_ fun r slot hr ↦ at_fillWord hr _ slot
  unfold leadingType
  dsimp only
  split
  · split
    · exact at_keepRaw s _ _ _
    · exact at_nil s _ _
  · exact at_nil s _ _

theorem at_read (s : Site) (d : Option TagDefinition) (text : List Char) :
    (read s d text).At s := by
  unfold read
  split
  · exact at_parenthesised s _ _
  · exact at_asWords s _ _
  · exact at_nil s _ _

end Arguments

/-! ## Tags -/

/-- A tag starts at its at sign, which is on its line. -/
theorem CommentLine.Within.tag {lo hi : Nat} {l : CommentLine} (h : l.Within lo hi)
    (hs : l.startsTag = true) :
    lo ≤ (l.start.after (Text.indentation l.text)).offset ∧
      (l.start.after (Text.indentation l.text)).offset < hi := by
  have hsize := congrArg Text.byteSize (Text.indentation_append_trimStart l.text)
  rw [Text.byteSize_append] at hsize
  have hpos : 0 < Text.byteSize (Text.trimStart l.text) := by
    unfold startsTag tagName? at hs
    split at hs
    · rename_i heq
      rw [heq, Text.byteSize_cons]
      have := '@'.utf8Size_pos
      omega
    · cases hs
  obtain ⟨hlo, hhi⟩ := h
  rw [Position.after_offset]
  omega

/-- The lines of a tag stand together in its comment, and the tag knows the index of the line after
them. -/
theorem TagLines.lines_of_mem_ofLines {i : Nat} {ls : List CommentLine} {t : TagLines}
    (h : t ∈ ofLines i ls) :
    t.first.startsTag = true ∧ ∃ front rest, ls = front ++ t.first :: (t.continuation ++ rest) ∧
      t.next = i + front.length + 1 + t.continuation.length := by
  induction ls generalizing i with
  | nil => simp [ofLines] at h
  | cons l ls ih =>
    have hlater : t ∈ ofLines (i + 1) ls → t.first.startsTag = true ∧
        ∃ front rest, l :: ls = front ++ t.first :: (t.continuation ++ rest) ∧
          t.next = i + front.length + 1 + t.continuation.length := by
      intro ht
      obtain ⟨hs, front, rest, rfl, hnext⟩ := ih ht
      refine ⟨hs, l :: front, rest, rfl, ?_⟩
      rw [hnext, List.length_cons]
      omega
    rw [ofLines] at h
    split at h
    · rename_i hs
      rcases List.mem_cons.mp h with rfl | h
      · refine ⟨hs, [], ls.dropWhile (!·.startsTag), ?_, rfl⟩
        rw [List.takeWhile_append_dropWhile, List.nil_append]
      · exact hlater h
    · exact hlater h

theorem TagLines.last_mem (t : TagLines) : t.last ∈ t.first :: t.continuation := by
  rw [last]
  cases hl : t.continuation.getLast? with
  | none => exact List.mem_cons_self
  | some l => exact List.mem_cons_of_mem _ (List.mem_of_getLast? hl)

theorem TagLines.mem_ofLines {i : Nat} {ls : List CommentLine} {t : TagLines}
    (h : t ∈ ofLines i ls) : t.first ∈ ls ∧ t.first.startsTag = true ∧ t.last ∈ ls := by
  obtain ⟨hs, front, rest, rfl, -⟩ := lines_of_mem_ofLines h
  have hmem : ∀ l ∈ t.first :: t.continuation, l ∈ front ++ t.first :: (t.continuation ++ rest) := by
    intro l hl
    rw [← List.cons_append]
    exact List.mem_append_right _ (List.mem_append_left _ hl)
  exact ⟨hmem _ List.mem_cons_self, hs, hmem _ t.last_mem⟩

/-- The diagnostic of a tag that is not registered. -/
def TagLines.unknown (t : TagLines) : Diagnostic where
  kind := .unknownTag
  span := t.headerSpan
  message := s!"unknown tag @{String.ofList (t.first.tagName?.getD [])}"

/-- What is reported of a tag by itself: that it is not registered, and what is wrong with its
arguments. -/
theorem TagLines.parse_diagnostics (registry : Registry) (t : TagLines) :
    ∃ ds, (∀ d ∈ ds, d.span = t.headerSpan ∧ d.kind = .malformedArgument) ∧
      (t.parse registry).diagnostics =
        (if (registry.get? (t.parse registry).tag.name).isSome then [] else [t.unknown]) ++ ds := by
  refine ⟨_, Arguments.at_read
    ⟨String.ofList (t.first.tagName?.getD []), t.headerSpan⟩
    (registry.get? (String.ofList (t.first.tagName?.getD [])))
    (t.header.drop (1 + (t.first.tagName?.getD []).length)), ?_⟩
  unfold parse
  dsimp only
  split <;> rfl

theorem TagLines.mem_parse_diagnostics (registry : Registry) (t : TagLines) :
    ∀ d ∈ (t.parse registry).diagnostics, d.span = t.headerSpan ∧ d.kind.isRecovery = false := by
  obtain ⟨ds, hds, heq⟩ := t.parse_diagnostics registry
  intro d hd
  rw [heq, List.mem_append] at hd
  rcases hd with hd | hd
  · split at hd
    · cases hd
    · rw [List.mem_singleton.mp hd]
      exact ⟨rfl, rfl⟩
  · obtain ⟨hspan, hkind⟩ := hds d hd
    rw [hkind]
    exact ⟨hspan, rfl⟩

/-- What is reported of a tag is reported at its header or at the whole of it. -/
theorem Comment.mem_tagsAfter {registry : Registry} {seen : List String} {ts : List TagLines}
    {p : ParsedTag} (h : p ∈ tagsAfter registry seen ts) :
    ∃ t ∈ ts, p.tag = (t.parse registry).tag ∧
      ∀ d ∈ p.diagnostics,
        (d.span = t.headerSpan ∨ d.span = t.span) ∧ d.kind.isRecovery = false := by
  induction ts generalizing seen with
  | nil => simp [tagsAfter] at h
  | cons t ts ih =>
    have hrest : ∀ seen, p ∈ tagsAfter registry seen ts →
        ∃ u ∈ t :: ts, p.tag = (u.parse registry).tag ∧
          ∀ d ∈ p.diagnostics,
            (d.span = u.headerSpan ∨ d.span = u.span) ∧ d.kind.isRecovery = false := by
      intro seen hp
      obtain ⟨u, hu, hp⟩ := ih hp
      exact ⟨u, List.mem_cons_of_mem _ hu, hp⟩
    have hself : ∀ d ∈ (t.parse registry).diagnostics,
        (d.span = t.headerSpan ∨ d.span = t.span) ∧ d.kind.isRecovery = false :=
      fun d hd ↦ (t.mem_parse_diagnostics registry d hd).imp_left .inl
    rw [tagsAfter] at h
    split at h
    · split at h <;> rw [List.mem_cons] at h
      · rcases h with rfl | h
        · refine ⟨t, List.mem_cons_self, rfl, ?_⟩
          intro d hd
          rw [List.mem_append, List.mem_singleton] at hd
          rcases hd with hd | rfl
          · exact hself d hd
          · exact ⟨.inr rfl, rfl⟩
        · exact hrest _ h
      · rcases h with rfl | h
        · exact ⟨t, List.mem_cons_self, rfl, hself⟩
        · exact hrest _ h
    · rw [List.mem_cons] at h
      rcases h with rfl | h
      · exact ⟨t, List.mem_cons_self, rfl, hself⟩
      · exact hrest _ h

/-- Tags have nothing to do with what is mended of the code. -/
theorem Comment.filter_isRecovery_tags (registry : Registry) (c : Comment) :
    ((c.tags registry).flatMap (·.diagnostics)).filter (·.kind.isRecovery) = [] := by
  refine List.filter_eq_nil_iff.mpr fun d hd ↦ ?_
  obtain ⟨t, ht, hd⟩ := List.mem_flatMap.mp hd
  obtain ⟨_, -, -, hds⟩ := Comment.mem_tagsAfter ht
  simp [(hds d hd).2]

/-- The tags of a comment are not attached yet. They start inside its lines, and so does whatever
is reported of them, which is never about the code. -/
theorem Comment.tags_within {registry : Registry} {c : Comment} {lo hi : Nat}
    (h : ∀ l ∈ c.lines, l.Within lo hi) {p : ParsedTag} (hp : p ∈ c.tags registry) :
    p.tag.resolved = false ∧ lo ≤ p.tag.span.start.offset ∧ p.tag.span.start.offset < hi ∧
      ∀ d ∈ p.diagnostics, d.span.start = p.tag.span.start ∧ d.kind.isRecovery = false := by
  obtain ⟨t, ht, htag, hds⟩ := mem_tagsAfter hp
  obtain ⟨hfirst, hs, -⟩ := TagLines.mem_ofLines ht
  obtain ⟨hlo, hhi⟩ := (h t.first hfirst).tag hs
  rw [htag]
  refine ⟨rfl, hlo, hhi, fun d hd ↦ ⟨?_, (hds d hd).2⟩⟩
  rcases (hds d hd).1 with hspan | hspan <;> rw [hspan] <;> rfl

end Marginalia
