import Marginalia.Proofs.Bearings
import Marginalia.Proofs.Turns

/-!
# Tags are sent in order

The lines of a comment lie one behind the other, so its tags are parsed in the order of the text. A
scan reads comments one behind the other, too. So all tags come to the outline in the order of the
text, and no two of them start together.
-/

namespace Marginalia

/-- One tag starts before the other. -/
def Tag.Before (t u : Tag) : Prop := t.span.start.offset < u.span.start.offset

/-- The content of one line ends before the content of the other starts. -/
def CommentLine.Before (l m : CommentLine) : Prop :=
  l.start.offset + Text.byteSize l.text ≤ m.start.offset

theorem CommentLine.Within.before {lo mid hi : Nat} {l m : CommentLine} (hl : l.Within lo mid)
    (hm : m.Within mid hi) : l.Before m :=
  hl.2.trans hm.1

/-! ## Lines -/

namespace Comment

theorem pairwise_stripLines (k : List Char → Nat) (p : Position) (ls : List (List Char)) :
    (stripLines k p ls).Pairwise CommentLine.Before := by
  induction ls generalizing p with
  | nil => exact .nil
  | cons m ms ih =>
    rw [stripLines, List.pairwise_cons]
    refine ⟨fun l hl ↦ ?_, ih _⟩
    have hfirst := CommentLine.within_strip p m (k m)
    have hlater := within_stripLines k ((p.after m).step '\n') ms l hl
    refine hfirst.before (hlater.mono ?_ (Nat.le_refl _))
    rw [step_newline_offset, Position.after_offset]
    exact Nat.le_succ _

theorem pairwise_blockLines (content : List Char) (p : Position) :
    (blockLines content p).Pairwise CommentLine.Before := by
  unfold blockLines
  cases Text.lines content with
  | nil => exact .nil
  | cons m ms =>
    refine List.pairwise_cons.mpr ⟨fun l hl ↦ ?_, pairwise_stripLines _ _ _⟩
    have hfirst := CommentLine.within_strip p m (decoration (fun c ↦ c = '*' || c = '!') m)
    have hlater := within_stripLines _ _ ms l hl
    refine hfirst.before (hlater.mono ?_ (Nat.le_refl _))
    rw [step_newline_offset, Position.after_offset]
    exact Nat.le_succ _

end Comment

theorem Cursor.pairwise_lineComments (c : Cursor) (marker : List Char) :
    (c.lineComments marker).1.Pairwise CommentLine.Before := by
  unfold lineComments
  refine (iterate_induction (P := fun st : List CommentLine × Cursor ↦
    st.1.Pairwise CommentLine.Before ∧ ∀ l ∈ st.1, l.Within 0 st.2.position.offset) ?_ _ ?_).1
  · rintro st st' ⟨hordered, hwithin⟩ hst
    unfold nextCommentLine? at hst
    split at hst
    · rename_i rest _
      dsimp only at hst
      split at hst
      · cases hst
        have hnext := st.2.offset_le_consume (1 + (rest.takeWhile Text.isInlineBlank).length +
          marker.length)
        have hline := (st.2.consume (1 + (rest.takeWhile Text.isInlineBlank).length +
          marker.length)).within_commentLine marker
        refine ⟨List.pairwise_append.mpr ⟨hordered, List.pairwise_singleton _ _, ?_⟩, ?_⟩
        · intro l hl m hm
          rw [List.mem_singleton.mp hm]
          exact (hwithin l hl).before (hline.mono hnext (Nat.le_refl _))
        · intro l hl
          rw [List.mem_append, List.mem_singleton] at hl
          rcases hl with hl | rfl
          · exact (hwithin l hl).mono (Nat.le_refl _) (hnext.trans (offset_le_consume _ _))
          · exact hline.mono (Nat.zero_le _) (Nat.le_refl _)
      · cases hst
    · cases hst
  · refine ⟨List.pairwise_singleton _ _, fun l hl ↦ ?_⟩
    rw [List.mem_singleton.mp hl]
    exact ((c.consume marker.length).within_commentLine marker).mono (Nat.zero_le _) (Nat.le_refl _)

/-! ## Tags of a comment -/

theorem TagLines.map_first_ofLines (i : Nat) (ls : List CommentLine) :
    (ofLines i ls).map (·.first) = ls.filter (·.startsTag) := by
  induction ls generalizing i with
  | nil => rfl
  | cons l ls ih =>
    rw [ofLines]
    split
    · rename_i hs
      rw [List.map_cons, ih, List.filter_cons_of_pos hs]
    · rename_i hs
      rw [ih, List.filter_cons_of_neg hs]

theorem Comment.map_tag_tagsAfter (registry : Registry) (seen : List String)
    (ts : List TagLines) :
    (tagsAfter registry seen ts).map (·.tag) = ts.map fun t ↦ (t.parse registry).tag := by
  induction ts generalizing seen with
  | nil => rfl
  | cons t ts ih =>
    rw [tagsAfter]
    split
    · split <;> rw [List.map_cons, List.map_cons, ih]
    · rw [List.map_cons, List.map_cons, ih]

/-- The tags of a comment come in the order of its lines. -/
theorem Comment.pairwise_tags {c : Comment} (h : c.lines.Pairwise CommentLine.Before)
    (registry : Registry) : ((c.tags registry).map (·.tag)).Pairwise Tag.Before := by
  have hfirsts : ((TagLines.ofLines 0 c.lines).map (·.first)).Pairwise CommentLine.Before := by
    rw [TagLines.map_first_ofLines]
    exact h.filter _
  rw [tags, map_tag_tagsAfter, List.pairwise_map]
  rw [List.pairwise_map] at hfirsts
  refine hfirsts.imp_of_mem fun {t u} ht hu htu ↦ ?_
  have hself : ∀ l : CommentLine,
      l.Within l.start.offset (l.start.offset + Text.byteSize l.text) :=
    fun l ↦ ⟨Nat.le_refl _, Nat.le_refl _⟩
  have hstart := ((hself t.first).tag (TagLines.mem_ofLines ht).2.1).2
  have hstart' := ((hself u.first).tag (TagLines.mem_ofLines hu).2.1).1
  exact (hstart.trans_le htu).trans_le hstart'

/-! ## Tags of a text -/

namespace Pass

variable {s : Setup} {g : Grammar} {source : List Char} {p q : Pass}

/-- The lines of a comment that has been read lie one behind the other. -/
theorem pairwise_lines_readComment (p : Pass) (g : Grammar) (form : CommentForm) :
    ∃ c, (p.readComment g form).mode = .tags c ∧ c.lines.Pairwise CommentLine.Before := by
  cases form with
  | line i => exact ⟨_, rfl, p.cursor.pairwise_lineComments (g.lineComment i)⟩
  | block i => exact ⟨_, rfl, Comment.pairwise_blockLines _ _⟩

/-- The tags that have been sent start before the clock. -/
theorem start_lt_clock_of_mem_events (h : Reaches (step s) (start s source) p) {t : Tag}
    (ht : t ∈ p.events.flatMap Event.tags) : t.span.start.offset < p.clock := by
  obtain ⟨e, he, ht⟩ := List.mem_flatMap.mp ht
  have hin := (recorded_of_reaches h).inPlace e (List.mem_reverse.mp he)
  cases e with
  | comment tags span depth => exact (hin.2.2 t ht).2.trans_le hin.1
  | _ => cases ht

theorem pairwise_lines_step (h : step s p = some q) :
    ∀ c, q.mode = .tags c → c.lines.Pairwise CommentLine.Before := by
  intro c hc
  obtain ⟨form, -, rfl⟩ := eq_readComment_of_tags h hc
  obtain ⟨c', hc', hlines⟩ := p.pairwise_lines_readComment s.grammar form
  rw [hc'] at hc
  cases hc
  exact hlines

/-- All tags so far have been sent in the order of the text, and so will be those of a comment that
has been read. -/
theorem pairwise_tags_of_reaches (h : Reaches (step s) (start s source) p) :
    (p.events.flatMap Event.tags).Pairwise Tag.Before ∧
      ∀ c, p.mode = .tags c → c.lines.Pairwise CommentLine.Before := by
  refine (h.invariant (P := fun p : Pass ↦ Reaches (step s) (start s source) p ∧
    (p.events.flatMap Event.tags).Pairwise Tag.Before ∧
      ∀ c, p.mode = .tags c → c.lines.Pairwise CommentLine.Before) ?_
    ⟨.refl _, .nil, fun c hc ↦ by cases hc⟩).2
  rintro p q ⟨hreach, hsent, hlines⟩ hpq
  obtain ⟨es, htags, -, hjournal⟩ := step_sends hpq
  refine ⟨hreach.trans (.head hpq (.refl q)), ?_, pairwise_lines_step hpq⟩
  have hevents : q.events.flatMap Event.tags =
      p.events.flatMap Event.tags ++ parsedTags s.registry p.read?.toList := by
    rw [events, events, hjournal, List.reverse_append, List.reverse_reverse, List.flatMap_append,
      htags]
  rw [hevents]
  cases hread : p.read? with
  | none => simpa [parsedTags] using hsent
  | some c =>
    have hmode : p.mode = .tags c := by
      unfold read? at hread
      split at hread <;> cases hread
      assumption
    have hparsed : parsedTags s.registry (some c).toList = (c.tags s.registry).map (·.tag) := by
      simp [parsedTags]
    have hclock : p.clock = c.span.start.offset := by simp [clock, hmode]
    rw [hparsed]
    refine List.pairwise_append.mpr ⟨hsent, Comment.pairwise_tags (hlines c hmode) _, ?_⟩
    intro t ht u hu
    obtain ⟨v, hv, rfl⟩ := List.mem_map.mp hu
    obtain ⟨-, -, -, hwithin⟩ := (reaches_moves hreach).2.comment c hmode
    have hstart := (Comment.tags_within hwithin hv).2.1
    exact (start_lt_clock_of_mem_events hreach ht).trans_le (hclock ▸ hstart)

end Pass

/-- The tags of a text are sent to the outline in the order of the text. -/
theorem Setup.pairwise_tags_events (s : Setup) (source : List Char) :
    ((s.events source).flatMap Event.tags).Pairwise Tag.Before := by
  have hsent := (Pass.pairwise_tags_of_reaches (Pass.reaches_run s (Pass.start s source))).1
  rwa [events_eq, List.flatMap_append, Pass.flatMap_tags_leaving, List.append_nil]

end Marginalia
