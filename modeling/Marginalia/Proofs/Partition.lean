import Marginalia.Proofs.Extension
import Marginalia.Proofs.UnknownTags

/-!
# A comment falls apart into its tags

From its first header on, a comment is made of the lines of its tags, one tag for each header. The
words that the arguments of a tag leave and those of the lines that continue it make up its body.
What could lose a word is the indentation that these lines have in common: it is counted in bytes
and cut off all of them. But it is no more than the blanks of any line with words in it.
-/

namespace Marginalia

open Text (words isBlank)

/-! ## Words -/

namespace Text

variable {blanks s t : List Char} {c : Char}

/-- At a separator a text falls apart into pieces before it and pieces after it. -/
theorem pieces_append_cons {p : Char → Bool} (hc : p c = true) (s t : List Char) :
    pieces p (s ++ c :: t) = pieces p s ++ pieces p t := by
  induction s with
  | nil => exact if_pos hc
  | cons d s ih =>
    rw [List.cons_append, pieces, pieces, ih]
    split
    · rfl
    · obtain ⟨w, ws, hws⟩ := List.exists_cons_of_ne_nil (pieces_ne_nil p s)
      rw [hws]
      rfl

/-- At a blank a text falls apart into words before it and words after it. -/
theorem words_append_cons (hc : isBlank c = true) (s t : List Char) :
    words (s ++ c :: t) = words s ++ words t := by
  rw [words, pieces_append_cons hc, List.filter_append]
  rfl

theorem words_blanks_append (hblanks : ∀ d ∈ blanks, isBlank d = true) (s : List Char) :
    words (blanks ++ s) = words s := by
  induction blanks with
  | nil => rfl
  | cons c blanks ih =>
    obtain ⟨hc, hblanks⟩ := List.forall_mem_cons.mp hblanks
    exact (words_append_cons hc [] (blanks ++ s)).trans (ih hblanks)

theorem words_eq_nil (hblanks : ∀ d ∈ blanks, isBlank d = true) : words blanks = [] := by
  rw [← List.append_nil blanks, words_blanks_append hblanks]
  rfl

theorem words_append_blanks (hblanks : ∀ d ∈ blanks, isBlank d = true) (s : List Char) :
    words (s ++ blanks) = words s := by
  cases blanks with
  | nil => rw [List.append_nil]
  | cons c blanks =>
    obtain ⟨hc, hblanks⟩ := List.forall_mem_cons.mp hblanks
    rw [words_append_cons hc, words_eq_nil hblanks, List.append_nil]

@[simp]
theorem words_trimStart (s : List Char) : words (trimStart s) = words s := by
  have hindentation : ∀ d ∈ indentation s, isBlank d = true := fun _ hd ↦ List.mem_takeWhile_imp hd
  rw [← words_blanks_append hindentation, indentation_append_trimStart]

@[simp]
theorem words_trimEnd (s : List Char) : words (trimEnd s) = words s := by
  obtain ⟨blanks, hblanks, heq⟩ := exists_trimEnd_append s
  nth_rewrite 2 [heq]
  exact (words_append_blanks hblanks _).symm

@[simp]
theorem words_trim (s : List Char) : words (trim s) = words s := by
  rw [trim, words_trimEnd, words_trimStart]

theorem words_unlines (ls : List (List Char)) : words (unlines ls) = ls.flatMap words := by
  induction ls with
  | nil => rfl
  | cons l ls ih =>
    cases ls with
    | nil => rw [unlines_singleton, List.flatMap_singleton]
    | cons m ls =>
      rw [unlines_cons_cons, words_append_cons (by decide), ih]
      rfl

/-- No more bytes than those of the blanks in front of a text are cut off with its words kept. -/
theorem words_of_dropBytes? {n : Nat} (h : dropBytes? n s = some t)
    (hn : n ≤ byteSize (indentation s)) : words t = words s := by
  induction s generalizing n with
  | nil =>
    rw [Nat.le_zero.mp hn] at h
    cases h
    rfl
  | cons c s ih =>
    cases n with
    | zero =>
      cases h
      rfl
    | succ n =>
      by_cases hc : isBlank c = true
      · rw [indentation, List.takeWhile_cons_of_pos hc, byteSize_cons] at hn
        rw [dropBytes?] at h
        split at h
        · refine (ih h ?_).trans (words_append_cons hc [] s).symm
          rw [indentation]
          omega
        · cases h
      · rw [indentation, List.takeWhile_cons_of_neg hc] at hn
        exact absurd hn (by simp)

end Text

/-! ## Bodies -/

namespace TagLines

variable {ls : List CommentLine} {l : CommentLine}

theorem commonIndent_le (hl : l ∈ ls) (hblank : Text.isAllBlank l.text = false) :
    commonIndent ls ≤ Text.byteSize (Text.indentation l.text) := by
  refine List.min?_getD_le_of_mem (List.mem_map.mpr ⟨l, ?_, rfl⟩)
  rw [List.mem_filter]
  exact ⟨hl, by rw [hblank]; rfl⟩

/-- A line that loses the common indentation keeps its words. -/
theorem words_cut (hl : l ∈ ls) :
    words ((Text.dropBytes? (commonIndent ls) l.text).getD (Text.trimStart l.text)) =
      words l.text := by
  cases hcut : Text.dropBytes? (commonIndent ls) l.text with
  | none => exact Text.words_trimStart l.text
  | some cut =>
    refine Text.words_of_dropBytes? hcut ?_
    cases hblank : Text.isAllBlank l.text with
    | false => exact commonIndent_le hl hblank
    | true =>
      have hindentation : Text.indentation l.text = l.text :=
        List.takeWhile_eq_self_iff.mpr (List.all_eq_true.mp hblank)
      rw [hindentation, ← Text.byteSize_of_dropBytes? hcut]
      exact Nat.le_add_right _ _

/-- The words of a body are those that the header leaves and those of the lines that continue it. -/
theorem words_body (rest : List Char) (ls : List CommentLine) :
    words (body rest ls) = words rest ++ ls.flatMap (words ·.text) := by
  rw [body, Text.words_trim, Text.words_unlines, List.flatMap_cons, Text.words_trim,
    List.flatMap_map]
  congr 1
  refine List.flatMap_congr fun l hl ↦ ?_
  rw [Text.words_trimEnd, words_cut hl]

end TagLines

/-! ## What arguments leave -/

namespace Arguments

theorem rest_parenthesised (s : Site) (d : Option TagDefinition) (inner : List Char) :
    (parenthesised s d inner).rest <:+ inner := by
  unfold parenthesised
  split
  · exact List.nil_suffix
  · rename_i parts rest hsplit
    have hrest : rest <:+ inner := by
      rw [(split?_append_eq hsplit).2]
      exact (List.suffix_cons _ _).trans (List.suffix_append _ _)
    split
    · exact hrest
    · split
      · exact hrest
      · exact hrest

theorem rest_fillWord {s : Site} {raw text : List Char} {r : Reading} (h : r.rest <:+ text)
    (slot : Slot) : Words.Holds (·.rest <:+ text) (fillWord s raw r slot) := by
  have hmissing : (missing s slot r).rest <:+ text := by
    unfold missing
    split
    · exact h
    · exact h
  unfold fillWord
  split
  · exact h
  · split
    · exact hmissing
    · exact List.nil_suffix
  all_goals
    dsimp only
    split
    · exact hmissing
    · split
      · exact ((List.dropWhile_suffix _).trans (List.drop_suffix _ _)).trans h
      · split
        · exact h
        · exact List.nil_suffix

/-- The arguments of a tag leave an end of the text they are read from. -/
theorem rest_read (s : Site) (d : Option TagDefinition) (text : List Char) :
    (read s d text).rest <:+ text := by
  unfold read
  split
  · exact (rest_parenthesised s d _).trans (List.suffix_cons _ _)
  · refine holds_asWords (P := (·.rest <:+ text)) ?_ fun r slot hr ↦ rest_fillWord hr slot
    have htrim : Text.trimStart text <:+ text := List.dropWhile_suffix _
    unfold leadingType
    dsimp only
    split
    · rename_i inner _ hwords
      have hinner : inner <:+ text := (List.suffix_cons '\x7b' inner).trans (hwords ▸ htrim)
      split
      · exact List.nil_suffix
      · rename_i rest hrest
        have hdrop : _ :: rest <:+ inner := hrest ▸ List.dropWhile_suffix _
        exact ((List.dropWhile_suffix _).trans (List.suffix_cons _ _)).trans (hdrop.trans hinner)
    · exact htrim
  · exact List.suffix_refl text

end Arguments

/-! ## Tags -/

/-- The lines of a comment stand in a text, one behind the other. -/
structure CommentLine.InOrder (source : List Char) (lines : List CommentLine) : Prop where
  placed : ∀ l ∈ lines, l.In source
  ordered : lines.Pairwise Before

namespace TagLines

variable {source : List Char} {registry : Registry} {t : TagLines} {ls : List CommentLine}

/-- The lines of a tag. -/
def lines (t : TagLines) : List CommentLine := t.first :: t.continuation

/-- What is read of the arguments of a tag. -/
def reading (registry : Registry) (t : TagLines) : Arguments.Reading :=
  Arguments.read t.site (registry.get? (t.parse registry).tag.name) t.afterName

/-- From the first header on, lines are those of the tags. -/
theorem flatMap_lines_ofLines (i : Nat) (ls : List CommentLine) :
    (ofLines i ls).flatMap lines = ls.dropWhile (!·.startsTag) := by
  induction ls generalizing i with
  | nil => rfl
  | cons l ls ih =>
    rw [ofLines]
    split
    · rename_i hs
      rw [List.flatMap_cons, ih, lines, List.dropWhile_cons_of_neg (by simp [hs]), List.cons_append,
        List.takeWhile_append_dropWhile]
    · rename_i hs
      rw [ih, List.dropWhile_cons_of_pos (by simpa using hs)]

/-- A tag ends before the next one starts, where its lines stand one behind the other. -/
theorem pairwise_span_ofLines (i : Nat) (h : ls.Pairwise CommentLine.Before) :
    (ofLines i ls).Pairwise fun t u ↦ t.span.stop.offset ≤ u.span.start.offset := by
  have hlines : ((ofLines i ls).flatMap lines).Pairwise CommentLine.Before := by
    rw [flatMap_lines_ofLines]
    exact h.sublist (List.dropWhile_sublist _)
  refine (List.pairwise_flatMap.mp hlines).2.imp fun {t u} htu ↦ ?_
  have hbefore : t.last.Before u.first := htu _ t.last_mem _ List.mem_cons_self
  have hstop : t.span.stop.offset ≤ t.last.start.offset + Text.byteSize t.last.text := by
    obtain ⟨blanks, hblanks⟩ := Text.trimEnd_prefix t.last.text
    have hsize := congrArg Text.byteSize hblanks
    rw [Text.byteSize_append] at hsize
    change (t.last.start.after (Text.trimEnd t.last.text)).offset ≤ _
    rw [Position.after_offset]
    omega
  have hstart : u.first.start.offset ≤ u.span.start.offset := by
    change _ ≤ (u.first.start.after (Text.indentation u.first.text)).offset
    rw [Position.after_offset]
    exact Nat.le_add_right _ _
  exact hstop.trans (hbefore.trans hstart)

/-- What a tag of a comment makes of its lines. -/
structure Complete (source : List Char) (registry : Registry) (t : TagLines) : Prop where
  /-- The tag starts behind the blanks of its first line. -/
  start : (t.parse registry).tag.span.start = t.first.start.after (Text.indentation t.first.text)
  /-- Its header is read there, from the at sign on. -/
  header : Text.slice? source (t.parse registry).tag.span.start.offset
      ((t.parse registry).tag.span.start.offset + Text.byteSize t.header) =
    some ('@' :: ((t.parse registry).tag.name.toList ++ t.afterName))
  arguments : (t.parse registry).tag.arguments = (t.reading registry).arguments
  /-- The arguments leave an end of the header. -/
  rest : (t.reading registry).rest <:+ t.afterName
  words : words (t.parse registry).tag.body.toList =
    words (t.reading registry).rest ++ t.continuation.flatMap (words ·.text)

theorem header_in (h : t.first.In source) : CommentLine.In source ⟨t.header, t.start⟩ := by
  obtain ⟨pre, hpre, hstart⟩ := h
  refine ⟨pre ++ Text.indentation t.first.text, ?_, ?_⟩
  · rw [List.append_assoc]
    exact ((List.prefix_append_right_inj pre).mpr t.header_prefix).trans hpre
  · rw [start, hstart, Position.after_append]

theorem complete (registry : Registry) {lines : List CommentLine}
    (hplaced : ∀ l ∈ lines, l.In source) (ht : t ∈ ofLines 0 lines) : t.Complete source registry := by
  obtain ⟨name, hname, after, hheader⟩ := (readsWithin ht).name
  have hafter : t.afterName = after := by
    rw [afterName, hname, ← hheader]
    exact List.drop_left' (by simp [Nat.add_comm])
  have hplace := (header_in (hplaced _ (mem_ofLines ht).1)).slice_eq
  refine ⟨rfl, ?_, rfl, Arguments.rest_read _ _ _, ?_⟩
  · rw [parse_name registry hname, String.toList_ofList, hafter, ← List.cons_append, hheader]
    exact hplace
  · exact (congrArg words String.toList_ofList).trans (words_body _ _)

end TagLines

/-- The loop over the lines of a comment finds one tag for each header, in order. From the first
header on, every line is one of theirs; they lie one behind the other, each starts at its at sign,
and the words of its body are those that its arguments leave, followed by those of the lines that
continue it. -/
theorem Comment.tags_complete (registry : Registry) {source : List Char} {c : Comment}
    (h : CommentLine.InOrder source c.lines) :
    ∃ ts stop, RunsTo (TagLines.more? c.lines) ([], 0) (ts, stop) ∧
      (c.tags registry).map (·.tag) = ts.map (fun t ↦ (t.parse registry).tag) ∧
      ts.map (·.first) = c.lines.filter (·.startsTag) ∧
      ts.flatMap TagLines.lines = c.lines.dropWhile (!·.startsTag) ∧
      ((c.tags registry).map (·.tag)).Pairwise
        (fun t u ↦ t.span.stop.offset ≤ u.span.start.offset) ∧
      ∀ t ∈ ts, t.Complete source registry := by
  obtain ⟨stop, hruns⟩ := TagLines.runsTo_ofLines c.lines [] 0
  have htags : (c.tags registry).map (·.tag) =
      (TagLines.ofLines 0 c.lines).map fun t ↦ (t.parse registry).tag :=
    map_tag_tagsAfter registry [] _
  refine ⟨TagLines.ofLines 0 c.lines, stop, hruns, htags, TagLines.map_first_ofLines 0 c.lines,
    TagLines.flatMap_lines_ofLines 0 c.lines, ?_, fun t ht ↦ TagLines.complete registry h.placed ht⟩
  rw [htags, List.pairwise_map]
  exact TagLines.pairwise_span_ofLines 0 h.ordered

/-- A common indentation of two bytes ends inside of a blank of three, and an argument list is not
closed. -/
theorem Comment.tags_complete_task :
    let source := "notes\n@task(x) one\n\t two\n\u2003three\n@see(four".toList
    let c : Comment := ⟨blockLines source .start, ⟨.start, .start⟩⟩
    (c.tags .standard).map (·.tag.body) = ["one\ntwo\nthree", ""] ∧
      ∃ ts stop, RunsTo (TagLines.more? c.lines) ([], 0) (ts, stop) ∧
        ts.flatMap TagLines.lines = c.lines.drop 1 ∧
        ∀ t ∈ ts, t.Complete source .standard := by
  intro source c
  have horder : CommentLine.InOrder source c.lines :=
    ⟨in_blockLines (List.prefix_refl ([] ++ source)), pairwise_blockLines source .start⟩
  obtain ⟨ts, stop, hruns, -, -, hlines, -, hcomplete⟩ := tags_complete .standard horder
  have hdrop : c.lines.dropWhile (!·.startsTag) = c.lines.drop 1 := by decide +kernel
  exact ⟨by decide +kernel, ts, stop, hruns, hlines.trans hdrop, hcomplete⟩

end Marginalia
