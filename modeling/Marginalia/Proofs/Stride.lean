import Marginalia.Proofs.Course
import Marginalia.Proofs.Locality

/-!
# What a step leaves behind

A step consumes text. It leaves all contexts only over a closing bracket, and reports only what
starts before the cursor it leaves. When it leaves the cursor at the start of a line with text on
it, outside of all contexts, the next statement may start there.
-/

namespace Marginalia

namespace Cursor

variable {c : Cursor} {t : List Char} {k : Nat}

/-- A cursor at the start of a line. -/
def AtLineStart (c : Cursor) : Prop := ∀ d, c.behind.head? = some d → d = '\n'

/-- A cursor that has consumed text whose last character is no newline stands inside a line. -/
theorem not_atLineStart_consume {d : Char} (h : (c.ahead.take k).getLast? = some d)
    (hd : d ≠ '\n') : ¬(c.consume k).AtLineStart := by
  intro hline
  refine hd (hline d ?_)
  rw [consume, List.head?_append, List.head?_reverse, h]
  rfl

theorem not_atLineStart_of_prefix (ht : t ≠ []) (hpre : t <+: c.ahead) (hline : '\n' ∉ t) :
    ¬(c.consume t.length).AtLineStart := by
  have htake : c.ahead.take t.length = t := (List.prefix_iff_eq_take.mp hpre).symm
  have hlast : t.getLast? = some (t.getLast ht) := List.getLast?_eq_some_getLast ht
  refine not_atLineStart_consume (d := t.getLast ht) (by rw [htake, hlast]) fun hnl ↦ hline ?_
  rw [← hnl]
  exact List.getLast_mem ht

theorem not_atLineStart_of_startsWith (h : c.startsWith t = true) (hline : '\n' ∉ t) :
    ¬(c.consume t.length).AtLineStart :=
  not_atLineStart_of_prefix (startsWith_iff.mp h).1 (startsWith_iff.mp h).2 hline

theorem not_atLineStart_bump {d : Char} (h : c.peek? = some d) (hd : d ≠ '\n') :
    ¬(c.consume 1).AtLineStart := by
  refine not_atLineStart_of_prefix (t := [d]) (by simp) ?_ (by simpa using hd.symm)
  obtain ⟨ds, hds⟩ := List.head?_eq_some_iff.mp h
  exact ⟨ds, hds.symm⟩

/-- The rest of a line leads to no new line. -/
theorem not_atLineStart_restOfLine (h : ¬c.AtLineStart) :
    ¬(c.consume c.restOfLine.length).AtLineStart := by
  by_cases hempty : c.restOfLine = []
  · simpa [hempty] using h
  · refine not_atLineStart_of_prefix hempty (List.takeWhile_prefix _) fun hmem ↦ ?_
    simpa using List.mem_takeWhile_imp hmem

theorem offset_lt_consume (hk : 0 < k) (ha : c.ahead ≠ []) :
    c.position.offset < (c.consume k).position.offset := by
  have hlen := Text.length_le_byteSize (c.ahead.take k)
  have hpos := List.length_pos_iff.mpr ha
  rw [List.length_take] at hlen
  rw [consume_position, Position.after_offset]
  omega

end Cursor

/-! ## Literals -/

namespace StringDelimiter

variable {d : StringDelimiter} {s : List Char} {n : Nat}

/-- The first `n` characters of a text end a literal: with its closer, before a newline, or with
the text. -/
def Stops (d : StringDelimiter) (s : List Char) (n : Nat) : LiteralEnd → Prop
  | .closed => d.closer ≠ [] ∧ d.closer <:+ s.take n
  | .endOfLine => (s.drop n).head? = some '\n'
  | .endOfInput => s.drop n = []

theorem Stops.cons {stop : LiteralEnd} (h : d.Stops s n stop) (c : Char) :
    d.Stops (c :: s) (n + 1) stop := by
  cases stop with
  | closed => exact ⟨h.1, h.2.trans (List.suffix_cons c _)⟩
  | endOfLine => exact h
  | endOfInput => exact h

theorem tail_spec (d : StringDelimiter) (s : List Char) :
    (d.tail s).1 ≤ s.length ∧ d.Stops s (d.tail s).1 (d.tail s).2 := by
  fun_induction StringDelimiter.tail d s with
  | case1 => exact ⟨Nat.le_refl _, rfl⟩
  | case2 => exact ⟨Nat.le_refl _, rfl⟩
  | case3 c hescape c' cs n stop htail ih =>
    rw [htail] at ih
    exact ⟨Nat.succ_le_succ (Nat.succ_le_succ ih.1), (ih.2.cons c').cons c⟩
  | case4 c cs hescape hclose =>
    simp only [Bool.and_eq_true, Bool.not_eq_true', List.isEmpty_eq_false_iff,
      List.isPrefixOf_iff_prefix] at hclose
    refine ⟨hclose.2.length_le, hclose.1, ?_⟩
    exact ⟨[], List.prefix_iff_eq_take.mp hclose.2⟩
  | case5 c cs hescape hclose hline =>
    simp only [Bool.and_eq_true, decide_eq_true_eq] at hline
    exact ⟨Nat.zero_le _, congrArg some hline.1⟩
  | case6 c cs hescape hclose hline n stop htail ih =>
    rw [htail] at ih
    exact ⟨Nat.succ_le_succ ih.1, ih.2.cons c⟩

/-- A literal whose last character is a newline ends before another one, or with the text. -/
theorem Stops.of_newline {stop : LiteralEnd} (h : d.Stops s n stop) (hcloser : '\n' ∉ d.closer)
    (hlast : (s.take n).getLast? = some '\n') :
    s.drop n = [] ∨ (s.drop n).head? = some '\n' := by
  cases stop with
  | closed =>
    obtain ⟨hne, pre, hpre⟩ := h
    rw [← hpre, List.getLast?_append_of_ne_nil _ hne] at hlast
    exact absurd (List.mem_of_getLast? hlast) hcloser
  | endOfLine => exact .inr h
  | endOfInput => exact .inl h

end StringDelimiter

namespace Pass

variable {s : Setup} {g : Grammar} {source : List Char} {p q : Pass}

/-- A literal leaves the cursor inside a line, before a newline, or at the end of the text. -/
theorem literal_atLineStart {i : Nat} {d : StringDelimiter} (hi : g.delimiter i = d)
    (hopener : p.cursor.startsWith d.opener = true)
    (hline : '\n' ∉ d.opener) (hcloser : '\n' ∉ d.closer)
    (h : (p.literal g i).cursor.AtLineStart) :
    (p.literal g i).cursor.ahead = [] ∨ (p.literal g i).cursor.ahead.head? = some '\n' := by
  obtain ⟨hne, rest, hrest⟩ := Cursor.startsWith_iff.mp hopener
  obtain ⟨hle, hstops⟩ := d.tail_spec rest
  have hdrop : p.cursor.ahead.drop d.opener.length = rest := by rw [← hrest, List.drop_left]
  have hcursor : (p.literal g i).cursor = p.cursor.consume (d.opener.length + (d.tail rest).1) := by
    rw [literal_eq, hi]
    simp only [note, consume, literalLength, hdrop]
  have htake : p.cursor.ahead.take (d.opener.length + (d.tail rest).1) =
      d.opener ++ rest.take (d.tail rest).1 := by
    rw [← hrest, List.take_length_add_append]
  have hahead : (p.literal g i).cursor.ahead = rest.drop (d.tail rest).1 := by
    rw [hcursor, Cursor.consume_ahead, ← hrest, List.drop_length_add_append]
  rw [hahead]
  refine hstops.of_newline hcloser ?_
  by_contra hlast
  refine absurd h ?_
  rw [hcursor]
  cases he : (rest.take (d.tail rest).1).getLast? with
  | none =>
    have hlast' := List.getLast?_eq_some_getLast hne
    refine Cursor.not_atLineStart_consume (d := d.opener.getLast hne) ?_ fun hnl ↦ hline ?_
    · rw [htake, List.getLast?_append, he, hlast']
      rfl
    · rw [← hnl]
      exact List.getLast_mem hne
  | some e =>
    refine Cursor.not_atLineStart_consume (d := e) ?_ fun hnl ↦ hlast (hnl ▸ he)
    rw [htake, List.getLast?_append, he]
    rfl

end Pass

/-! ## Comments -/

/-- A run of line comments ends inside a line. -/
theorem Cursor.lineComments_atLineStart {c : Cursor} {marker : List Char}
    (h : c.startsWith marker = true) (hline : '\n' ∉ marker) :
    ¬(c.lineComments marker).2.AtLineStart := by
  unfold lineComments
  refine iterate_induction (P := fun st : List CommentLine × Cursor ↦ ¬st.2.AtLineStart) ?_ _ ?_
  · intro st st' _ hst
    unfold nextCommentLine? at hst
    split at hst
    · rename_i rest hahead
      dsimp only at hst
      split at hst
      · rename_i hpre
        cases hst
        refine not_atLineStart_restOfLine ?_
        rw [← consume_consume]
        refine not_atLineStart_of_prefix (startsWith_iff.mp h).1 ?_ hline
        rw [consume_ahead, hahead, Nat.add_comm, List.drop_succ_cons]
        exact List.isPrefixOf_iff_prefix.mp hpre
      · cases hst
    · cases hst
  · exact not_atLineStart_restOfLine (not_atLineStart_of_startsWith h hline)

/-- The content of a block comment ends before its closer, or with the text. -/
theorem blockContent_spec (closer s : List Char) :
    if (blockContent closer s).2 then
      closer ≠ [] ∧ closer <+: s.drop (blockContent closer s).1.length
    else (blockContent closer s).1 = s := by
  fun_induction blockContent closer s with
  | case1 => simp
  | case2 c cs hclose =>
    simpa [List.isEmpty_eq_false_iff, List.isPrefixOf_iff_prefix] using hclose
  | case3 c cs hclose content closed hcontent ih =>
    rw [hcontent] at ih
    cases closed with
    | false => exact congrArg (c :: ·) ih
    | true => exact ih

namespace Pass

variable {s : Setup} {g : Grammar} {source : List Char} {p q : Pass} {t : Token}

/-- A comment that has been read ends inside a line, or with the text. -/
theorem readComment_atLineStart (hg : g.Lined) {form : CommentForm}
    (h : g.commentStart? p.cursor = some form)
    (hline : (p.readComment g form).cursor.AtLineStart) :
    (p.readComment g form).cursor.ahead = [] := by
  have hopener := Grammar.startsWith_of_commentStart? h
  cases form with
  | line i =>
    rw [readComment_line_cursor] at hline
    exact absurd hline (Cursor.lineComments_atLineStart hopener (hg.lineComment i))
  | block i =>
    have hcursor : (p.readComment g (.block i)).cursor = (p.cursor.consume
        ((g.blockComment i).1.length + (p.blockFound (g.blockComment i).1
          (g.blockComment i).2).1.length)).consume
        (if (p.blockFound (g.blockComment i).1 (g.blockComment i).2).2 then
          (g.blockComment i).2.length else 0) := by
      rw [readComment_block_cursor, Cursor.consume_consume, Nat.add_assoc]
      rfl
    have hspec := blockContent_spec (g.blockComment i).2
      (p.cursor.ahead.drop (g.blockComment i).1.length)
    rw [← blockFound, List.drop_drop] at hspec
    rw [hcursor] at hline ⊢
    split at hspec
    · rename_i hclosed
      rw [if_pos hclosed] at hline
      exact absurd hline
        (Cursor.not_atLineStart_of_prefix hspec.1 hspec.2 (hg.blockComment i).2)
    · rename_i hopen
      rw [if_neg hopen, Cursor.consume_zero, Cursor.consume_ahead, ← List.drop_drop, hspec,
        List.drop_length]

/-! ## Steps -/

/-- Where a statement may start. In code at the start of a line with text on it, outside of all
contexts and without a wait for a body, one may start. -/
def Fresh (p : Pass) : Prop :=
  match p.mode with
  | .code => p.cursor.AtLineStart → p.cursor.ahead ≠ [] → p.cursor.ahead.head? ≠ some '\n' →
    p.nesting.contexts = [] → p.pendingBody = none → p.statementStart = true
  | .comment _ => True
  | .tags _ => p.cursor.AtLineStart → p.cursor.ahead = []
  | .skip => p.cursor.ahead.head? ≠ some '\n'

/-- What a step leaves behind. -/
structure Stride (p q : Pass) : Prop where
  consumed : ∃ k, q.cursor = p.cursor.consume k
  fresh : q.Fresh
  closed : p.nesting.contexts ≠ [] → q.nesting.contexts = [] →
    ∃ c ∈ p.cursor.ahead.take (p.cursor.ahead.length - q.cursor.ahead.length),
      Text.isCloser c = true
  opened : ∀ c ∈ q.nesting.contexts, c ∈ p.nesting.contexts ∨
    c.opened.offset < q.cursor.position.offset
  notes : ∀ d ∈ q.diagnostics, d ∈ p.diagnostics ∨
    d.span.start.offset < q.cursor.position.offset ∨
    ∃ c ∈ p.nesting.contexts, d.span.start = c.opened

/-- A step that keeps the contexts. -/
theorem Stride.of_contexts {k : Nat} (hcursor : q.cursor = p.cursor.consume k)
    (hcontexts : q.nesting.contexts = p.nesting.contexts)
    (hnotes : ∀ d ∈ q.diagnostics, d ∈ p.diagnostics ∨
      d.span.start.offset < q.cursor.position.offset)
    (hfresh : q.Fresh) : p.Stride q where
  consumed := ⟨k, hcursor⟩
  fresh := hfresh
  closed hp hq := absurd (hcontexts ▸ hq) hp
  opened _ hc := .inl (hcontexts ▸ hc)
  notes d hd := (hnotes d hd).imp_right .inl

/-- A step that ends inside a line leaves no place where a statement may start. -/
theorem fresh_of_inside (hmode : p.mode = .code)
    (h : p.cursor.AtLineStart → p.cursor.ahead = [] ∨ p.cursor.ahead.head? = some '\n') :
    p.Fresh := by
  unfold Fresh
  rw [hmode]
  intro hline hne hnl
  rcases h hline with hend | hend
  · exact absurd hend hne
  · exact absurd hend hnl

theorem fresh_of_not_atLineStart (hmode : p.mode = .code) (h : ¬p.cursor.AtLineStart) : p.Fresh :=
  fresh_of_inside hmode fun hline ↦ absurd hline h

theorem fresh_of_statementStart (hmode : p.mode = .code)
    (h : p.nesting.contexts = [] → p.statementStart = true) : p.Fresh := by
  unfold Fresh
  rw [hmode]
  exact fun _ _ _ hcontexts _ ↦ h hcontexts

theorem fresh_of_pending {b : PendingBody} (hmode : p.mode = .code) (h : p.pendingBody = some b) :
    p.Fresh := by
  unfold Fresh
  rw [hmode]
  intro _ _ _ _ hpending
  rw [h] at hpending
  cases hpending

/-- A token that keeps the contexts and is consumed within its line. -/
theorem stride_token {t : List Char} (ds : List Diagnostic) (ht : p.cursor.startsWith t = true)
    (hline : '\n' ∉ t) (hmode : q.mode = .code) (hcursor : q.cursor = p.cursor.consume t.length)
    (hcontexts : q.nesting.contexts = p.nesting.contexts)
    (hnotes : q.diagnostics = p.diagnostics ++ ds)
    (hstart : ∀ d ∈ ds, d.span.start = p.cursor.position) : p.Stride q := by
  have hlen := Cursor.length_pos_of_startsWith ht
  have hne : p.cursor.ahead ≠ [] := List.length_pos_iff.mp (by omega)
  refine .of_contexts hcursor hcontexts ?_ ?_
  · intro d hd
    rw [hnotes, List.mem_append] at hd
    refine hd.imp_right fun hd ↦ ?_
    rw [hstart d hd, hcursor]
    exact Cursor.offset_lt_consume hlen.1 hne
  · refine fresh_of_not_atLineStart hmode ?_
    rw [hcursor]
    exact Cursor.not_atLineStart_of_startsWith ht hline

theorem stride_literal {i : Nat} (hg : g.Lined) (h : g.stringStart? p.cursor = some i)
    (hmode : p.mode = .code) : p.Stride (p.literal g i) := by
  have hopener := Grammar.startsWith_of_stringStart? h
  obtain ⟨hline, hcloser, -⟩ := hg.delimiter i
  have hlen := Cursor.length_pos_of_startsWith hopener
  have hne : p.cursor.ahead ≠ [] := List.length_pos_iff.mp (by omega)
  have hpos := literalLength_pos hopener
  refine .of_contexts (k := p.literalLength (g.delimiter i)) ?_ ?_ ?_ ?_
  · rw [literal_eq]; rfl
  · rw [literal_eq]; rfl
  · intro d hd
    rw [literal_eq] at hd ⊢
    refine (List.mem_append.mp hd).imp_right fun hd ↦ ?_
    rw [(of_mem_literalNotes hd).2]
    exact Cursor.offset_lt_consume hpos hne
  · refine fresh_of_inside (by rw [literal_eq]; exact hmode) ?_
    exact literal_atLineStart rfl hopener hline hcloser

/-- The closer that is found holds a closing bracket. -/
theorem exists_isCloser_of_blockClose? {i : Nat} (hg : g.Lined)
    (h : g.blockClose? p.cursor = some i) : ∃ c ∈ (g.pair i).closer, Text.isCloser c = true := by
  obtain ⟨hlt, -, -⟩ := List.findIdx?_eq_some_iff_getElem.mp h
  have hpair : g.pair i ∈ g.blocks := by
    rw [Grammar.pair, List.getD_eq_getElem?_getD, List.getElem?_eq_getElem hlt]
    exact List.getElem_mem hlt
  exact List.any_eq_true.mp (hg.blocks _ hpair).2.2

theorem stride_closeBlock {i : Nat} (hg : g.Lined) (h : g.blockClose? p.cursor = some i)
    (hmode : p.mode = .code) : p.Stride (p.closeBlock g i) := by
  have hcloser := Grammar.startsWith_of_blockClose? h
  have hline := (hg.pair i).2
  have hlen := Cursor.length_pos_of_startsWith hcloser
  have hne : p.cursor.ahead ≠ [] := List.length_pos_iff.mp (by omega)
  rcases p.closeBlock_cases g i with ⟨-, heq⟩ | ⟨-, -, heq⟩ | ⟨-, inner, closed, outer, hcs, -, -, heq⟩
  · rw [heq]
    exact stride_token [] hcloser hline hmode rfl rfl (by simp [consume, send]) (by simp)
  · rw [heq]
    exact stride_token [_] hcloser hline hmode rfl rfl rfl (by simp [Cursor.spanFrom, send])
  · have htake : p.cursor.ahead.take (g.pair i).closer.length = (g.pair i).closer :=
      (List.prefix_iff_eq_take.mp (Cursor.startsWith_iff.mp hcloser).2).symm
    have hfields : ∃ q, p.closeBlock g i = q ∧
        q.cursor = p.cursor.consume (g.pair i).closer.length ∧ q.nesting.contexts = outer ∧
        q.diagnostics = p.diagnostics ++ inner.flatMap
          (Context.unwindNotes g p.cursor.position (some (g.pair i).closer)) ∧ q.mode = .code := by
      refine ⟨_, heq, ?_⟩
      rw [closeThrough_eq]
      refine ⟨rfl, ?_, ?_, hmode⟩
      · simp [send, note, hcs]
      · simp [send, note, closeNotes, hcs]
    obtain ⟨q, hq, hcursor, hcontexts, hdiagnostics, hqmode⟩ := hfields
    rw [hq]
    refine ⟨⟨_, hcursor⟩, fresh_of_not_atLineStart hqmode ?_, fun _ _ ↦ ?_, fun c hc ↦ .inl ?_, ?_⟩
    · rw [hcursor]
      exact Cursor.not_atLineStart_of_startsWith hcloser hline
    · rw [hcursor, Cursor.consume_ahead, List.length_drop, Nat.sub_sub_self hlen.2, htake]
      exact exists_isCloser_of_blockClose? hg h
    · rw [hcontexts] at hc
      simp [hcs, hc]
    · intro d hd
      rw [hdiagnostics, List.mem_append, List.mem_flatMap] at hd
      refine hd.imp_right ?_
      rintro ⟨c, hc, hd⟩
      exact .inr ⟨c, by simp [hcs, hc], congrArg Span.start (Context.of_mem_unwindNotes hd).2⟩

theorem stride_openBlock {i : Nat} (hg : g.Lined) (h : g.blockOpen? p.cursor = some i)
    (hmode : p.mode = .code) : p.Stride (p.openBlock g i) := by
  have hopener := Grammar.startsWith_of_blockOpen? h
  have hline := (hg.pair i).1
  have hlen := Cursor.length_pos_of_startsWith hopener
  have hne : p.cursor.ahead ≠ [] := List.length_pos_iff.mp (by omega)
  have hlt := Cursor.offset_lt_consume hlen.1 hne
  -- a context that opens here opens before the cursor that the step leaves
  have hpush : ∀ (q : Pass) (c : Context), c.opened = p.cursor.position →
      q.cursor = p.cursor.consume (g.pair i).opener.length →
      q.nesting.contexts = c :: p.nesting.contexts → q.diagnostics = p.diagnostics →
      q.mode = .code → p.Stride q := by
    intro q c hopened hcursor hcontexts hdiagnostics hqmode
    refine ⟨⟨_, hcursor⟩, fresh_of_not_atLineStart hqmode ?_, fun _ hq ↦ ?_, fun d hd ↦ ?_,
      fun d hd ↦ .inl (hdiagnostics ▸ hd)⟩
    · rw [hcursor]
      exact Cursor.not_atLineStart_of_startsWith hopener hline
    · rw [hcontexts] at hq
      cases hq
    · rw [hcontexts, List.mem_cons] at hd
      rcases hd with rfl | hd
      · rw [hopened, hcursor]
        exact .inr hlt
      · exact .inl hd
  cases ho : p.nesting.opening with
  | overflowed first =>
    rw [openBlock_of_overflowed ho]
    refine stride_token (p.tooDeepNotes first p.cursor.position) hopener hline hmode rfl rfl
      rfl fun d hd ↦ congrArg Span.start (of_mem_tooDeepNotes hd).2
  | entered =>
    cases hb : p.opensBody g i with
    | false =>
      rw [openBlock_of_block ho i hb]
      exact hpush _ (.block i p.cursor.position) rfl rfl rfl rfl hmode
    | true =>
      rw [openBlock_of_body ho i hb]
      exact hpush _ (.body p.cursor.position none) rfl rfl rfl rfl hmode

/-- A regular expression comes next and lies within its line. -/
theorem regexLiteral?_spec {c : Cursor} {r : List Char} (h : g.regexLiteral? c = some r) :
    c.startsWith r = true ∧ '\n' ∉ r := by
  have hne := (Grammar.regexLiteral?_ne_nil h).2
  unfold Grammar.regexLiteral? at h
  split at h
  · obtain ⟨n, -, rfl⟩ := Option.map_eq_some_iff.mp h
    have hpre : c.restOfLine.take (n + 1) <+: c.restOfLine := List.take_prefix _ _
    refine ⟨Cursor.startsWith_iff.mpr ⟨hne, hpre.trans (List.takeWhile_prefix _)⟩, fun hmem ↦ ?_⟩
    simpa using List.mem_takeWhile_imp (hpre.subset hmem)
  · cases h

/-- A step that consumes nothing and keeps the contexts. -/
theorem stride_stay (hcursor : q.cursor = p.cursor)
    (hcontexts : q.nesting.contexts = p.nesting.contexts)
    (hnotes : q.diagnostics = p.diagnostics) (hfresh : q.Fresh) : p.Stride q :=
  .of_contexts (k := 0) (by rw [hcursor, Cursor.consume_zero]) hcontexts
    (fun _ hd ↦ .inl (hnotes ▸ hd)) hfresh

theorem stride_take (hg : g.Lined) (ht : p.Ahead g t) (hmode : p.mode = .code)
    (hhead : p.cursor.ahead.head? ≠ some '\n') : p.Stride (p.take g t) := by
  cases ht with
  | comment found => exact stride_stay rfl rfl rfl trivial
  | literal comment found =>
    obtain ⟨hconsumed, hfresh, hclosed, hopened, hnotes⟩ :=
      stride_literal (p := { p with statementStart := false }) hg found hmode
    exact ⟨hconsumed, hfresh, hclosed, hopened, hnotes⟩
  | regex comment string found =>
    obtain ⟨hregex, hline⟩ := regexLiteral?_spec found
    exact stride_token [] hregex hline hmode rfl rfl (by simp [take, consume]) (by simp)
  | closer comment string regex found => exact stride_closeBlock hg found hmode
  | opener comment string regex closer found => exact stride_openBlock hg found hmode
  | indentation unmarked found =>
    rw [bodyOpener?_of_braces hg.body] at found
    cases found
  | separator unmarked body found =>
    rw [take, separator, cancelBody_eq]
    exact stride_token [] (Grammar.startsWith_of_statementEnd? found)
      (hg.statementEnds _ (List.mem_of_find?_eq_some found)) hmode rfl rfl (by simp [consume])
      (by simp)
  | anchor unmarked body separator starts found =>
    rename_i r
    refine .of_contexts (k := r.headerLength p.cursor.ahead) rfl rfl (fun _ hd ↦ .inl hd) ?_
    exact fresh_of_pending hmode rfl
  | plain unmarked body separator starts header =>
    rw [take, cancelBody_eq]
    exact stride_stay rfl rfl rfl hhead
  | inner unmarked body separator goesOn => exact stride_stay rfl rfl rfl hhead

/-- What is left behind while code is skipped. -/
structure Skipped (p q : Pass) : Prop where
  consumed : ∃ k, q.cursor = p.cursor.consume k
  inside : q.cursor.AtLineStart → q.cursor.ahead = [] ∨ q.cursor.ahead.head? = some '\n'
  contexts : q.nesting.contexts = p.nesting.contexts
  notes : ∀ d ∈ q.diagnostics, d ∈ p.diagnostics ∨
    d.span.start.offset < q.cursor.position.offset

/-- More text is skipped, which is reported where it starts. -/
theorem Skipped.next {r : Pass} {k : Nat} (ds : List Diagnostic) (h : p.Skipped q) (hk : 0 < k)
    (hne : q.cursor.ahead ≠ []) (hcursor : r.cursor = q.cursor.consume k)
    (hinside : r.cursor.AtLineStart → r.cursor.ahead = [] ∨ r.cursor.ahead.head? = some '\n')
    (hcontexts : r.nesting.contexts = q.nesting.contexts)
    (hnotes : r.diagnostics = q.diagnostics ++ ds)
    (hstart : ∀ d ∈ ds, d.span.start = q.cursor.position) : p.Skipped r := by
  obtain ⟨j, hj⟩ := h.consumed
  have hlt := Cursor.offset_lt_consume hk hne
  refine ⟨⟨j + k, by rw [hcursor, hj, Cursor.consume_consume]⟩, hinside,
    hcontexts.trans h.contexts, fun d hd ↦ ?_⟩
  rw [hnotes, List.mem_append] at hd
  rw [hcursor]
  rcases hd with hd | hd
  · exact (h.notes d hd).imp_right fun hd ↦ hd.trans hlt
  · rw [hstart d hd]
    exact .inr hlt

theorem Skips.skipped {r : Pass} (hqr : q.Skips s r) (hg : s.grammar.Lined) (h : p.Skipped q) :
    p.Skipped r := by
  have hbump : ∀ {c : Char}, q.cursor.peek? = some c → q.skipEnds s c = false →
      ¬(q.cursor.consume 1).AtLineStart := by
    intro c peek goesOn
    refine Cursor.not_atLineStart_bump peek ?_
    rintro rfl
    simp [skipEnds] at goesOn
  cases hqr with
  | literal peek goesOn found =>
    have hopener := Grammar.startsWith_of_stringStart? found
    obtain ⟨hline, hcloser, -⟩ := hg.delimiter _
    have hinside := literal_atLineStart rfl hopener hline hcloser
    rw [literal_eq] at hinside ⊢
    exact h.next _ (literalLength_pos hopener) (Cursor.ahead_ne_nil_of_peek? peek) rfl hinside rfl
      rfl fun d hd ↦ congrArg Span.start (of_mem_literalNotes hd).2
  | regex peek goesOn string found =>
    obtain ⟨hregex, hline⟩ := regexLiteral?_spec found
    refine h.next [] (Cursor.length_pos_of_startsWith hregex).1 (Cursor.ahead_ne_nil_of_peek? peek)
      rfl ?_ rfl (List.append_nil _).symm (by simp)
    exact fun hstart ↦ absurd hstart (Cursor.not_atLineStart_of_startsWith hregex hline)
  | blank peek goesOn string regex blank =>
    exact h.next [] Nat.one_pos (Cursor.ahead_ne_nil_of_peek? peek) rfl
      (fun hstart ↦ absurd hstart (hbump peek goesOn)) rfl (List.append_nil _).symm (by simp)
  | char peek goesOn string regex blank =>
    exact h.next [] Nat.one_pos (Cursor.ahead_ne_nil_of_peek? peek) rfl
      (fun hstart ↦ absurd hstart (hbump peek goesOn)) rfl (List.append_nil _).symm (by simp)

theorem stride_skip {c : Char} (hg : s.grammar.Lined) (hpeek : p.cursor.peek? = some c)
    (hc : c ≠ '\n') : p.Stride (p.skip s) := by
  obtain ⟨q, hq, hskip⟩ := skip_induction (P := p.Skipped) s
    ⟨⟨1, rfl⟩, fun hstart ↦ absurd hstart (Cursor.not_atLineStart_bump hpeek hc), rfl,
      fun d hd ↦ .inl hd⟩
    fun q r hq hqr ↦ hqr.skipped hg hq
  obtain ⟨k, hk⟩ := hq.consumed
  rw [hskip]
  exact .of_contexts (k := k) hk hq.contexts hq.notes (fresh_of_inside rfl hq.inside)

theorem stride_readComment (hg : g.Lined) {form : CommentForm}
    (h : g.commentStart? p.cursor = some form) : p.Stride (p.readComment g form) := by
  have hopener := Cursor.length_pos_of_startsWith (Grammar.startsWith_of_commentStart? h)
  have hne : p.cursor.ahead ≠ [] := List.length_pos_iff.mp (by omega)
  have hfresh : (p.readComment g form).Fresh := by
    obtain ⟨-, c, hmode⟩ := readComment_progress h
    unfold Fresh
    rw [hmode]
    exact readComment_atLineStart hg h
  cases form with
  | line i =>
    obtain ⟨⟨k, hk⟩, -⟩ := p.cursor.lineComments_spec (g.lineComment i)
    obtain ⟨_, _, _, hread, -⟩ := p.readComment_line_eq g i
    rw [hread] at hfresh ⊢
    exact .of_contexts (k := k) hk rfl (fun d hd ↦ .inl hd) hfresh
  | block i =>
    have hpos : 0 < p.blockLength (g.blockComment i).1 (g.blockComment i).2 :=
      Nat.lt_of_lt_of_le hopener.1 (Nat.le_add_right _ _)
    refine .of_contexts (k := p.blockLength (g.blockComment i).1 (g.blockComment i).2)
      ?_ ?_ (fun d hd ↦ ?_) hfresh
    · rw [readComment, blockComment_eq]
      rfl
    · rw [readComment, blockComment_eq]
      rfl
    · rw [readComment, blockComment_eq] at hd ⊢
      refine (List.mem_append.mp hd).imp_right fun hd ↦ ?_
      rw [(of_mem_blockNotes hd).2]
      exact Cursor.offset_lt_consume hpos hne

theorem stride_placeTags {c : Comment} (registry : Registry) (hreg : p.Regular g source)
    (hfresh : p.Fresh) (hmode : p.mode = .tags c) : p.Stride (p.placeTags registry c) := by
  obtain ⟨-, -, hcursor, hlines⟩ := hreg.comment c hmode
  rw [placeTags_eq]
  refine .of_contexts (k := 0) (Cursor.consume_zero _).symm rfl (fun d hd ↦ ?_) ?_
  · refine (List.mem_append.mp hd).imp_right fun hd ↦ ?_
    obtain ⟨t, ht, hd⟩ := List.mem_flatMap.mp hd
    obtain ⟨-, -, hhi, hdiag⟩ := Comment.tags_within hlines ht
    rw [(hdiag d hd).1]
    exact hhi.trans_eq (congrArg Position.offset hcursor).symm
  · unfold Fresh at hfresh
    rw [hmode] at hfresh
    exact fresh_of_inside rfl fun hstart ↦ .inl (hfresh hstart)

theorem step_stride (hg : s.grammar.Lined) (hreg : p.Regular s.grammar source)
    (hat : p.AtComment s.grammar) (hfresh : p.Fresh) (h : step s p = some q) : p.Stride q := by
  cases step_eq_some_iff.mp h with
  | comment mode => exact stride_readComment hg (hat _ mode)
  | tags mode => exact stride_placeTags s.registry hreg hfresh mode
  | newline mode peek =>
    rw [take, afterNewline_eq]
    refine .of_contexts (k := 1) rfl rfl (fun d hd ↦ .inl hd) ?_
    refine fresh_of_statementStart mode fun hcontexts ↦ ?_
    have hin : (p.consume 1).inStatements s.grammar = true := by
      simp [inStatements, Nesting.top?, consume, show p.nesting.contexts = [] from hcontexts]
    simp only [hin, Bool.or_true]
  | blank mode peek inline blank =>
    refine .of_contexts (k := 1) rfl rfl (fun d hd ↦ .inl hd) ?_
    exact fresh_of_not_atLineStart mode (Cursor.not_atLineStart_bump peek inline)
  | token mode peek blank ahead =>
    rw [atToken_of_braces hg.body] at ahead ⊢
    have hhead : p.cursor.ahead.head? ≠ some '\n' := by
      intro hnewline
      obtain rfl := Option.some.inj (peek.symm.trans hnewline)
      cases blank
    obtain ⟨hconsumed, hfresh, hclosed, hopened, hnotes⟩ := stride_take hg ahead mode hhead
    exact ⟨hconsumed, hfresh, hclosed, hopened, hnotes⟩
  | skip mode peek =>
    unfold Fresh at hfresh
    rw [mode] at hfresh
    exact stride_skip hg peek fun hc ↦ hfresh (hc ▸ peek)

/-! ## Runs -/

theorem atComment_of_reaches (h : Reaches (step s) (start s source) p) : p.AtComment s.grammar :=
  h.invariant (fun _ _ hp hpq ↦ (step_progress hp hpq).2) (atComment_start s source)

/-- What the steps so far have left behind. -/
structure Tracked (p : Pass) : Prop where
  fresh : p.Fresh
  opened : ∀ c ∈ p.nesting.contexts, c.opened.offset < p.cursor.position.offset
  notes : ∀ d ∈ p.diagnostics, d.span.start.offset < p.cursor.position.offset

theorem Stride.tracked (h : p.Stride q) (hp : p.Tracked) : q.Tracked := by
  obtain ⟨k, hk⟩ := h.consumed
  have hle : p.cursor.position.offset ≤ q.cursor.position.offset := by
    rw [hk]
    exact Cursor.offset_le_consume _ _
  refine ⟨h.fresh, fun c hc ↦ ?_, fun d hd ↦ ?_⟩
  · rcases h.opened c hc with hc | hc
    · exact (hp.opened c hc).trans_le hle
    · exact hc
  · rcases h.notes d hd with hd | hd | ⟨c, hc, hd⟩
    · exact (hp.notes d hd).trans_le hle
    · exact hd
    · rw [hd]
      exact (hp.opened c hc).trans_le hle

theorem tracked_start (s : Setup) (source : List Char) : (start s source).Tracked where
  fresh _ _ _ _ _ := rfl
  opened c hc := by cases hc
  notes d hd := by cases hd

theorem stride_of_reaches (hg : s.grammar.Lined) (h : Reaches (step s) (start s source) p)
    (hp : p.Fresh) (hpq : step s p = some q) : p.Stride q :=
  step_stride hg (reaches_moves h).2 (atComment_of_reaches h) hp hpq

theorem tracked_of_reaches (hg : s.grammar.Lined) (h : Reaches (step s) (start s source) p) :
    p.Tracked := by
  induction h with
  | refl => exact tracked_start s source
  | tail hreach hstep ih => exact (stride_of_reaches hg hreach ih.fresh hstep).tracked ih

/-- A run that leaves all contexts passes a closing bracket. -/
theorem exists_isCloser_of_reaches (hg : s.grammar.Lined) (h : Reaches (step s) (start s source) p)
    (hpq : Reaches (step s) p q) (hp : p.nesting.contexts ≠ []) (hq : q.nesting.contexts = []) :
    ∃ c ∈ p.cursor.ahead.take (p.cursor.ahead.length - q.cursor.ahead.length),
      Text.isCloser c = true := by
  induction hpq using Relation.ReflTransGen.head_induction_on with
  | refl => exact absurd hq hp
  | head hstep hrest ih =>
    rename_i a b
    have hb : Reaches (step s) (start s source) b := h.trans (.head hstep (.refl b))
    have hle := length_ahead_le_of_reaches (atComment_of_reaches hb) hrest
    have hstride := stride_of_reaches hg h (tracked_of_reaches hg h).fresh hstep
    obtain ⟨k, hk⟩ := hstride.consumed
    have hahead : b.cursor.ahead = a.cursor.ahead.drop k := by rw [hk, Cursor.consume_ahead]
    have hlen : b.cursor.ahead.length = a.cursor.ahead.length - k := by
      rw [hahead, List.length_drop]
    by_cases hcontexts : b.nesting.contexts = []
    · obtain ⟨c, hc, hclose⟩ := hstride.closed hp hcontexts
      exact ⟨c, List.take_subset_take_left _ (by omega) hc, hclose⟩
    · obtain ⟨c, hc, hclose⟩ := ih hb hcontexts
      refine ⟨c, ?_, hclose⟩
      have hpos : 0 < b.cursor.ahead.length - q.cursor.ahead.length := by
        by_contra hzero
        rw [Nat.eq_zero_of_not_pos hzero, List.take_zero] at hc
        cases hc
      rw [hahead, List.take_drop] at hc
      refine List.take_subset_take_left _ ?_ (List.mem_of_mem_drop hc)
      rw [← hahead]
      omega

end Pass

end Marginalia
