import Marginalia.Proofs.Reachable
import Marginalia.Proofs.Reading

/-!
# Progress

At most three steps of a scan in a row leave the cursor in place: one that recognises an anchor
with an empty header, one that finds a comment or code to skip, and one that places tags. So a scan
ends because the text is used up and never because of its bound.
-/

namespace Marginalia

namespace Cursor

variable {c : Cursor} {marker : List Char}

theorem length_ahead_consume_lt {k : Nat} (hk : 0 < k) (ha : c.ahead ≠ []) :
    (c.consume k).ahead.length < c.ahead.length := by
  have := List.length_pos_iff.mpr ha
  simp only [consume_ahead, List.length_drop]
  omega

theorem nextCommentLine?_consumes {st st' : List CommentLine × Cursor}
    (h : nextCommentLine? marker st = some st') :
    st.2.ahead ≠ [] ∧ ∃ k, marker.length < k ∧ st'.2 = st.2.consume k := by
  unfold nextCommentLine? at h
  split at h
  · rename_i rest hahead
    dsimp only at h
    split at h
    · cases h
      refine ⟨by simp [hahead], _, ?_, by rw [commentLine, consume_consume]⟩
      omega
    · cases h
  · cases h

theorem length_lt_of_nextCommentLine? {st st' : List CommentLine × Cursor}
    (h : nextCommentLine? marker st = some st') : st'.2.ahead.length < st.2.ahead.length := by
  obtain ⟨hne, k, hk, hcursor⟩ := nextCommentLine?_consumes h
  rw [hcursor]
  exact length_ahead_consume_lt (by omega) hne

end Cursor

namespace Pass

variable {s : Setup} {p q : Pass} {g : Grammar} {t : Token}

/-- A comment that is about to be read starts at the cursor. -/
def AtComment (g : Grammar) (p : Pass) : Prop :=
  ∀ form, p.mode = .comment form → g.commentStart? p.cursor = some form

/-- The number of steps that may pass before text is consumed. -/
def patience (p : Pass) : Nat :=
  match p.mode with
  | .comment _ | .skip => 0
  | .code => if p.statementStart then 2 else 1
  | .tags _ => 3

/-- The number of steps that a scan may still take. -/
def budget (p : Pass) : Nat := 4 * p.cursor.ahead.length + p.patience

theorem patience_le (p : Pass) : p.patience ≤ 3 := by
  unfold patience
  split
  · omega
  · omega
  · split <;> omega
  · omega

/-- A step that consumes text lowers the budget, whatever it leads to. -/
theorem budget_lt_of_length_lt (h : q.cursor.ahead.length < p.cursor.ahead.length) :
    q.budget < p.budget := by
  have := q.patience_le
  unfold budget
  omega

/-! ## Tokens -/

theorem literalLength_pos {d : StringDelimiter} (h : p.cursor.startsWith d.opener = true) :
    0 < p.literalLength d := by
  have := Cursor.length_pos_of_startsWith h
  unfold literalLength
  omega

theorem afterNewline_mode_cursor (p : Pass) (g : Grammar) :
    (p.afterNewline g).mode = p.mode ∧ (p.afterNewline g).cursor = p.cursor := by
  rw [afterNewline_eq]
  exact ⟨rfl, rfl⟩

theorem closeBlock_mode_cursor (p : Pass) (g : Grammar) (i : Nat) :
    (p.closeBlock g i).mode = p.mode ∧
      (p.closeBlock g i).cursor = p.cursor.consume (g.pair i).closer.length := by
  rcases p.closeBlock_cases g i with ⟨-, h⟩ | ⟨-, -, h⟩ | ⟨-, inner, closed, outer, -, -, -, h⟩
  · rw [h]; exact ⟨rfl, rfl⟩
  · rw [h]; exact ⟨rfl, rfl⟩
  · rw [h, closeThrough_eq]; exact ⟨rfl, rfl⟩

theorem openBlock_mode_cursor (p : Pass) (g : Grammar) (i : Nat) :
    (p.openBlock g i).mode = p.mode ∧
      (p.openBlock g i).cursor = p.cursor.consume (g.pair i).opener.length := by
  cases ho : p.nesting.opening with
  | overflowed first => rw [openBlock_of_overflowed ho]; exact ⟨rfl, rfl⟩
  | entered =>
    cases hb : p.opensBody g i with
    | false => rw [openBlock_of_block ho i hb]; exact ⟨rfl, rfl⟩
    | true => rw [openBlock_of_body ho i hb]; exact ⟨rfl, rfl⟩

theorem openIndentBody_mode_cursor (p : Pass) (opener : List Char) :
    (p.openIndentBody opener).mode = p.mode ∧
      (p.openIndentBody opener).cursor = p.cursor.consume opener.length := by
  rcases p.openIndentBody_cases opener with ⟨ds, h, -⟩ | ⟨pending, -, -, -, h⟩
  · rw [h]; exact ⟨rfl, rfl⟩
  · rw [h]; exact ⟨rfl, rfl⟩

/-- The number of characters of a token. -/
def tokenLength (p : Pass) (g : Grammar) : Token → Nat
  | .newline | .blank => 1
  | .comment _ | .plain | .inner => 0
  | .literal i => p.literalLength (g.delimiter i)
  | .regex text | .separator text => text.length
  | .closer i => (g.pair i).closer.length
  | .opener i => (g.pair i).opener.length
  | .indentation opener => opener.length
  | .anchor r => r.headerLength p.cursor.ahead

/-- A token is consumed, whatever is done about it. -/
theorem take_cursor (p : Pass) (g : Grammar) (t : Token) :
    (p.take g t).cursor = p.cursor.consume (p.tokenLength g t) := by
  have hcancel : ∀ p : Pass, p.cancelBody.cursor = p.cursor := fun p ↦ by rw [cancelBody_eq]
  cases t with
  | newline => exact (afterNewline_mode_cursor _ g).2
  | comment form => exact (Cursor.consume_zero _).symm
  | literal i =>
    rw [take, literal_eq]
    rfl
  | closer i => exact (closeBlock_mode_cursor p g i).2
  | opener i => exact (openBlock_mode_cursor p g i).2
  | indentation opener => exact (openIndentBody_mode_cursor p opener).2
  | separator text => exact hcancel _
  | plain => exact (hcancel _).trans (Cursor.consume_zero _).symm
  | inner => exact (Cursor.consume_zero _).symm
  | blank | regex text | anchor r => rfl

theorem take_atToken_cursor (p : Pass) (g : Grammar) (t : Token) :
    ((p.atToken g).take g t).cursor = p.cursor.consume ((p.atToken g).tokenLength g t) := by
  rw [take_cursor, atToken_cursor]

/-- A token leads to its comment, or to code to skip, or leaves the pass in code. -/
theorem take_mode (p : Pass) (g : Grammar) (t : Token) :
    (p.take g t).mode =
      match t with
      | .comment form => .comment form
      | .plain | .inner => .skip
      | _ => p.mode := by
  have hcancel : ∀ p : Pass, p.cancelBody.mode = p.mode := fun p ↦ by rw [cancelBody_eq]
  cases t with
  | newline => exact (afterNewline_mode_cursor _ g).1
  | literal i =>
    rw [take, literal_eq]
    rfl
  | closer i => exact (closeBlock_mode_cursor p g i).1
  | opener i => exact (openBlock_mode_cursor p g i).1
  | indentation opener => exact (openIndentBody_mode_cursor p opener).1
  | separator text => exact hcancel _
  | comment form | plain | inner | blank | regex text | anchor r => rfl

/-- Every token has characters, except for a comment, which is read apart, for a header, and for
code in which nothing has been found. -/
theorem Ahead.length_pos (h : p.Ahead g t) :
    0 < p.tokenLength g t ∨ (∃ form, t = .comment form) ∨ (∃ r, t = .anchor r) ∨ t = .plain ∨
      t = .inner := by
  cases h with
  | comment found => exact .inr (.inl ⟨_, rfl⟩)
  | literal comment found =>
    exact .inl (literalLength_pos (Grammar.startsWith_of_stringStart? found))
  | regex comment string found =>
    exact .inl (List.length_pos_iff.mpr (Grammar.regexLiteral?_ne_nil found).2)
  | closer comment string regex found =>
    exact .inl (Cursor.length_pos_of_startsWith (Grammar.startsWith_of_blockClose? found)).1
  | opener comment string regex closer found =>
    exact .inl (Cursor.length_pos_of_startsWith (Grammar.startsWith_of_blockOpen? found)).1
  | indentation unmarked found =>
    have hlength := (Grammar.ahead_ne_nil_of_bodyOpener? (bodyOpener?_eq_some found).2).2
    exact .inl (Nat.lt_of_lt_of_eq Nat.one_pos hlength.symm)
  | separator unmarked body found =>
    exact .inl (Cursor.length_pos_of_startsWith (Grammar.startsWith_of_statementEnd? found)).1
  | anchor unmarked body separator starts found => exact .inr (.inr (.inl ⟨_, rfl⟩))
  | plain unmarked body separator starts header => exact .inr (.inr (.inr (.inl rfl)))
  | inner unmarked body separator goesOn => exact .inr (.inr (.inr (.inr rfl)))

/-- Where a token leaves the cursor in place, the pass goes on to a comment or to code to skip, or
it has found an anchor at the start of a statement and looks no further for one. -/
theorem Ahead.budget_take_lt (h : p.Ahead g t) (hmode : p.mode = .code)
    (hne : p.cursor.ahead ≠ []) : (p.take g t).budget < p.budget := by
  rcases h.length_pos with hpos | ⟨form, rfl⟩ | ⟨r, rfl⟩ | rfl | rfl
  · refine budget_lt_of_length_lt ?_
    rw [take_cursor]
    exact Cursor.length_ahead_consume_lt hpos hne
  · simp only [budget, patience, take, hmode]
    split <;> omega
  · cases h with
    | anchor unmarked body separator starts found =>
      have hle : (p.take g (.anchor r)).cursor.ahead.length ≤ p.cursor.ahead.length := by
        rw [take_cursor, Cursor.consume_ahead]
        exact (List.drop_suffix _ _).length_le
      have hpatience : (p.take g (.anchor r)).patience = 1 := by
        rw [patience, take_mode, hmode]
        rfl
      have hpatience' : p.patience = 2 := by
        rw [patience, hmode, starts]
        rfl
      rw [budget, budget, hpatience, hpatience']
      omega
  · simp only [budget, patience, take, cancelBody_eq, hmode]
    split <;> omega
  · simp only [budget, patience, take, hmode]
    split <;> omega

/-! ## Comments and skipped code -/

/-- Reading a run of line comments leaves less text than the first marker does. -/
theorem length_ahead_lineComments_le (c : Cursor) (marker : List Char) :
    (c.lineComments marker).2.ahead.length ≤ (c.consume marker.length).ahead.length := by
  unfold Cursor.lineComments
  refine iterate_induction (P := fun st : List CommentLine × Cursor ↦
    st.2.ahead.length ≤ (c.consume marker.length).ahead.length) ?_ _ ?_
  · intro st st' hle hst
    exact Nat.le_trans (Nat.le_of_lt (Cursor.length_lt_of_nextCommentLine? hst)) hle
  · simp only [Cursor.consume_ahead, List.length_drop]
    omega

theorem readComment_progress {form : CommentForm} (h : g.commentStart? p.cursor = some form) :
    (p.readComment g form).cursor.ahead.length < p.cursor.ahead.length ∧
      ∃ c, (p.readComment g form).mode = .tags c := by
  obtain ⟨hpos, hle⟩ :=
    Cursor.length_pos_of_startsWith (Grammar.startsWith_of_commentStart? h)
  have hne : p.cursor.ahead ≠ [] := List.length_pos_iff.mp (by omega)
  cases form with
  | line i =>
    have hlt := Cursor.length_ahead_consume_lt hpos hne
    have hcom := length_ahead_lineComments_le p.cursor (g.lineComment i)
    simp only [Grammar.commentOpener] at hlt
    refine ⟨?_, ⟨_, rfl⟩⟩
    rw [readComment_line_cursor]
    exact Nat.lt_of_le_of_lt hcom hlt
  | block i =>
    simp only [Grammar.commentOpener] at hpos hle
    refine ⟨?_, ⟨_, rfl⟩⟩
    rw [readComment_block_cursor, Cursor.consume_ahead, List.length_drop, blockLength]
    omega

theorem skipStep_consumes (h : skipStep s p = some q) :
    p.cursor.ahead ≠ [] ∧ ∃ k, 0 < k ∧ q.cursor = p.cursor.consume k := by
  cases skipStep_eq_some_iff.mp h with
  | literal peek goesOn found =>
    refine ⟨Cursor.ahead_ne_nil_of_peek? peek, _,
      literalLength_pos (Grammar.startsWith_of_stringStart? found), ?_⟩
    rw [literal_eq]
    rfl
  | regex peek goesOn string found =>
    obtain ⟨hne, hregex⟩ := Grammar.regexLiteral?_ne_nil found
    exact ⟨hne, _, List.length_pos_iff.mpr hregex, rfl⟩
  | blank peek goesOn string regex blank =>
    exact ⟨Cursor.ahead_ne_nil_of_peek? peek, 1, Nat.one_pos, rfl⟩
  | char peek goesOn string regex blank =>
    exact ⟨Cursor.ahead_ne_nil_of_peek? peek, 1, Nat.one_pos, rfl⟩

theorem length_lt_of_skipStep (h : skipStep s p = some q) :
    q.cursor.ahead.length < p.cursor.ahead.length := by
  obtain ⟨hne, k, hk, hcursor⟩ := skipStep_consumes h
  rw [hcursor]
  exact Cursor.length_ahead_consume_lt hk hne

theorem length_ahead_skip_lt (s : Setup) (ha : p.cursor.ahead ≠ []) :
    (p.skip s).cursor.ahead.length < p.cursor.ahead.length := by
  obtain ⟨q, hlt, hskip⟩ := skip_induction
    (P := fun q : Pass ↦ q.cursor.ahead.length < p.cursor.ahead.length) s
    (Cursor.length_ahead_consume_lt Nat.one_pos ha)
    fun q r hlt hqr ↦ Nat.lt_trans (length_lt_of_skipStep (skipStep_eq_some_iff.mpr hqr)) hlt
  rw [hskip]
  exact hlt

/-! ## Steps and runs -/

theorem atComment_of_mode (h : ∀ form, p.mode ≠ .comment form) : p.AtComment g :=
  fun form hf ↦ absurd hf (h form)

/-- A token leads to a comment only where one starts. -/
theorem Ahead.atComment_take (h : p.Ahead g t) (hmode : p.mode = .code) :
    (p.take g t).AtComment g := by
  intro form hform
  rw [take_mode, hmode] at hform
  cases h with
  | comment found =>
    cases hform
    exact found
  | _ => cases hform

/-- A step lowers the budget, and leads to a comment only where one starts. -/
theorem step_progress (hat : p.AtComment s.grammar) (h : step s p = some q) :
    q.budget < p.budget ∧ q.AtComment s.grammar := by
  cases step_eq_some_iff.mp h with
  | comment mode =>
    obtain ⟨hlt, c, hc⟩ := readComment_progress (hat _ mode)
    exact ⟨budget_lt_of_length_lt hlt, atComment_of_mode (by simp [hc])⟩
  | tags mode =>
    rw [placeTags_eq]
    refine ⟨?_, atComment_of_mode (by simp)⟩
    simp only [budget, patience, mode, send, note]
    split <;> omega
  | newline mode peek =>
    have hlt := Cursor.length_ahead_consume_lt Nat.one_pos (Cursor.ahead_ne_nil_of_peek? peek)
    refine ⟨budget_lt_of_length_lt ?_, atComment_of_mode ?_⟩
    · rwa [take_cursor]
    · rw [take_mode, mode]
      simp
  | blank mode peek inline blank =>
    have hlt := Cursor.length_ahead_consume_lt Nat.one_pos (Cursor.ahead_ne_nil_of_peek? peek)
    exact ⟨budget_lt_of_length_lt hlt, atComment_of_mode (by simp [take, consume, mode])⟩
  | token mode peek blank ahead =>
    have hmode : (p.atToken s.grammar).mode = .code := by rw [atToken_mode, mode]
    have hbudget : (p.atToken s.grammar).budget = p.budget := by simp [budget, patience]
    refine ⟨hbudget ▸ ahead.budget_take_lt hmode ?_, ahead.atComment_take hmode⟩
    rw [atToken_cursor]
    exact Cursor.ahead_ne_nil_of_peek? peek
  | skip mode peek =>
    have hlt := length_ahead_skip_lt s (Cursor.ahead_ne_nil_of_peek? peek)
    exact ⟨budget_lt_of_length_lt hlt, atComment_of_mode (by simp [skip])⟩

/-- A scan never goes back. -/
theorem length_ahead_le_of_reaches (hat : p.AtComment s.grammar) (h : Reaches (step s) p q) :
    q.cursor.ahead.length ≤ p.cursor.ahead.length := by
  have hbudget : q.budget ≤ p.budget ∧ q.AtComment s.grammar := by
    refine h.invariant (P := fun q ↦ q.budget ≤ p.budget ∧ q.AtComment s.grammar) ?_
      ⟨Nat.le_refl _, hat⟩
    rintro a b ⟨hle, hat⟩ hab
    obtain ⟨hlt, hat'⟩ := step_progress hat hab
    exact ⟨by omega, hat'⟩
  have hle : q.budget ≤ p.budget := hbudget.1
  have hpatience := p.patience_le
  unfold budget at hle
  omega

/-- A run ends because its step declines. -/
theorem step_run (hat : p.AtComment s.grammar) : step s (run s p) = none := by
  refine step_iterate budget (fun a b ha hab ↦ (step_progress ha hab).2)
    (fun a b ha hab ↦ (step_progress ha hab).1) _ p hat ?_
  have := p.patience_le
  unfold budget
  omega

theorem atComment_start (s : Setup) (source : List Char) :
    (start s source).AtComment s.grammar :=
  atComment_of_mode (by simp [start])

/-- The passes of a scan are finitely many, so they can be searched. -/
theorem mem_visited_iff {source : List Char} :
    p ∈ visited (step s) (4 * (source.length + 1)) (start s source) ↔
      Reaches (step s) (start s source) p :=
  ⟨reaches_of_mem_visited, mem_visited_of_reaches (step_run (atComment_start s source))⟩

theorem reaches_run (s : Setup) (p : Pass) : Reaches (step s) p (run s p) := reaches_iterate _ p

/-- A state where steps end that a scan reaches is where its run ends. -/
theorem run_eq_of_reaches (hat : p.AtComment s.grammar) (h : Reaches (step s) p q)
    (hend : step s q = none) : run s p = q :=
  (reaches_run s p).end_unique (step_run hat) h hend

/-- A pass that takes no further step is in code or skips it, and has used up its text. -/
theorem ahead_eq_nil_of_step_eq_none (h : step s p = none) :
    p.cursor.ahead = [] ∧ (p.mode = .code ∨ p.mode = .skip) :=
  (step_eq_none_iff.mp h).imp_left List.head?_eq_none_iff.mp

end Pass

end Marginalia
