import Marginalia.Proofs.Bearings
import Marginalia.Proofs.Tokens
import Marginalia.Proofs.Turns

/-!
# A depth limit shows only where it is reported

Whatever opens at the limit is counted: brackets, bodies, strings and comments. Strings, comments and
indentation bodies take their count back before anything reads it; the count of a bracket stands
until a closer takes it back, and the first one of an episode is reported. So a pass that counts
contexts past its limit has reported that, and a scan without such a report takes every step that a
scan with a higher limit takes.
-/

namespace Marginalia

/-! ## What is counted has been reported -/

/-- A context that opens where none is counted is entered, or is the first of an episode. -/
theorem Nesting.opening_of_overflow {n : Nesting} (h : n.overflow = 0) :
    n.opening = .entered ∨ n.opening = .overflowed true := by
  unfold opening
  split
  · exact .inr (by rw [h]; rfl)
  · exact .inl rfl

namespace Track

variable {g : Grammar} {source : List Char} {t u : Track}

/-- Contexts are counted past the limit only where that has been reported. -/
def Candid (t : Track) : Prop :=
  0 < t.nesting.overflow → ∃ d ∈ t.diagnostics, d.kind = .nestingTooDeep

theorem Candid.of_le (h : t.Candid) (hover : u.nesting.overflow ≤ t.nesting.overflow)
    (hds : t.diagnostics <+: u.diagnostics) : u.Candid := by
  intro hu
  obtain ⟨d, hd, hkind⟩ := h (Nat.lt_of_lt_of_le hu hover)
  exact ⟨d, hds.subset hd, hkind⟩

/-- What has been reported stays reported. -/
theorem Turn.diagnostics_prefix (h : Turn g source t u) : t.diagnostics <+: u.diagnostics := by
  cases h with
  | quiet | openedDeep | closedStray | closed | indentedDeep => exact List.prefix_append _ _
  | opened | closedDeep | indented | left => exact List.prefix_refl _

theorem Turn.candid (ht : t.Candid) (h : Turn g source t u) : u.Candid := by
  have hds := h.diagnostics_prefix
  cases h with
  | @openedDeep i position first _ _ overflowed =>
    intro _
    -- only the first of an episode is reported; the others find the report of the first
    by_cases hover : t.nesting.overflow = 0
    · obtain rfl : first = true := by
        rcases Nesting.opening_of_overflow hover with h | h
        · rw [h] at overflowed
          cases overflowed
        · rw [h] at overflowed
          cases overflowed
          rfl
      exact ⟨_, List.mem_append_right _ (List.mem_singleton_self _), rfl⟩
    · obtain ⟨d, hd, hkind⟩ := ht (Nat.pos_of_ne_zero hover)
      exact ⟨d, hds.subset hd, hkind⟩
  | closedDeep => exact ht.of_le (Nat.sub_le _ _) hds
  | quiet | opened | closedStray | closed | indented | indentedDeep | left =>
    exact ht.of_le (Nat.le_refl _) hds

end Track

namespace Pass

variable {s : Setup} {g : Grammar} {source : List Char} {p q : Pass} {n : Nat}

/-- A pass that has not reported its depth limit. -/
def Shallow (p : Pass) : Prop := ∀ d ∈ p.diagnostics, d.kind ≠ .nestingTooDeep

instance (p : Pass) : Decidable p.Shallow :=
  inferInstanceAs (Decidable (∀ d ∈ p.diagnostics, d.kind ≠ .nestingTooDeep))

theorem Shallow.of_prefix (h : q.Shallow) (hpq : p.diagnostics <+: q.diagnostics) : p.Shallow :=
  fun d hd ↦ h d (hpq.subset hd)

/-- A pass that has not reported its depth limit counts no contexts past it. -/
theorem overflow_of_shallow (h : Reaches (step s) (start s source) p) (hp : p.Shallow) :
    p.nesting.overflow = 0 := by
  have hcandid : p.track.Candid := (reaches_turns h).1.invariant (P := Track.Candid)
    (fun _ _ ht hturn ↦ hturn.candid ht) fun hover ↦ absurd hover (Nat.lt_irrefl 0)
  refine Nat.eq_zero_of_not_pos fun hover ↦ ?_
  obtain ⟨d, hd, hkind⟩ := hcandid hover
  exact hp d hd hkind

theorem diagnostics_prefix_of_step (h : Reaches (step s) (start s source) p)
    (hstep : step s p = some q) : p.diagnostics <+: q.diagnostics := by
  have hturns := (step_turns (reaches_moves h).2 (reaches_turns h).2 hstep).1
  exact hturns.invariant (P := fun t ↦ p.diagnostics <+: t.diagnostics)
    (fun _ _ ht hturn ↦ ht.trans hturn.diagnostics_prefix) (List.prefix_refl _)

/-! ## Steps under a higher limit -/

/-- The pass with another depth limit. -/
def limited (p : Pass) (n : Nat) : Pass := { p with nesting := { p.nesting with limit := n } }

theorem limited_literal (p : Pass) (n : Nat) (g : Grammar) (i : Nat) :
    (p.limited n).literal g i = (p.literal g i).limited n := by
  rw [literal_eq, literal_eq]
  rfl

theorem limited_afterNewline (p : Pass) (n : Nat) (g : Grammar) :
    (p.limited n).afterNewline g = (p.afterNewline g).limited n := by
  rw [afterNewline_eq, afterNewline_eq]
  rfl

theorem limited_cancelBody (p : Pass) (n : Nat) :
    (p.limited n).cancelBody = p.cancelBody.limited n := by
  rw [cancelBody_eq, cancelBody_eq]
  rfl

theorem limited_readComment (p : Pass) (n : Nat) (g : Grammar) (form : CommentForm) :
    (p.limited n).readComment g form = (p.readComment g form).limited n := by
  cases form with
  | line i =>
    have hcursor : (p.limited n).cursor = p.cursor := rfl
    rw [readComment, readComment, lineComment_eq, lineComment_eq, hcursor]
    rcases p.cursor.lineComments (g.lineComment i) with ⟨lines, c⟩
    by_cases hone : lines.length = 1
    · simp only [hone, if_true]
      rfl
    · simp only [hone, if_false, afterNewline_eq]
      rfl
  | block i =>
    rw [readComment, readComment, blockComment_eq, blockComment_eq]
    rfl

theorem limited_placeTags (p : Pass) (n : Nat) (registry : Registry) (c : Comment) :
    (p.limited n).placeTags registry c = (p.placeTags registry c).limited n := by
  rw [placeTags_eq, placeTags_eq]
  rfl

theorem limited_closeAmong (p : Pass) (n : Nat) (g : Grammar) (i : Nat) (cs : List Context) :
    (p.limited n).closeAmong g i cs = (p.closeAmong g i cs).limited n := by
  unfold closeAmong
  split
  · rfl
  split
  · rfl
  · rw [closeThrough_eq, closeThrough_eq]
    rfl

theorem limited_closeBlock (p : Pass) (n : Nat) (g : Grammar) (i : Nat) :
    (p.limited n).closeBlock g i = (p.closeBlock g i).limited n := by
  rw [closeBlock_eq, closeBlock_eq]
  by_cases hover : 0 < p.nesting.overflow
  · rw [if_pos hover, if_pos (show 0 < (p.limited n).nesting.overflow from hover)]
    rfl
  · rw [if_neg hover, if_neg (show ¬ 0 < (p.limited n).nesting.overflow from hover)]
    exact limited_closeAmong (p.send [.bracketClosed i p.cursor.position]) n g i _

theorem limited_leaveBodies (indent : Nat) (cs : List Context) (p : Pass) (n : Nat) :
    leaveBodies indent cs (p.limited n) = (leaveBodies indent cs p).limited n := by
  fun_induction leaveBodies indent cs p with
  | case1 opened level outer p hlt => rw [leaveBodies, if_pos hlt]
  | case2 opened level outer p hlt q ih =>
    rw [leaveBodies, if_neg hlt, ← ih]
    rfl
  | case3 p cs hcs => rw [leaveBodies.eq_2 _ _ _ hcs]

theorem limited_dropStaleBody (p : Pass) (n : Nat) :
    (p.limited n).dropStaleBody = p.dropStaleBody.limited n := by
  rw [dropStaleBody_eq, dropStaleBody_eq]
  rfl

theorem limited_dedent (p : Pass) (n : Nat) (g : Grammar) :
    (p.limited n).dedent g = (p.dedent g).limited n := by
  unfold dedent
  split
  · change (leaveBodies p.cursor.lineIndent p.nesting.contexts (p.limited n)).dropStaleBody = _
    rw [limited_leaveBodies, limited_dropStaleBody]
  · rfl

/-! ## Openings -/

/-- A context that is entered is entered under a higher limit. -/
theorem opening_limited (h : p.nesting.opening = .entered) (hle : p.nesting.limit ≤ n) :
    (p.limited n).nesting.opening = .entered := by
  obtain ⟨hover, hdepth⟩ := Nesting.opening_eq_entered_iff.mp h
  exact Nesting.opening_eq_entered_iff.mpr ⟨hover, Nat.lt_of_lt_of_le hdepth hle⟩

/-- The first context past the limit is reported. -/
theorem not_shallow_tooDeep (p : Pass) (opened : Position) : ¬ (p.tooDeep true opened).Shallow :=
  fun h ↦ h _ (List.mem_append_right _ (List.mem_singleton_self _)) rfl

theorem limited_openBlock (hover : p.nesting.overflow = 0) (hle : p.nesting.limit ≤ n) {i : Nat}
    (h : (p.openBlock g i).Shallow) :
    (p.limited n).openBlock g i = (p.openBlock g i).limited n := by
  rcases Nesting.opening_of_overflow hover with ho | ho
  · have ho' := opening_limited ho hle
    cases hb : p.opensBody g i with
    | true =>
      rw [openBlock_of_body ho i hb, openBlock_of_body ho' i hb]
      rfl
    | false =>
      rw [openBlock_of_block ho i hb, openBlock_of_block ho' i hb]
      rfl
  · rw [openBlock_of_overflowed ho] at h
    exact absurd h (not_shallow_tooDeep _ _)

theorem limited_openIndentBody (hover : p.nesting.overflow = 0) (hle : p.nesting.limit ≤ n)
    {opener : List Char} (h : (p.openIndentBody opener).Shallow) :
    (p.limited n).openIndentBody opener = (p.openIndentBody opener).limited n := by
  unfold openIndentBody at h ⊢
  rw [show (p.limited n).pendingBody = p.pendingBody from rfl]
  cases hp : p.pendingBody with
  | none => rfl
  | some pending =>
    dsimp only [limited] at h ⊢
    cases hb : p.assembly.canEnterBody with
    | false => rfl
    | true =>
      rcases Nesting.opening_of_overflow hover with ho | ho
      · have ho' : ({ p.nesting with limit := n } : Nesting).opening = .entered :=
          opening_limited ho hle
        simp only [if_true, ho, ho', Nesting.push]
        rfl
      · simp only [hp, hb, if_true, ho] at h
        exact absurd h (not_shallow_tooDeep _ _)

/-! ## Tokens and steps -/

theorem limited_take (hover : p.nesting.overflow = 0) (hle : p.nesting.limit ≤ n) (t : Token)
    (h : (p.take g t).Shallow) : (p.limited n).take g t = (p.take g t).limited n := by
  cases t with
  | newline => exact limited_afterNewline (p.consume 1) n g
  | literal i => exact limited_literal { p with statementStart := false } n g i
  | closer i => exact limited_closeBlock p n g i
  | opener i => exact limited_openBlock hover hle h
  | indentation opener => exact limited_openIndentBody hover hle h
  | separator text =>
    have hcancel := limited_cancelBody (p.consume text.length) n
    unfold take separator
    dsimp only
    rw [show (p.limited n).consume text.length = (p.consume text.length).limited n from rfl,
      hcancel]
    rfl
  | plain =>
    have hcancel := limited_cancelBody { p with statementStart := false } n
    exact congrArg (fun q : Pass ↦ { q with mode := .skip }) hcancel
  | blank | comment form | regex text | anchor r | inner => rfl

/-- The nesting of a pass whose line has ended indentation bodies. -/
theorem atToken_nesting (p : Pass) (g : Grammar) :
    (p.atToken g).nesting.overflow = p.nesting.overflow ∧
      (p.atToken g).nesting.limit = p.nesting.limit := by
  obtain ⟨es, outer, pending, h⟩ := p.atToken_eq g
  rw [h]
  exact ⟨rfl, rfl⟩

theorem limited_atToken (p : Pass) (n : Nat) (g : Grammar) :
    (p.limited n).atToken g = (p.atToken g).limited n := by
  unfold atToken
  rw [show (p.limited n).lineStart = p.lineStart from rfl]
  split
  · exact limited_dedent { p with lineStart := false } n g
  · rfl

theorem limited_token (hover : p.nesting.overflow = 0) (hle : p.nesting.limit ≤ n) (t : Token)
    (h : ((p.atToken g).take g t).Shallow) :
    ((p.limited n).atToken g).take g t = ((p.atToken g).take g t).limited n := by
  obtain ⟨hover', hlimit⟩ := p.atToken_nesting g
  rw [limited_atToken, limited_take (hover'.trans hover) (hlimit.trans_le hle) t h]

theorem looksAlike_limited (p : Pass) (n : Nat) (g : Grammar) : LooksAlike g p (p.limited n) :=
  ⟨rfl, rfl, rfl, rfl, rfl, rfl, rfl, rfl⟩

theorem limited_skip (p : Pass) (n : Nat) (s : Setup) :
    (p.limited n).skip s = (p.skip s).limited n := by
  have hstep : ∀ q q' : Pass, q' = q.limited n →
      Option.Rel (fun q q' : Pass ↦ q' = q.limited n) (skipStep s q) (skipStep s q') := by
    rintro q _ rfl
    exact (q.looksAlike_limited n s.grammar).rel_skipStep rfl
      (fun _ _ _ ↦ congrArg markEnd (limited_literal q n s.grammar _)) (fun _ ↦ rfl) rfl rfl
  have hrun := iterate_rel (fun q q' _ ↦ hstep q q') (p.consume 1).markEnd.cursor.ahead.length
    (a := (p.consume 1).markEnd) rfl
  exact congrArg (fun q : Pass ↦ { q with mode := .code }) hrun

/-- A step that reports no limit is the step under a higher limit. -/
theorem limited_step (hover : p.nesting.overflow = 0) (hle : p.nesting.limit ≤ n)
    (h : ∀ q, step s p = some q → q.Shallow) :
    step s (p.limited n) = (step s p).map (·.limited n) := by
  cases hstep : step s p with
  | none =>
    have hend := step_eq_none_iff.mp hstep
    exact step_eq_none_iff.mpr hend
  | some q =>
    have hq := h q hstep
    rw [Option.map_some, step_eq_some_iff]
    cases step_eq_some_iff.mp hstep with
    | comment mode =>
      rw [← limited_readComment]
      exact .comment mode
    | tags mode =>
      rw [← limited_placeTags]
      exact .tags mode
    | newline mode peek =>
      rw [← limited_take hover hle .newline hq]
      exact .newline mode peek
    | blank mode peek inline blank => exact .blank mode peek inline blank
    | token mode peek blank ahead =>
      rename_i c t
      have htoken := congrArg markEnd (limited_token hover hle t hq)
      have hahead : ((p.limited n).atToken s.grammar).Ahead s.grammar t := by
        have hsame := ahead_iff.mp ahead
        rw [limited_atToken]
        exact ahead_iff.mpr hsame
      have hadvances : (p.limited n).Advances s _ := .token mode peek blank hahead
      rwa [htoken] at hadvances
    | skip mode peek =>
      rw [← limited_skip]
      exact .skip mode peek

/-! ## Runs -/

theorem diagnostics_prefix_of_reaches (hp : Reaches (step s) (start s source) p)
    (h : Reaches (step s) p q) : p.diagnostics <+: q.diagnostics := by
  refine (h.invariant (P := fun q ↦ Reaches (step s) (start s source) q ∧
    p.diagnostics <+: q.diagnostics) ?_ ⟨hp, List.prefix_refl _⟩).2
  rintro q r ⟨hq, hpq⟩ hstep
  exact ⟨hq.trans (.head hstep (.refl r)), hpq.trans (diagnostics_prefix_of_step hq hstep)⟩

/-- A loop that reports no limit is the loop under a higher limit. -/
theorem limited_iterate (hle : s.options.maxDepth ≤ n) (k : Nat)
    (hp : Reaches (step s) (start s source) p) (h : (iterate (step s) k p).Shallow) :
    iterate (step s) k (p.limited n) = (iterate (step s) k p).limited n := by
  induction k generalizing p with
  | zero => rfl
  | succ k ih =>
    have hshallow := h.of_prefix (diagnostics_prefix_of_reaches hp (reaches_iterate (k + 1) p))
    have hover := overflow_of_shallow hp hshallow
    have hlimit := (limit_of_reaches hp).trans_le hle
    cases hq : step s p with
    | none =>
      have hstep := limited_step hover hlimit fun q h ↦ by
        rw [hq] at h
        cases h
      rw [hq] at hstep
      rw [iterate_of_none hq, iterate_of_none hstep]
    | some q =>
      rw [iterate_of_some hq] at h ⊢
      have hreach : Reaches (step s) (start s source) q := hp.trans (.head hq (.refl q))
      have hstep := limited_step hover hlimit fun r hr ↦ by
        obtain rfl : q = r := Option.some.inj (hq.symm.trans hr)
        exact h.of_prefix (diagnostics_prefix_of_reaches hreach (reaches_iterate k q))
      rw [hq] at hstep
      rw [iterate_of_some hstep]
      exact ih hreach h

theorem limited_findings (p : Pass) (n : Nat) (g : Grammar) :
    (p.limited n).findings g = p.findings g := by
  rw [findings, findings, closeAll_eq, closeAll_eq]
  rfl

end Pass

/-- A scan reports its depth limit exactly if its pass does: what the outline reports is about tags,
and what is open at the end is reported as such. -/
theorem Setup.shallow_iff (s : Setup) (source : List Char) :
    (∀ d ∈ (s.scan source).diagnostics, d.kind ≠ .nestingTooDeep) ↔
      (Pass.run s (Pass.start s source)).Shallow := by
  rw [scan_eq]
  simp only [sortDiagnostics, List.mem_mergeSort, List.mem_append, List.mem_flatMap]
  refine ⟨fun h d hd ↦ h d (.inr (.inl hd)), fun h d hd ↦ ?_⟩
  rcases hd with hd | hd | ⟨c, -, hd⟩
  · obtain ⟨hkind, -⟩ := Assembly.about_finish _ _ _ _ d hd
    simp [hkind]
  · exact h d hd
  · rcases (Context.of_mem_unwindNotes hd).1 with hkind | hkind
    · simp [hkind]
    · simp [hkind]

/-- A scan that reports no nesting past its limit finds the same under every higher limit. -/
theorem scan_of_unreported_depth (grammar : Grammar) (registry : Registry) (options : ScanOptions)
    (maxDepth : Nat) (source : List Char) (hle : options.maxDepth ≤ maxDepth)
    (hunreported : ∀ d ∈ (Setup.scan ⟨grammar, registry, options⟩ source).diagnostics,
      d.kind ≠ .nestingTooDeep) :
    Setup.scan ⟨grammar, registry, { options with maxDepth }⟩ source =
      Setup.scan ⟨grammar, registry, options⟩ source := by
  let s : Setup := ⟨grammar, registry, options⟩
  have hrun := Pass.limited_iterate hle _ (.refl _) ((s.shallow_iff source).mp hunreported)
  calc
    Setup.scan ⟨grammar, registry, { options with maxDepth }⟩ source
    _ = ((Pass.run s (Pass.start s source)).limited maxDepth).findings grammar :=
      congrArg (Pass.findings · grammar) hrun
    _ = Setup.scan s source := Pass.limited_findings _ _ _

/-- A string and a comment in brackets that are as deep as the limit allows. -/
theorem scan_of_literal_at_limit :
    let options : ScanOptions := { maxDepth := 1 }
    let source := "f('a', /* @b */ 1)".toList
    (∀ d ∈ (Setup.scan ⟨.javascript, .empty, options⟩ source).diagnostics,
      d.kind ≠ .nestingTooDeep) ∧
    Setup.scan ⟨.javascript, .empty, { options with maxDepth := 9 }⟩ source =
      Setup.scan ⟨.javascript, .empty, options⟩ source := by
  intro options source
  have hunreported : ∀ d ∈ (Setup.scan ⟨.javascript, .empty, options⟩ source).diagnostics,
      d.kind ≠ .nestingTooDeep := (Setup.shallow_iff _ _).mpr (by decide +kernel)
  exact ⟨hunreported,
    scan_of_unreported_depth .javascript .empty options 9 source (by decide) hunreported⟩

end Marginalia
