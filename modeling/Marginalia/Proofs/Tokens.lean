import Marginalia.Proofs.SoundCourse

/-!
# Tokens

An anchor that waits for its body goes on waiting unless a token ends the wait, and only a header
brings an anchor to the outline.
-/

namespace Marginalia

namespace Token

/-- Whether a token is the header of an anchor. -/
def isAnchor : Token → Bool
  | anchor _ => true
  | newline | blank | comment _ | literal _ | regex _ | closer _ | opener _ | indentation _
  | separator _ | plain | inner => false

/-- Whether a token settles what becomes of an anchor that waits for its body at the same depth: the
body opens, or the statement is over. -/
def settles (g : Grammar) : Token → Bool
  | opener i => g.isBodyPair i
  | separator _ | anchor _ | plain | indentation _ => true
  | newline | blank | comment _ | literal _ | regex _ | closer _ | inner => false

end Token

namespace Pass

variable {s : Setup} {g : Grammar} {p q : Pass} {t : Token} {b : PendingBody}

/-! ## The wait for a body -/

/-- The wait for a body after a token that leaves the scan at a depth. -/
def pendingAfter (p : Pass) (g : Grammar) (depth : Nat) : Token → Option PendingBody
  | .newline => if g.newlineTerminates && p.awaitsBody then none else p.pendingBody
  | .closer _ => p.pendingBody.filter (·.depth ≤ depth)
  | .opener i => if p.opensBody g i then none else p.pendingBody
  | .indentation _ => none
  | .separator _ | .plain => if p.awaitsBody then none else p.pendingBody
  | .anchor _ => some ⟨p.nesting.depth, p.cursor.lineIndent⟩
  | .blank | .comment _ | .literal _ | .regex _ | .inner => p.pendingBody

theorem pendingBody_take (hpending : ∀ b, p.pendingBody = some b → b.depth ≤ p.nesting.depth)
    (t : Token) : (p.take g t).pendingBody = p.pendingAfter g (p.take g t).nesting.depth t := by
  have hsame : ∀ d, p.nesting.depth ≤ d → p.pendingBody = p.pendingBody.filter (·.depth ≤ d) := by
    intro d hd
    cases hb : p.pendingBody with
    | none => rfl
    | some b => simp [Option.filter, (hpending b hb).trans hd]
  cases t with
  | newline => rw [take, afterNewline_eq]; rfl
  | closer i =>
    rcases p.closeBlock_cases g i with ⟨-, heq⟩ | ⟨-, -, heq⟩ |
      ⟨-, inner, closed, outer, hcs, -, -, heq⟩
    · rw [take, heq]
      exact hsame _ (Nat.le_refl _)
    · rw [take, heq]
      exact hsame _ (Nat.le_refl _)
    · rw [take, heq, closeThrough_eq]
      rfl
  | opener i =>
    rw [take]
    cases ho : p.nesting.opening with
    | overflowed first => rw [openBlock_of_overflowed ho]; rfl
    | entered =>
      cases hb : p.opensBody g i with
      | true => rw [openBlock_of_body ho i hb]; exact (if_pos hb).symm
      | false => rw [openBlock_of_block ho i hb]; exact (if_neg (Bool.eq_false_iff.mp hb)).symm
  | indentation opener =>
    rcases p.openIndentBody_cases opener with ⟨ds, heq, -⟩ | ⟨b, -, -, -, heq⟩
    · rw [take, heq]; rfl
    · rw [take, heq]; rfl
  | separator text => rw [take, separator, cancelBody_eq]; rfl
  | plain => rw [take, cancelBody_eq]; rfl
  | literal i => rw [take, literal_eq]; rfl
  | blank => rfl
  | comment form => rfl
  | regex text => rfl
  | anchor r => rfl
  | inner => rfl

theorem anchor?_of_mem_closeEvents (p : Pass) (g : Grammar) (i k : Nat) (closed : Context) :
    ∀ e ∈ p.closeEvents g i k closed, e.anchor? = none := by
  intro e he
  obtain rfl | rfl | rfl | rfl := of_mem_closeEvents he
  all_goals rfl

/-- Only a header brings an anchor. -/
theorem latest?_take (h : t.isAnchor = false) : (p.take g t).course.latest? = p.course.latest? := by
  cases t with
  | anchor r => cases h
  | newline => rw [take, afterNewline_eq]; rfl
  | closer i =>
    rcases p.closeBlock_cases g i with ⟨-, heq⟩ | ⟨-, -, heq⟩ |
      ⟨-, inner, closed, outer, hcs, -, -, heq⟩
    · rw [take, heq]; rfl
    · rw [take, heq]; rfl
    · have hsent := Course.latest?_send (anchor?_of_mem_closeEvents
        (p.send [.bracketClosed i p.cursor.position]) g i inner.length closed)
        (p.send [.bracketClosed i p.cursor.position]).course
      rw [take, heq, closeThrough_eq]
      exact hsent
  | opener i =>
    rw [take]
    cases ho : p.nesting.opening with
    | overflowed first => rw [openBlock_of_overflowed ho]; rfl
    | entered =>
      cases hb : p.opensBody g i with
      | true => rw [openBlock_of_body ho i hb]; rfl
      | false => rw [openBlock_of_block ho i hb]; rfl
  | indentation opener =>
    rcases p.openIndentBody_cases opener with ⟨ds, heq, -⟩ | ⟨b, -, -, -, heq⟩
    · rw [take, heq]; rfl
    · rw [take, heq]; rfl
  | separator text => rw [take, separator, cancelBody_eq]; rfl
  | plain => rw [take, cancelBody_eq]; rfl
  | literal i => rw [take, literal_eq]; rfl
  | blank => rfl
  | comment form => rfl
  | regex text => rfl
  | inner => rfl

/-! ## Steps -/

theorem skip_fields (p : Pass) (s : Setup) :
    (p.skip s).pendingBody = p.pendingBody ∧ (p.skip s).journal = p.journal := by
  obtain ⟨q, hq, hskip⟩ := skip_induction
    (P := fun q : Pass ↦ q.pendingBody = p.pendingBody ∧ q.journal = p.journal) s ⟨rfl, rfl⟩
    fun q r hq hqr ↦ by
      cases hqr with
      | literal peek goesOn found => rwa [literal_eq]
      | regex peek goesOn string found => exact hq
      | blank peek goesOn string regex blank => exact hq
      | char peek goesOn string regex blank => exact hq
  rw [hskip]
  exact hq

/-- A step that reads no token changes neither the wait for a body nor the latest anchor. -/
theorem step_of_silent (hlines : s.grammar.newlineTerminates = false)
    (hreads : p.reads s.grammar = none) (h : step s p = some q) :
    q.pendingBody = p.pendingBody ∧ q.course.latest? = p.course.latest? := by
  cases step_eq_some_iff.mp h with
  | comment mode =>
    rename_i form
    cases form with
    | line i =>
      obtain ⟨_, _, _, hread, hpending⟩ := p.readComment_line_eq s.grammar i
      rw [hread]
      exact ⟨hpending.resolve_right (by simp [hlines]), rfl⟩
    | block i =>
      rw [readComment, blockComment_eq]
      exact ⟨rfl, rfl⟩
  | tags mode =>
    rw [placeTags_eq]
    refine ⟨rfl, Course.latest?_send (c := p.course) ?_⟩
    intro e he
    rw [eq_of_mem_commentEvents he]
    rfl
  | newline mode peek => simp [reads, mode, peek] at hreads
  | blank mode peek inline blank => simp [reads, mode, peek] at hreads
  | token mode peek blank ahead => simp [reads, mode, peek] at hreads
  | skip mode peek =>
    obtain ⟨hpending, hjournal⟩ := p.skip_fields s
    exact ⟨hpending, by rw [Course.latest?, course, hjournal]; rfl⟩

/-- The wait for a body and the latest anchor after a step that reads a token. -/
theorem step_of_token (hbraces : s.grammar.indents = false)
    (hpending : ∀ b, p.pendingBody = some b → b.depth ≤ p.nesting.depth)
    (hreads : p.reads s.grammar = some t) (h : step s p = some q) :
    q.pendingBody = p.pendingAfter s.grammar q.nesting.depth t ∧
      (t.isAnchor = false → q.course.latest? = p.course.latest?) := by
  rcases step_of_reads hreads with ⟨-, hstep⟩ | hstep
  · rw [h] at hstep
    cases hstep
    exact ⟨pendingBody_take hpending t, latest?_take⟩
  · rw [h, atToken_of_braces hbraces] at hstep
    cases hstep
    have htake := pendingBody_take (g := s.grammar) (p := { p with lineStart := false }) hpending t
    refine ⟨htake.trans ?_, fun ht ↦ latest?_take (p := { p with lineStart := false }) ht⟩
    cases t <;> rfl

end Pass

end Marginalia
