import Marginalia.Proofs.Conservation
import Marginalia.Proofs.Extension

/-!
# Between two texts

A scan of two texts that stops between them, in code and outside of everything, has done what a
scan of the first text does.
-/

namespace Marginalia

namespace Pass

variable {s : Setup} {g : Grammar} {source text more : List Char} {p q r : Pass} {t : Token}
  {n : Nat}

/-- A pass that does not come to rest before it has left less than `n` characters ahead. -/
def Leaving (n : Nat) (p : Pass) : Prop :=
  p.cursor.ahead.length < n ∨ p.cursor.ahead.length = n ∧
    ((∃ form, p.mode = .comment form) ∨ p.mode = .skip ∨
      p.mode = .code ∧ p.pendingBody.isSome = true)

theorem Leaving.settled (h : p.Leaving n) : p.cursor.ahead.length < n ∨
    p.cursor.ahead.length = n ∧ p.Settled := by
  refine h.imp_right fun ⟨hn, hmode⟩ ↦ ⟨hn, ?_⟩
  rcases hmode with ⟨form, hmode⟩ | hmode | ⟨hmode, -⟩ <;> exact settled_of_mode hmode (by simp)

/-- A token is left behind, or read on in another mode, or an anchor has been found. -/
theorem Ahead.leaving_take (h : p.Ahead g t) (hmode : p.mode = .code) (hne : p.cursor.ahead ≠ []) :
    (p.take g t).markEnd.Leaving p.cursor.ahead.length := by
  have hcursor : (p.take g t).markEnd.cursor = p.cursor.consume (p.tokenLength g t) :=
    p.take_cursor g t
  have hstay : p.tokenLength g t = 0 →
      (p.take g t).markEnd.cursor.ahead.length = p.cursor.ahead.length := by
    intro hzero
    rw [hcursor, hzero, Cursor.consume_zero]
  rcases Nat.eq_zero_or_pos (p.tokenLength g t) with hzero | hpos
  · refine .inr ⟨hstay hzero, ?_⟩
    rcases h.length_pos with hpos | ⟨form, rfl⟩ | ⟨r, rfl⟩ | rfl | rfl
    · exact absurd hzero (Nat.ne_of_gt hpos)
    · exact .inl ⟨form, rfl⟩
    · exact .inr (.inr ⟨hmode, rfl⟩)
    · exact .inr (.inl rfl)
    · exact .inr (.inl rfl)
  · rw [Leaving, hcursor]
    exact .inl (Cursor.length_ahead_consume_lt hpos hne)

/-- A step that does not place tags leads on. -/
theorem leaving_step (hat : p.AtComment s.grammar)
    (hle : q.cursor.ahead.length ≤ p.cursor.ahead.length) (hstep : step s p = some q)
    (h : p.cursor.ahead.length < n ∨ p.cursor.ahead.length = n ∧ p.Settled) : q.Leaving n := by
  rcases h with hlt | ⟨rfl, hsettled⟩
  · exact .inl (Nat.lt_of_le_of_lt hle hlt)
  cases step_eq_some_iff.mp hstep with
  | comment mode => exact .inl (readComment_progress (hat _ mode)).1
  | tags mode => exact absurd mode (hsettled _)
  | newline mode peek =>
    refine .inl ?_
    rw [take_cursor]
    exact Cursor.length_ahead_consume_lt Nat.one_pos (Cursor.ahead_ne_nil_of_peek? peek)
  | blank mode peek inline blank =>
    exact .inl (Cursor.length_ahead_consume_lt Nat.one_pos (Cursor.ahead_ne_nil_of_peek? peek))
  | token mode peek blank ahead =>
    have hne := Cursor.ahead_ne_nil_of_peek? peek
    have hleaving := ahead.leaving_take ((p.atToken_mode _).trans mode) (by rwa [atToken_cursor])
    rwa [atToken_cursor] at hleaving
  | skip mode peek => exact .inl (length_ahead_skip_lt s (Cursor.ahead_ne_nil_of_peek? peek))

/-- A pass in code that goes on has not come to rest: it never is in code again with as much text
ahead and no wait for a body. -/
theorem not_reaches_of_step (h : Reaches (step s) (start s source) p)
    (hmode : p.mode = .code) (hstep : step s p = some q) (hqr : Reaches (step s) q r)
    (hlen : r.cursor.ahead.length = p.cursor.ahead.length) (hr : r.mode = .code)
    (hpending : r.pendingBody = none) : False := by
  have hq : Reaches (step s) p q := .head hstep (.refl q)
  have hleaving : r.Leaving p.cursor.ahead.length := by
    refine (hqr.invariant (P := fun r ↦ Reaches (step s) (start s source) r ∧
      r.Leaving p.cursor.ahead.length) ?_ ⟨h.trans hq, ?_⟩).2
    · rintro a b ⟨ha, hleave⟩ hab
      have hb : Reaches (step s) a b := .head hab (.refl b)
      exact ⟨ha.trans hb, leaving_step (atComment_of_reaches ha)
        (length_ahead_le_of_reaches (atComment_of_reaches ha) hb) hab hleave.settled⟩
    · have hat := atComment_of_reaches h
      exact leaving_step hat (length_ahead_le_of_reaches hat hq) hstep
        (.inr ⟨rfl, settled_of_mode hmode (by simp)⟩)
  rcases hleaving with hlt | ⟨-, ⟨form, hmode⟩ | hmode | ⟨-, hsome⟩⟩
  · omega
  · rw [hr] at hmode
    cases hmode
  · rw [hr] at hmode
    cases hmode
  · rw [hpending] at hsome
    cases hsome

/-! ## The first text -/

theorem source_of_reaches (h : Reaches (step s) (start s source) p) :
    p.assembly.source = source := by
  rw [assembly_eq_replay h, (Assembly.replay_source _ _).1]
  rfl

theorem offset_le_of_reaches (h : Reaches (step s) (start s source) p) :
    p.cursor.position.offset ≤ Text.byteSize p.assembly.source := by
  obtain ⟨pre, post, hsource, hsize⟩ := (reaches_moves h).2.cursor.isPlace
  rw [source_of_reaches h, hsource, ← hsize, Text.byteSize_append]
  exact Nat.le_add_right _ _

/-- Outside of all contexts, no body is open. -/
theorem frames_of_contexts (h : Reaches (step s) (start s source) p)
    (hcontexts : p.nesting.contexts = []) : p.assembly.frames = [] := by
  have hbodies := (sound_of_reaches h).bodies
  rw [show p.course.contexts = [] from hcontexts] at hbodies
  exact List.map_eq_nil_iff.mp hbodies

theorem contexts_ne_nil_of_enclosing (h : Reaches (step s) (start s source) p) {kind : AnchorKind}
    (hkind : p.assembly.enclosingKind? = some kind) : p.nesting.contexts ≠ [] := by
  intro hnil
  rw [Assembly.enclosingKind?, frames_of_contexts h hnil] at hkind
  cases hkind

/-- The body of a class that is left before the second text starts is closed in the first. -/
theorem closes_of_extend (hg : s.grammar.Lined) (hends : Text.EndsLine p.cursor.ahead)
    (hp : Reaches (step s) (start s text) p)
    (hp' : Reaches (step s) (start s (text ++ more)) (p.extend text more))
    (hr : Reaches (step s) (p.extend text more) r) (hahead : r.cursor.ahead.length = more.length)
    (hcontexts : r.nesting.contexts = []) (hkind : p.assembly.enclosingKind? = some .classDecl) :
    Grammar.Closes p.cursor.ahead := by
  have hopen : (p.extend text more).nesting.contexts ≠ [] :=
    contexts_ne_nil_of_enclosing (p := p) hp hkind
  obtain ⟨c, hc, hclose⟩ := exists_isCloser_of_reaches hg hp' hr hopen hcontexts
  refine ⟨hends, c, ?_, hclose⟩
  rwa [hahead, extend, Cursor.extend, List.length_append, Nat.add_sub_cancel, List.take_left] at hc

/-- A step over two texts that leads to a rest between them is a step over the first. -/
theorem exists_step_of_extend (hg : s.grammar.Lined) (hline : text = [] ∨ Text.EndsLine text)
    (hmore : more ≠ []) (hp : Reaches (step s) (start s text) p)
    (hp' : Reaches (step s) (start s (text ++ more)) (p.extend text more))
    (hstep : step s (p.extend text more) = some q) (hqr : Reaches (step s) q r)
    (hahead : r.cursor.ahead.length = more.length) (hmode : r.mode = .code)
    (hcontexts : r.nesting.contexts = []) (hpending : r.pendingBody = none) :
    ∃ p', step s p = some p' ∧ q = p'.extend text more := by
  have hreg := (reaches_moves hp).2
  have hq' : Reaches (step s) (p.extend text more) q := .head hstep (.refl q)
  have hfit : more.length ≤ q.cursor.ahead.length :=
    hahead ▸ length_ahead_le_of_reaches (atComment_of_reaches (hp'.trans hq')) hqr
  have hsuffix : p.cursor.ahead <:+ text := ⟨_, hreg.cursor.1⟩
  have hends : p.cursor.ahead ≠ [] → Text.EndsLine p.cursor.ahead ∧ Text.EndsLine text := by
    intro hne
    rcases hline with rfl | hline
    · exact absurd (List.suffix_nil.mp hsuffix) hne
    · exact ⟨hline.of_suffix hsuffix hne, hline⟩
  have hne' : (p.extend text more).cursor.ahead ≠ [] := List.append_ne_nil_of_right_ne_nil _ hmore
  cases hpmode : p.mode with
  | comment form =>
    have hform := atComment_of_reaches hp form hpmode
    have hne : p.cursor.ahead ≠ [] := List.length_pos_iff.mp <| Nat.lt_of_lt_of_le
      (Cursor.length_pos_of_startsWith (Grammar.startsWith_of_commentStart? hform)).1
      (Cursor.length_pos_of_startsWith (Grammar.startsWith_of_commentStart? hform)).2
    obtain rfl := Option.some.inj (hstep.symm.trans (step_comment hpmode))
    refine ⟨p.readComment s.grammar form, step_comment hpmode, ?_⟩
    exact extend_readComment hg.toInLines hform (hends hne).1 (hends hne).2 hsuffix hmore hfit
  | tags c =>
    obtain rfl := Option.some.inj (hstep.symm.trans (step_tags hpmode))
    refine ⟨p.placeTags s.registry c, step_tags hpmode, ?_⟩
    exact extend_placeTags s.registry (hreg.comment c hpmode).2.2.2
  | code =>
    by_cases hne : p.cursor.ahead = []
    · -- the scan of the first text rests here, so the scan of both would never rest here again
      refine (not_reaches_of_step hp' hpmode hstep hqr ?_ hmode hpending).elim
      rw [hahead, extend, Cursor.extend, hne, List.nil_append]
    · obtain rfl := Option.some.inj (hstep.symm.trans (step_code hpmode hne'))
      refine ⟨p.code s.grammar, step_code hpmode hne, ?_⟩
      exact extend_code hg.toInLines (hends hne).1 hsuffix hmore (offset_le_of_reaches hp)
        (fun _ ↦ ⟨hg.body, closes_of_extend hg (hends hne).1 hp hp' (hq'.trans hqr) hahead hcontexts⟩)
        (literalFits_of_code hmore hg.toInLines (hends hne).1 hfit)
  | skip =>
    obtain rfl := Option.some.inj (hstep.symm.trans (step_skip hpmode hne'))
    by_cases hne : p.cursor.ahead = []
    · have hlt := length_ahead_skip_lt (p := p.extend text more) s hne'
      rw [show (p.extend text more).cursor.ahead = more by
        rw [extend, Cursor.extend, hne, List.nil_append]] at hlt
      omega
    · refine ⟨p.skip s, step_skip hpmode hne, ?_⟩
      exact extend_skip hg.toInLines (hends hne).1 (hends hne).2 hsuffix hmore hfit

/-- A rest between two texts is what the scan of the first text comes to. -/
theorem exists_reaches_of_extend (hg : s.grammar.Lined) (hline : text = [] ∨ Text.EndsLine text)
    (h : Reaches (step s) (start s (text ++ more)) r) (hahead : r.cursor.ahead = more)
    (hmode : r.mode = .code) (hcontexts : r.nesting.contexts = [])
    (hpending : r.pendingBody = none) :
    ∃ p, Reaches (step s) (start s text) p ∧ r = p.extend text more ∧ p.cursor.ahead = [] := by
  by_cases hmore : more = []
  · subst hmore
    rw [List.append_nil] at h
    exact ⟨r, h, (extend_nil text r).symm, hahead⟩
  · let Holds (p : Pass) : Prop := Reaches (step s) (start s text) p ∧
      Reaches (step s) (start s (text ++ more)) (p.extend text more)
    have hpull : ∀ p q, Holds p → step s (p.extend text more) = some q → Reaches (step s) q r →
        ∃ p', step s p = some p' ∧ q = p'.extend text more ∧ Holds p' := by
      rintro p q ⟨hp, hp'⟩ hstep hqr
      obtain ⟨p', hp'', rfl⟩ := exists_step_of_extend hg hline hmore hp hp' hstep hqr
        (congrArg List.length hahead) hmode hcontexts hpending
      exact ⟨p', hp'', rfl, hp.trans (.head hp'' (.refl p')), hp'.trans (.head hstep (.refl _))⟩
    obtain ⟨p, hp, rfl, -⟩ := Reaches.pull (step s) (extend text more)
      (fun a ↦ Reaches (step s) a r) Holds (fun a b hab hb ↦ .head hab hb) hpull
      (b := start s text) h (.refl r) ⟨.refl _, .refl _⟩
    refine ⟨p, hp, rfl, ?_⟩
    simpa [extend, Cursor.extend] using hahead

end Pass

end Marginalia
