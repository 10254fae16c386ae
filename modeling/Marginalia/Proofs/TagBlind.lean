import Marginalia.Proofs.Constructs
import Marginalia.Proofs.StableSort

/-!
# The code is scanned alike whatever its tags

The registry of tags and the number of blank lines that an anchor allows only matter to what becomes
of tags. Two scans that differ in these go over the text in step: they send the same events except
for comments, and report the same of what they mend. The outline decides about the code in two
places, when an anchor is recognised and when its body opens. There the bare copies of both courses,
which are equal, decide.
-/

namespace Marginalia

open scoped List

/-- The setup with another registry, and with another number of blank lines that may lie between a
comment and its anchor. -/
def Setup.retagged (s : Setup) (registry : Registry) (maxBlankLines : Nat) : Setup :=
  { s with registry, options := { s.options with maxBlankLines } }

namespace Pass

variable {s : Setup} {g : Grammar} {source : List Char} {p q : Pass}
variable {sees : Event → Bool} {heeds : Diagnostic → Bool}

/-- Passes that differ in what they know of tags: the outline, and the events and diagnostics that
are not looked at. -/
inductive Twin (sees : Event → Bool) (heeds : Diagnostic → Bool) (p : Pass) : Pass → Prop
  | of {journal : List Event} {diagnostics : List Diagnostic} (assembly : Assembly)
      (events : journal.filter sees = p.journal.filter sees)
      (notes : diagnostics.filter heeds = p.diagnostics.filter heeds) :
      Twin sees heeds p { p with assembly, journal, diagnostics }

/-- Two registries make the same of every comment, as far as one looks; all code is looked at. -/
structure Blind (sees : Event → Bool) (heeds : Diagnostic → Bool) (registry registry' : Registry) :
    Prop where
  code : ∀ e : Event, e.isCode = true → sees e = true
  events : ∀ (p : Pass) (c : Comment),
    (p.commentEvents registry' c).filter sees = (p.commentEvents registry c).filter sees
  notes : ∀ c : Comment, ((c.tags registry').flatMap (·.diagnostics)).filter heeds =
    ((c.tags registry).flatMap (·.diagnostics)).filter heeds

/-- Who looks at code and at what is mended sees no registry. -/
theorem blind_code (registry registry' : Registry) :
    Blind Event.isCode (·.kind.isRecovery) registry registry' := by
  have hevents : ∀ (p : Pass) (registry : Registry) (c : Comment),
      (p.commentEvents registry c).filter Event.isCode = [] := by
    intro p registry c
    unfold commentEvents
    split <;> rfl
  refine ⟨fun _ h ↦ h, fun p c ↦ by rw [hevents, hevents], fun c ↦ ?_⟩
  rw [Comment.filter_isRecovery_tags, Comment.filter_isRecovery_tags]

/-- Under one registry everything may be looked at. -/
theorem blind_self (registry : Registry) :
    Blind (fun _ ↦ true) (fun _ ↦ true) registry registry :=
  ⟨fun _ _ ↦ rfl, fun _ _ ↦ rfl, fun _ ↦ rfl⟩

namespace Twin

/-- Passes stay twins under a change that has nothing to do with what they know of tags. -/
theorem map (h : Twin sees heeds p q) (f : Pass → Pass)
    (hf : ∀ (p : Pass) (assembly : Assembly) (journal : List Event)
      (diagnostics : List Diagnostic),
      f { p with assembly, journal, diagnostics } = { f p with assembly, journal, diagnostics }) :
    Twin sees heeds (f p) (f q) := by
  cases h with
  | @of journal diagnostics assembly events notes =>
    have hself : f p = { f p with
        assembly := p.assembly, journal := p.journal, diagnostics := p.diagnostics } :=
      hf p p.assembly p.journal p.diagnostics
    have hjournal : (f p).journal = p.journal := by rw [hself]
    have hdiagnostics : (f p).diagnostics = p.diagnostics := by rw [hself]
    have hother := hf p assembly journal diagnostics
    rw [hother]
    exact .of assembly (by rw [hjournal, events]) (by rw [hdiagnostics, notes])

theorem send (h : Twin sees heeds p q) (es : List Event) :
    Twin sees heeds (p.send es) (q.send es) := by
  cases h with
  | of a events notes => exact .of (a.replay es) (by simp [Pass.send, events]) notes

theorem note (h : Twin sees heeds p q) (ds : List Diagnostic) :
    Twin sees heeds (p.note ds) (q.note ds) := by
  cases h with
  | of a events notes => exact .of a events (by simp [Pass.note, notes])

theorem consume (h : Twin sees heeds p q) (k : Nat) : Twin sees heeds (p.consume k) (q.consume k) :=
  h.map (·.consume k) fun _ _ _ _ ↦ rfl

theorem cancelBody (h : Twin sees heeds p q) : Twin sees heeds p.cancelBody q.cancelBody :=
  h.map Pass.cancelBody fun p _ _ _ ↦ by rw [cancelBody_eq, cancelBody_eq]; rfl

theorem dropStaleBody (h : Twin sees heeds p q) : Twin sees heeds p.dropStaleBody q.dropStaleBody :=
  h.map Pass.dropStaleBody fun p _ _ _ ↦ by rw [dropStaleBody_eq, dropStaleBody_eq]

theorem afterNewline (h : Twin sees heeds p q) (g : Grammar) :
    Twin sees heeds (p.afterNewline g) (q.afterNewline g) :=
  h.map (·.afterNewline g) fun p _ _ _ ↦ by rw [afterNewline_eq, afterNewline_eq]; rfl

theorem literal (h : Twin sees heeds p q) (g : Grammar) (i : Nat) :
    Twin sees heeds (p.literal g i) (q.literal g i) := by
  have hnote := (h.consume (p.literalLength (g.delimiter i))).note
    (p.literalNotes (g.delimiter i))
  rw [literal_eq, literal_eq]
  cases h with
  | of a events notes => exact hnote

/-! ## Comments -/

theorem readComment (h : Twin sees heeds p q) (g : Grammar) (form : CommentForm) :
    Twin sees heeds (p.readComment g form) (q.readComment g form) := by
  cases form with
  | line i =>
    refine h.map (·.lineComment g (g.lineComment i)) fun p a j ds ↦ ?_
    rcases hfound : p.cursor.lineComments (g.lineComment i) with ⟨lines, c⟩
    by_cases hone : lines.length = 1
    · simp [lineComment_eq, hfound, hone]
    · simp [lineComment_eq, hfound, hone, afterNewline_eq]
      exact ⟨rfl, rfl⟩
  | block i =>
    have hnote := (h.consume (p.blockLength (g.blockComment i).1 (g.blockComment i).2)).note
      (p.blockNotes (g.blockComment i).1 (g.blockComment i).2)
    simp only [Pass.readComment, blockComment_eq]
    cases h with
    | of a events notes =>
      cases hnote with
      | of a events notes => exact .of a events notes

/-- Tags are placed by either registry. -/
theorem placeTags {registry registry' : Registry} (h : Twin sees heeds p q)
    (hblind : Blind sees heeds registry registry') (c : Comment) :
    Twin sees heeds (p.placeTags registry c) (q.placeTags registry' c) := by
  rw [placeTags_eq, placeTags_eq]
  cases h with
  | of a events notes =>
    refine .of (a.replay _) ?_ ?_
    · have hsame := hblind.events p c
      simp only [Pass.send, Pass.note, List.filter_append, List.filter_reverse, events] at hsame ⊢
      exact congrArg (fun es ↦ es.reverse ++ p.journal.filter sees) hsame
    · simp only [Pass.send, Pass.note, List.filter_append, hblind.notes, notes]

/-! ## Blocks -/

theorem closeThrough (h : Twin sees heeds p q) (g : Grammar) (i k : Nat) (closed : Context) :
    Twin sees heeds (p.closeThrough g i k closed) (q.closeThrough g i k closed) := by
  have hclosed := h.map (fun p ↦ { p with
      cursor := p.cursor.consume (g.pair i).closer.length
      nesting := { p.nesting with contexts := p.nesting.contexts.drop (k + 1) }
      pendingBody := p.pendingBody.filter (·.depth ≤ (p.nesting.contexts.drop (k + 1)).length) })
    fun _ _ _ _ ↦ rfl
  have hnote := (hclosed.send (p.closeEvents g i k closed)).note (p.closeNotes g i k)
  have hstart := hnote.map (fun p ↦ { p with
      statementStart := (closed.isBody || (g.pair i).holdsStatements) && p.inStatements g })
    fun _ _ _ _ ↦ rfl
  rw [closeThrough_eq, closeThrough_eq]
  cases h with
  | of a events notes => exact hstart

theorem closeAmong (h : Twin sees heeds p q) (g : Grammar) (i : Nat) (contexts : List Context) :
    Twin sees heeds (p.closeAmong g i contexts) (q.closeAmong g i contexts) := by
  have hstray :
      Twin sees heeds (p.strayClose (g.pair i).closer) (q.strayClose (g.pair i).closer) := by
    have hnote := (h.consume (g.pair i).closer.length).note [p.strayNote (g.pair i).closer]
    rw [strayClose_eq, strayClose_eq]
    cases h with
    | of a events notes => exact hnote
  unfold Pass.closeAmong
  split
  · exact hstray
  · split
    · exact hstray
    · exact h.closeThrough g i _ _

theorem closeBlock (h : Twin sees heeds p q) (g : Grammar) (i : Nat) :
    Twin sees heeds (p.closeBlock g i) (q.closeBlock g i) := by
  have hsend := h.send [.bracketClosed i p.cursor.position]
  have habsorb := hsend.map (fun p ↦ { p with nesting := p.nesting.absorb }) fun _ _ _ _ ↦ rfl
  rw [closeBlock_eq, closeBlock_eq]
  cases h with
  | of a events notes =>
    dsimp only
    split
    · exact habsorb.consume _
    · exact hsend.closeAmong g i p.nesting.contexts

theorem openBlock (h : Twin sees heeds p q) (g : Grammar) (i : Nat)
    (hbody : q.opensBody g i = p.opensBody g i) :
    Twin sees heeds (p.openBlock g i) (q.openBlock g i) := by
  have hsend := h.send [.bracketOpened i p.cursor.position]
  have hnesting : q.nesting = p.nesting := by cases h; rfl
  cases ho : p.nesting.opening with
  | overflowed first =>
    have hnote := hsend.note (p.tooDeepNotes first p.cursor.position)
    have hpass := hnote.map (fun r ↦ { r with
        cursor := r.cursor.consume (g.pair i).opener.length
        nesting := { r.nesting with overflow := r.nesting.overflow + 1 }
        pendingBody := if p.opensBody g i then none else r.pendingBody
        statementStart := p.opensBody g i || (g.pair i).holdsStatements }) fun _ _ _ _ ↦ rfl
    rw [openBlock_of_overflowed ho, openBlock_of_overflowed (hnesting ▸ ho), hbody]
    cases h with
    | of a events notes => exact hpass
  | entered =>
    have ho' : q.nesting.opening = .entered := hnesting ▸ ho
    cases hb : p.opensBody g i with
    | false =>
      have hpass := hsend.map (fun r ↦ { r with
          cursor := r.cursor.consume (g.pair i).opener.length
          nesting :=
            { r.nesting with contexts := .block i r.cursor.position :: r.nesting.contexts }
          statementStart := (g.pair i).holdsStatements }) fun _ _ _ _ ↦ rfl
      rw [openBlock_of_block ho i hb, openBlock_of_block ho' i (hbody.trans hb)]
      cases h with
      | of a events notes => exact hpass
    | true =>
      have hpass := (h.send [.bracketOpened i p.cursor.position,
        .bodyEntered p.cursor.position]).map (fun r ↦ { r with
          cursor := r.cursor.consume (g.pair i).opener.length
          nesting :=
            { r.nesting with contexts := .body r.cursor.position none :: r.nesting.contexts }
          pendingBody := none
          statementStart := true }) fun _ _ _ _ ↦ rfl
      rw [openBlock_of_body ho i hb, openBlock_of_body ho' i (hbody.trans hb)]
      cases h with
      | of a events notes => exact hpass

theorem openIndentBody (h : Twin sees heeds p q) (opener : List Char)
    (hready : q.assembly.canEnterBody = p.assembly.canEnterBody) :
    Twin sees heeds (p.openIndentBody opener) (q.openIndentBody opener) := by
  have hnone := h.map (fun p ↦ { p with pendingBody := none }) fun _ _ _ _ ↦ rfl
  unfold Pass.openIndentBody
  refine Twin.consume ?_ _
  have hpending : q.pendingBody = p.pendingBody := by cases h; rfl
  rw [hpending]
  cases p.pendingBody with
  | none => exact h
  | some pending =>
    dsimp only
    rw [hready]
    split
    · have hopening : q.nesting.opening = p.nesting.opening := by cases h; rfl
      rw [hopening]
      cases ho : p.nesting.opening with
      | entered =>
        have hpush := hnone.map (fun r ↦ { r with
          nesting := p.nesting.push (.body p.cursor.position (some pending.indent)) })
          fun _ _ _ _ ↦ rfl
        have hsend := hpush.send [.bodyEntered p.cursor.position]
        cases h with
        | of a events notes => exact hsend
      | overflowed first =>
        have hnote := hnone.note (p.tooDeepNotes first p.cursor.position)
        cases h with
        | of a events notes =>
          simp only [tooDeep_eq, Nesting.absorb_push ho]
          exact hnote
    · exact hnone

theorem leaveBodies (h : Twin sees heeds p q) (indent : Nat) (cs : List Context) :
    Twin sees heeds (Pass.leaveBodies indent cs p) (Pass.leaveBodies indent cs q) := by
  fun_induction Pass.leaveBodies indent cs p generalizing q with
  | case1 opened level outer p hlt =>
    rw [Pass.leaveBodies, if_pos hlt]
    exact h
  | case2 opened level outer p hlt r =>
    rename_i ih
    have hclosed := ((h.map (fun p ↦ { p with nesting := { p.nesting with contexts := outer } })
      fun _ _ _ _ ↦ rfl).send [.bodyLeft p.lastEnd]).send [.blockClosed outer.length]
    rw [Pass.leaveBodies, if_neg hlt]
    refine ih ?_
    cases h with
    | of a events notes => exact hclosed
  | case3 p cs hcs =>
    rw [Pass.leaveBodies.eq_2 _ _ _ hcs]
    exact h

theorem dedent (h : Twin sees heeds p q) (g : Grammar) :
    Twin sees heeds (p.dedent g) (q.dedent g) := by
  have hleave := h.leaveBodies p.cursor.lineIndent p.nesting.contexts
  unfold Pass.dedent
  split
  · cases h with
    | of a events notes => exact hleave.dropStaleBody
  · exact h

/-! ## Tokens -/

/-- The outlines of two passes agree where they decide about the code. -/
structure Agree (p q : Pass) : Prop where
  kind : q.assembly.enclosingKind? = p.assembly.enclosingKind?
  ready : p.awaitsBody = true → q.assembly.canEnterBody = p.assembly.canEnterBody

theorem looksAlike (h : Twin sees heeds p q) (g : Grammar) : LooksAlike g p q := by
  cases h
  exact ⟨rfl, rfl, rfl, rfl, rfl, rfl, rfl, rfl⟩

theorem atToken (h : Twin sees heeds p q) (g : Grammar) :
    Twin sees heeds (p.atToken g) (q.atToken g) := by
  have hdedent := (h.map (fun p ↦ { p with lineStart := false }) fun _ _ _ _ ↦ rfl).dedent g
  have hline : q.lineStart = p.lineStart := by cases h; rfl
  unfold Pass.atToken
  rw [hline]
  split
  · exact hdedent
  · exact h

theorem ahead (h : Twin sees heeds p q) (g : Grammar) (hagree : Agree p q) {t : Token}
    (ht : p.Ahead g t) : q.Ahead g t := by
  have hcursor : q.cursor = p.cursor := by cases h; rfl
  have htoken := (h.looksAlike g).tokenAhead_eq (by rw [hcursor, hagree.kind])
  exact ahead_iff.mpr (htoken.trans (ahead_iff.mp ht))

theorem addAnchor (h : Twin sees heeds p q) (r : Recognition) :
    Twin sees heeds (p.addAnchor r) (q.addAnchor r) := by
  have hanchor := (h.consume (r.headerLength p.cursor.ahead)).send
    [.anchor ⟨r.kind, String.ofList r.name,
      (p.cursor.consume (r.headerLength p.cursor.ahead)).spanFrom p.cursor.position⟩
      p.nesting.depth]
  have hpending := hanchor.map (fun r ↦ { r with
    pendingBody := some ⟨p.nesting.depth, p.cursor.lineIndent⟩ }) fun _ _ _ _ ↦ rfl
  cases h with
  | of a events notes => exact hpending

/-- Tokens are dealt with alike by twins that agree about the code. -/
theorem take (h : Twin sees heeds p q) (g : Grammar) (hagree : Agree p q) {t : Token}
    (ht : p.Ahead g t) : Twin sees heeds (p.take g t) (q.take g t) := by
  have hmode : ∀ {p q : Pass} (m : Mode), Twin sees heeds p q →
      Twin sees heeds { p with mode := m } { q with mode := m } :=
    fun m h ↦ h.map (fun p ↦ { p with mode := m }) fun _ _ _ _ ↦ rfl
  have hstart :
      Twin sees heeds { p with statementStart := false } { q with statementStart := false } :=
    h.map (fun p ↦ { p with statementStart := false }) fun _ _ _ _ ↦ rfl
  cases ht with
  | comment found => exact hmode _ h
  | literal comment found => exact hstart.literal g _
  | regex comment string found => exact hstart.consume _
  | closer comment string regex found => exact h.closeBlock g _
  | opener comment string regex closer found =>
    have hawaits : q.awaitsBody = p.awaitsBody := by cases h; rfl
    refine h.openBlock g _ ?_
    unfold opensBody
    rw [hawaits]
    cases ha : p.awaitsBody with
    | false => simp
    | true => rw [hagree.ready ha]
  | indentation unmarked found =>
    exact h.openIndentBody _ (hagree.ready (bodyOpener?_eq_some found).1)
  | separator unmarked body found =>
    exact (h.consume _).cancelBody.map (fun p ↦ { p with statementStart := p.inStatements g })
      fun _ _ _ _ ↦ rfl
  | anchor unmarked body separator starts found => exact hstart.addAnchor _
  | plain unmarked body separator starts header => exact hmode .skip hstart.cancelBody
  | inner unmarked body separator goesOn => exact hmode _ h

theorem skipStep (h : Twin sees heeds p q) (s : Setup) (registry : Registry) (maxBlankLines : Nat) :
    Option.Rel (Twin sees heeds) (skipStep s p)
      (Pass.skipStep (s.retagged registry maxBlankLines) q) := by
  have hcursor : q.cursor = p.cursor := by cases h; rfl
  have hmark : ∀ {p q : Pass}, Twin sees heeds p q → Twin sees heeds p.markEnd q.markEnd :=
    fun h ↦ h.map Pass.markEnd fun _ _ _ _ ↦ rfl
  -- skipping reads neither the registry nor the number of blank lines
  change Option.Rel _ (Pass.skipStep s p) (Pass.skipStep s q)
  exact (h.looksAlike s.grammar).rel_skipStep (by rw [hcursor])
    (fun _ _ _ ↦ hmark (h.literal s.grammar _)) (fun _ ↦ hmark (h.consume _)) (h.consume 1)
    (hmark (h.consume 1))

theorem skip (h : Twin sees heeds p q) (s : Setup) (registry : Registry) (maxBlankLines : Nat) :
    Twin sees heeds (p.skip s) (q.skip (s.retagged registry maxBlankLines)) := by
  have hmark := (h.consume 1).map Pass.markEnd fun _ _ _ _ ↦ rfl
  have hrun : ∀ n, Twin sees heeds (iterate (Pass.skipStep s) n (p.consume 1).markEnd)
      (iterate (Pass.skipStep (s.retagged registry maxBlankLines)) n (q.consume 1).markEnd) :=
    fun n ↦ iterate_rel (fun c d _ hcd ↦ hcd.skipStep s registry maxBlankLines) n hmark
  have hcode := (hrun (p.consume 1).markEnd.cursor.ahead.length).map
    (fun p ↦ { p with mode := .code }) fun _ _ _ _ ↦ rfl
  cases h with
  | of a events notes => exact hcode

end Twin

/-- Twins agree about the code as long as their courses are mirrored: both agree with the bare copy,
which is the same. -/
theorem Twin.agree (h : Twin sees heeds p q)
    (hcode : ∀ e : Event, e.isCode = true → sees e = true)
    (hp : p.course.Mirrored source) (hq : q.course.Mirrored source) : Twin.Agree p q := by
  have hbare : Assembly.ofCode source q.journal = .ofCode source p.journal := by
    cases h with
    | of a events notes =>
      have hfilter : ∀ es : List Event,
          es.filter Event.isCode = (es.filter sees).filter Event.isCode := by
        intro es
        rw [List.filter_filter]
        refine List.filter_congr fun e _ ↦ ?_
        cases hc : e.isCode with
        | false => simp
        | true => simp [hcode e hc]
      simp only [Assembly.ofCode, List.filter_reverse]
      rw [hfilter, hfilter p.journal, events]
  refine ⟨?_, fun ha ↦ ?_⟩
  · calc
      q.assembly.enclosingKind?
      _ = (Assembly.ofCode source q.journal).enclosingKind? := hq.enclosingKind?
      _ = (Assembly.ofCode source p.journal).enclosingKind? := by rw [hbare]
      _ = p.assembly.enclosingKind? := hp.enclosingKind?.symm
  · have ha' : q.awaitsBody = true := by cases h; exact ha
    exact (hq.sound.canEnterBody (awaits_of_awaitsBody ha')).trans
      (hp.sound.canEnterBody (awaits_of_awaitsBody ha)).symm

/-- The course is mirrored again where the bodies that a line leaves have ended. -/
theorem mirrored_atToken (hreg : p.Regular g source) (hmirrored : p.course.Mirrored source)
    (hp : p.Settled) : (p.atToken g).course.Mirrored source :=
  (atToken_moves hreg hp).1.invariant (fun _ _ hc hm ↦ hm.mirrored hc) hmirrored

section Step

variable {registry : Registry} {maxBlankLines : Nat}
  (hp : Reaches (step s) (start s source) p)
  (hq : Reaches (step (s.retagged registry maxBlankLines))
    (start (s.retagged registry maxBlankLines) source) q)

include hp hq

theorem Twin.agree_atToken (h : Twin sees heeds p q)
    (hcode : ∀ e : Event, e.isCode = true → sees e = true) (hmode : p.mode = .code) :
    Twin.Agree (p.atToken s.grammar) (q.atToken s.grammar) := by
  have hmode' : q.mode = .code := by cases h; exact hmode
  exact (h.atToken s.grammar).agree hcode
    (mirrored_atToken (reaches_moves hp).2 (mirrored_of_reaches hp)
      (settled_of_mode hmode (by simp)))
    (mirrored_atToken (reaches_moves hq).2 (mirrored_of_reaches hq)
      (settled_of_mode hmode' (by simp)))

/-- The steps of two scans go together. -/
theorem Twin.step (h : Twin sees heeds p q) (hblind : Blind sees heeds s.registry registry) :
    Option.Rel (Twin sees heeds) (Pass.step s p)
      (Pass.step (s.retagged registry maxBlankLines) q) := by
  have hcursor : q.cursor = p.cursor := by cases h; rfl
  have hmode : q.mode = p.mode := by cases h; rfl
  refine rel_step (fun hend ↦ ?_) fun p' hp' ↦ ?_
  · rw [step_eq_none_iff] at hend ⊢
    rwa [hcursor, hmode]
  cases hp' with
  | comment mode => exact ⟨_, .comment (hmode.trans mode), h.readComment s.grammar _⟩
  | tags mode => exact ⟨_, .tags (hmode.trans mode), h.placeTags hblind _⟩
  | newline mode peek =>
    exact ⟨_, .newline (hmode.trans mode) (hcursor ▸ peek), (h.consume 1).afterNewline s.grammar⟩
  | blank mode peek inline blank =>
    exact ⟨_, .blank (hmode.trans mode) (hcursor ▸ peek) inline blank, h.consume 1⟩
  | token mode peek blank ahead =>
    have hagree := h.agree_atToken hp hq hblind.code mode
    have htoken := h.atToken s.grammar
    exact ⟨_, .token (hmode.trans mode) (hcursor ▸ peek) blank (htoken.ahead s.grammar hagree ahead),
      (htoken.take s.grammar hagree ahead).map Pass.markEnd fun _ _ _ _ ↦ rfl⟩
  | skip mode peek =>
    exact ⟨_, .skip (hmode.trans mode) (hcursor ▸ peek), h.skip s registry maxBlankLines⟩

end Step

/-- Two scans of a text end as twins. -/
theorem twin_run {s : Setup} {registry : Registry} (hblind : Blind sees heeds s.registry registry)
    (maxBlankLines : Nat) (source : List Char) :
    Twin sees heeds (run s (start s source))
      (run (s.retagged registry maxBlankLines)
        (start (s.retagged registry maxBlankLines) source)) := by
  refine (iterate_rel (R := fun p q ↦ Twin sees heeds p q ∧
    Reaches (step (s.retagged registry maxBlankLines))
      (start (s.retagged registry maxBlankLines) source) q) ?_ _ ⟨?_, .refl _⟩).1
  · rintro p q hp ⟨h, hq⟩
    have hrel := h.step hp hq hblind
    cases hs : step s p with
    | none =>
      rw [hs] at hrel
      cases hs' : step (s.retagged registry maxBlankLines) q with
      | none => exact .none
      | some q' => rw [hs'] at hrel; cases hrel
    | some p' =>
      rw [hs] at hrel
      cases hs' : step (s.retagged registry maxBlankLines) q with
      | none => rw [hs'] at hrel; cases hrel
      | some q' =>
        rw [hs'] at hrel
        cases hrel with
        | some h' => exact .some ⟨h', hq.trans (.head hs' (.refl q'))⟩
  · exact .of _ rfl rfl

end Pass

/-- Two scans that differ in the registry and in the number of blank lines have the same events,
except for comments. -/
theorem Setup.filter_isCode_events (s : Setup) (registry : Registry) (maxBlankLines : Nat)
    (source : List Char) :
    ((s.retagged registry maxBlankLines).events source).filter Event.isCode =
      (s.events source).filter Event.isCode := by
  have htwin := Pass.twin_run (Pass.blind_code s.registry registry) maxBlankLines source
  rw [events_eq, events_eq]
  generalize Pass.run s (Pass.start s source) = p at htwin
  generalize Pass.run (s.retagged registry maxBlankLines)
    (Pass.start (s.retagged registry maxBlankLines) source) = q at htwin
  cases htwin with
  | of a events notes =>
    simp only [Pass.events, List.filter_append, List.filter_reverse, events]

/-- What a scan mends is among what its run reports: the assembly of the outline mends nothing. -/
theorem Setup.filter_isRecovery_eq (s : Setup) (source : List Char) :
    let p := Pass.run s (Pass.start s source)
    (s.scan source).diagnostics.filter (·.kind.isRecovery) =
      sortDiagnostics (p.diagnostics.filter (·.kind.isRecovery) ++
        (p.nesting.contexts.flatMap
          (Context.unwindNotes s.grammar (Position.start.after source) none)).filter
            (·.kind.isRecovery)) := by
  intro p
  have hassembly : (((Assembly.start source s.options.maxBlankLines).replay
      (s.events source)).finish (Position.start.after source)).diagnostics.filter
        (·.kind.isRecovery) = [] := by
    refine List.filter_eq_nil_iff.mpr fun d hd ↦ ?_
    obtain ⟨hkind, -⟩ := Assembly.about_finish _ _ _ _ d hd
    simp [hkind, DiagnosticKind.isRecovery]
  rw [s.scan_eq source]
  refine (filter_sortBy _ _).trans (congrArg sortDiagnostics ?_)
  rw [List.filter_append, List.filter_append, hassembly, List.nil_append]

/-- They report the same of what they mend. -/
theorem Setup.filter_isRecovery_scan (s : Setup) (registry : Registry) (maxBlankLines : Nat)
    (source : List Char) :
    ((s.retagged registry maxBlankLines).scan source).diagnostics.filter (·.kind.isRecovery) =
      (s.scan source).diagnostics.filter (·.kind.isRecovery) := by
  have htwin := Pass.twin_run (Pass.blind_code s.registry registry) maxBlankLines source
  rw [filter_isRecovery_eq, filter_isRecovery_eq]
  generalize Pass.run s (Pass.start s source) = p at htwin
  generalize Pass.run (s.retagged registry maxBlankLines)
    (Pass.start (s.retagged registry maxBlankLines) source) = q at htwin
  cases htwin with
  | of a events notes => rw [notes]; rfl

/-- Whatever tags are registered and however many blank lines may lie between a comment and its
anchor, a scan reports the same of what it mends and finds the same constructs. -/
theorem scan_constructs_of_retagged (grammar : Grammar) (maxDepth : Nat)
    (skipLookahead : SkipLookahead) (registry registry' : Registry)
    (maxBlankLines maxBlankLines' : Nat) (source : List Char) :
    let found := Setup.scan ⟨grammar, registry, ⟨maxDepth, maxBlankLines, skipLookahead⟩⟩ source
    let found' := Setup.scan ⟨grammar, registry', ⟨maxDepth, maxBlankLines', skipLookahead⟩⟩ source
    found.diagnostics.filter (·.kind.isRecovery) = found'.diagnostics.filter (·.kind.isRecovery) ∧
      found.outline.root.constructs ~ found'.outline.root.constructs := by
  intro found found'
  let s : Setup := ⟨grammar, registry, ⟨maxDepth, maxBlankLines, skipLookahead⟩⟩
  have hfound' : found' = (s.retagged registry' maxBlankLines').scan source := rfl
  refine ⟨?_, ?_⟩
  · rw [hfound', s.filter_isRecovery_scan]
  · have hbare := (s.retagged registry' maxBlankLines').constructs_scan source
    rw [s.filter_isCode_events] at hbare
    exact (s.constructs_scan source).trans hbare.symm

end Marginalia
