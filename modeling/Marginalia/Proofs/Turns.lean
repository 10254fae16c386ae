import Marginalia.Proofs.Placement

/-!
# What a scan opens, closes and reports

The course of a scan leaves out what is only counted or reported. A track keeps that: the open
contexts with their limit and their overflow, the events and the diagnostics. It changes by a few
turns, each of which says when it happens, what it reports and where; and every step of a scan is a
sequence of turns.
-/

namespace Marginalia

/-- Kinds that come from mending the nesting of brackets. -/
def DiagnosticKind.isStructural : DiagnosticKind → Bool
  | unterminatedBlock | unbalancedBlock | nestingTooDeep => true
  | unknownTag | malformedArgument | duplicateTag | unterminatedComment | unterminatedString
  | unresolvedTag => false

theorem DiagnosticKind.isStructural_of_isRecovery {k : DiagnosticKind} (h : k.isRecovery = false) :
    k.isStructural = false := by
  cases k <;> first | rfl | cases h

namespace Diagnostic

/-- Contexts open past the limit from here on. -/
def tooDeep (limit : Nat) (opened : Position) : Diagnostic where
  kind := .nestingTooDeep
  span := .point opened
  message := s!"nesting deeper than {limit} levels; " ++ "further opens ignored until closed"

/-- A closing bracket has no opener. -/
def stray (position : Position) (closer : List Char) : Diagnostic where
  kind := .unbalancedBlock
  span := ⟨position, position.after closer⟩
  message := s!"stray `{String.ofList closer}` ignored"

end Diagnostic

/-- What of a pass its brackets and reports depend on. -/
structure Track where
  nesting : Nesting
  /-- The events, latest first. -/
  journal : List Event
  diagnostics : List Diagnostic

namespace Track

variable {g : Grammar} {source : List Char} {t u v : Track}

/-- The track with the given open contexts. -/
def within (t : Track) (contexts : List Context) : Track :=
  { t with nesting := { t.nesting with contexts } }

/-- The track after one more event. -/
def send (t : Track) (e : Event) : Track := { t with journal := e :: t.journal }

/-- The track with more diagnostics. -/
def note (t : Track) (ds : List Diagnostic) : Track :=
  { t with diagnostics := t.diagnostics ++ ds }

/-- A change of a track. -/
inductive Turn (g : Grammar) (source : List Char) : Track → Track → Prop
  /-- Events other than brackets, and reports that are not about their nesting. -/
  | quiet {t : Track} {es : List Event} {ds : List Diagnostic}
      (events : ∀ e ∈ es, e.In source ∧ e.isBracket = false)
      (reports : ∀ d ∈ ds, d.span.In source ∧ d.kind.isStructural = false) :
      Turn g source t { t.note ds with journal := es.reverse ++ t.journal }
  /-- A bracket opens a block or a body. -/
  | opened {t : Track} {i : Nat} {position : Position} {c : Context}
      (pair : i < g.blocks.length) (place : position.In source)
      (entered : t.nesting.opening = .entered)
      (context : c = .block i position ∨ c = .body position none ∧ g.isBodyPair i = true) :
      Turn g source t ((t.within (c :: t.nesting.contexts)).send (.bracketOpened i position))
  /-- A bracket opens past the limit. -/
  | openedDeep {t : Track} {i : Nat} {position : Position} {first : Bool}
      (pair : i < g.blocks.length) (place : position.In source)
      (overflowed : t.nesting.opening = .overflowed first) :
      Turn g source t
        { (t.send (.bracketOpened i position)).note
            (if first then [.tooDeep t.nesting.limit position] else []) with
          nesting := { t.nesting with overflow := t.nesting.overflow + 1 } }
  /-- A bracket closes past the limit. -/
  | closedDeep {t : Track} {i : Nat} {position : Position}
      (pair : i < g.blocks.length) (place : position.In source)
      (overflows : 0 < t.nesting.overflow) :
      Turn g source t
        { t.send (.bracketClosed i position) with nesting := t.nesting.absorb }
  /-- A bracket closes and has no opener. -/
  | closedStray {t : Track} {i : Nat} {position : Position}
      (pair : i < g.blocks.length) (place : position.In source)
      (after : (position.after (g.pair i).closer).In source)
      (overflow : t.nesting.overflow = 0)
      (none : ∀ c ∈ t.nesting.contexts, Pass.closes g i c = false) :
      Turn g source t
        ((t.send (.bracketClosed i position)).note [.stray position (g.pair i).closer])
  /-- A bracket closes the innermost context that it can close, with all contexts inside it. -/
  | closed {t : Track} {i : Nat} {position : Position} {inner outer : List Context} {c : Context}
      (pair : i < g.blocks.length) (place : position.In source)
      (overflow : t.nesting.overflow = 0)
      (split : t.nesting.contexts = inner ++ c :: outer)
      (closes : Pass.closes g i c = true)
      (innermost : ∀ d ∈ inner, Pass.closes g i d = false) :
      Turn g source t
        (((t.within outer).send (.bracketClosed i position)).note
          (inner.flatMap (Context.unwindNotes g position (some (g.pair i).closer))))
  /-- An indentation body opens. -/
  | indented {t : Track} {position : Position} {indent : Nat}
      (indents : g.indents = true) (place : position.In source)
      (entered : t.nesting.opening = .entered) :
      Turn g source t (t.within (.body position (some indent) :: t.nesting.contexts))
  /-- An indentation body is past the limit. -/
  | indentedDeep {t : Track} {position : Position} {first : Bool}
      (indents : g.indents = true) (place : position.In source) :
      Turn g source t (t.note (if first then [.tooDeep t.nesting.limit position] else []))
  /-- Indentation bodies end. -/
  | left {t : Track} {inner outer : List Context} (indents : g.indents = true)
      (split : t.nesting.contexts = inner ++ outer) : Turn g source t (t.within outer)

/-- A sequence of turns. -/
def Turns (g : Grammar) (source : List Char) : Track → Track → Prop :=
  Relation.ReflTransGen (Turn g source)

theorem Turns.refl (t : Track) : Turns g source t t := Relation.ReflTransGen.refl

theorem Turns.trans (h : Turns g source t u) (h' : Turns g source u v) : Turns g source t v :=
  Relation.ReflTransGen.trans h h'

theorem Turn.turns (h : Turn g source t u) : Turns g source t u := Relation.ReflTransGen.single h

/-- Events other than brackets and reports that are not about their nesting make one turn. -/
theorem turns_quiet (es : List Event) (ds : List Diagnostic) (hnesting : u.nesting = t.nesting)
    (hjournal : u.journal = es.reverse ++ t.journal)
    (hdiagnostics : u.diagnostics = t.diagnostics ++ ds)
    (hes : ∀ e ∈ es, e.In source ∧ e.isBracket = false)
    (hds : ∀ d ∈ ds, d.span.In source ∧ d.kind.isStructural = false) : Turns g source t u := by
  have hturn : Turn g source t { t.note ds with journal := es.reverse ++ t.journal } :=
    .quiet hes hds
  cases u
  cases hnesting
  cases hjournal
  cases hdiagnostics
  exact hturn.turns

theorem turns_send (es : List Event) (hnesting : u.nesting = t.nesting)
    (hjournal : u.journal = es.reverse ++ t.journal) (hdiagnostics : u.diagnostics = t.diagnostics)
    (hes : ∀ e ∈ es, e.In source ∧ e.isBracket = false) : Turns g source t u :=
  turns_quiet es [] hnesting hjournal (by rw [hdiagnostics, List.append_nil]) hes (by simp)

theorem turns_note (ds : List Diagnostic) (hnesting : u.nesting = t.nesting)
    (hjournal : u.journal = t.journal) (hdiagnostics : u.diagnostics = t.diagnostics ++ ds)
    (hds : ∀ d ∈ ds, d.span.In source ∧ d.kind.isStructural = false) : Turns g source t u :=
  turns_quiet [] ds hnesting hjournal hdiagnostics (by simp) hds

/-- What every turn keeps, a sequence of turns keeps. -/
theorem Turns.invariant {P : Track → Prop} (hturn : ∀ t u, P t → Turn g source t u → P u)
    (h : Turns g source t u) (ht : P t) : P u := by
  induction h with
  | refl => exact ht
  | tail _ hu ih => exact hturn _ _ ih hu

end Track

namespace Pass

open Track

variable {s : Setup} {g : Grammar} {source : List Char} {p q : Pass} {t : Token}

/-- The track of a pass. -/
def track (p : Pass) : Track := ⟨p.nesting, p.journal, p.diagnostics⟩

/-- The positions that a pass remembers are in the text. -/
structure Placed (source : List Char) (p : Pass) : Prop where
  lastEnd : p.lastEnd.In source
  comment : ∀ c, p.mode = .tags c → c.span.In source ∧ ∀ l ∈ c.lines, l.In source

theorem placed_of_settled (h : p.lastEnd.In source) (hp : p.Settled) : p.Placed source :=
  ⟨h, fun c hc ↦ absurd hc (hp c)⟩

/-! ## Tokens -/

theorem literalNotes_in (h : p.cursor.In source) (d : StringDelimiter) :
    ∀ e ∈ p.literalNotes d, e.span.In source ∧ e.kind.isStructural = false := by
  intro e he
  obtain ⟨hkind, hspan⟩ := of_mem_literalNotes he
  rw [hkind, hspan]
  exact ⟨h.span_in _, rfl⟩

theorem literal_turns (h : p.cursor.In source) (i : Nat) :
    Turns g source p.track (p.literal g i).track := by
  rw [literal_eq]
  exact turns_note _ rfl rfl rfl (literalNotes_in h _)

theorem leaving_in {stop last : Position} (hstop : stop.In source) (hlast : last.In source)
    (cs : List Context) :
    ∀ e ∈ cs.flatMap (Context.leaving stop last), e.In source ∧ e.isBracket = false := by
  intro e he
  obtain ⟨c, -, he⟩ := List.mem_flatMap.mp he
  obtain rfl | rfl := Context.eq_of_mem_leaving he
  · exact ⟨hstop, rfl⟩
  · exact ⟨hlast, rfl⟩

theorem closeEvents_in (h : p.cursor.In source) (hlast : p.lastEnd.In source) (i k : Nat)
    (closed : Context) :
    ∀ e ∈ p.closeEvents g i k closed, e.In source ∧ e.isBracket = false := by
  intro e he
  obtain rfl | rfl | rfl | rfl := of_mem_closeEvents he
  · exact ⟨h.position_in, rfl⟩
  · exact ⟨hlast, rfl⟩
  · exact ⟨(h.consume _).position_in, rfl⟩
  · exact ⟨trivial, rfl⟩

theorem closeBlock_turns {i : Nat} (h : p.cursor.In source) (hlast : p.lastEnd.In source)
    (hi : g.blockClose? p.cursor = some i) :
    Turns g source p.track (p.closeBlock g i).track := by
  obtain ⟨hpair, -, -⟩ := List.findIdx?_eq_some_iff_getElem.mp hi
  have hcloser := (Cursor.startsWith_iff.mp (Grammar.startsWith_of_blockClose? hi)).2
  rcases p.closeBlock_cases g i with ⟨hover, heq⟩ | ⟨hover, hnone, heq⟩ |
    ⟨hover, inner, closed, outer, hsplit, hcloses, hinner, heq⟩
  · rw [heq]
    exact (Turn.closedDeep (t := p.track) hpair h.position_in hover).turns
  · have hafter : p.cursor.position.after (g.pair i).closer =
        (p.cursor.consume (g.pair i).closer.length).position := by
      rw [Cursor.consume_position, ← List.prefix_iff_eq_take.mp hcloser]
    have hturn := Turn.closedStray (t := p.track) hpair h.position_in
      (hafter ▸ (h.consume _).position_in) hover hnone
    rw [heq, strayClose_eq]
    rw [Diagnostic.stray, hafter] at hturn
    exact hturn.turns
  · have hturn := Turn.closed (t := p.track) hpair h.position_in hover hsplit hcloses hinner
    have htake : p.nesting.contexts.take inner.length = inner := by simp [hsplit]
    have hdrop : p.nesting.contexts.drop (inner.length + 1) = outer := by simp [hsplit]
    rw [heq, closeThrough_eq]
    refine hturn.turns.trans (turns_send _ ?_ rfl ?_ (closeEvents_in (p := p) h hlast i
      inner.length closed))
    · simp [track, within, Track.send, Track.note, send, note, hdrop]
    · simp [track, within, Track.send, Track.note, send, note, closeNotes, htake]

theorem openBlock_turns {i : Nat} (h : p.cursor.In source)
    (hi : g.blockOpen? p.cursor = some i) :
    Turns g source p.track (p.openBlock g i).track := by
  obtain ⟨hpair, -, -⟩ := List.findIdx?_eq_some_iff_getElem.mp hi
  cases ho : p.nesting.opening with
  | overflowed first =>
    rw [openBlock_of_overflowed ho]
    exact (Turn.openedDeep (t := p.track) hpair h.position_in ho).turns
  | entered =>
    cases hb : p.opensBody g i with
    | false =>
      rw [openBlock_of_block ho i hb]
      exact (Turn.opened (t := p.track) hpair h.position_in ho (.inl rfl)).turns
    | true =>
      have hbody : g.isBodyPair i = true := by
        simp only [opensBody, Bool.and_eq_true] at hb
        exact hb.1.1
      rw [openBlock_of_body ho i hb]
      refine (Turn.opened (t := p.track) hpair h.position_in ho
        (.inr ⟨rfl, hbody⟩)).turns.trans ?_
      exact turns_send [.bodyEntered p.cursor.position] rfl rfl rfl
        (List.forall_mem_singleton.mpr ⟨h.position_in, rfl⟩)

theorem openIndentBody_turns {opener : List Char} (h : p.cursor.In source)
    (ho : p.bodyOpener? g = some opener) :
    Turns g source p.track (p.openIndentBody opener).track := by
  have hindents : g.indents = true := Grammar.indents_of_bodyOpener? (bodyOpener?_eq_some ho).2
  rcases p.openIndentBody_cases opener with ⟨ds, heq, rfl | ⟨first, rfl⟩⟩ |
    ⟨pending, -, -, hentered, heq⟩
  · rw [heq, note_nil]
    exact .refl _
  · rw [heq]
    exact (Turn.indentedDeep (t := p.track) hindents h.position_in).turns
  · rw [heq]
    have hturn : Turn g source p.track
        (p.track.within (.body p.cursor.position (some pending.indent) :: p.nesting.contexts)) :=
      .indented hindents h.position_in hentered
    refine hturn.turns.trans ?_
    exact turns_send [.bodyEntered p.cursor.position] rfl rfl rfl
      (List.forall_mem_singleton.mpr ⟨h.position_in, rfl⟩)

theorem take_turns (ht : p.Ahead g t) (h : p.cursor.In source) (hlast : p.lastEnd.In source) :
    Turns g source p.track (p.take g t).track := by
  cases ht with
  | literal comment found => exact literal_turns (p := { p with statementStart := false }) h _
  | closer comment string regex found => exact closeBlock_turns h hlast found
  | opener comment string regex closer found => exact openBlock_turns h found
  | indentation unmarked found => exact openIndentBody_turns h found
  | separator unmarked body found =>
    rw [take, separator, cancelBody_eq]
    exact .refl _
  | anchor unmarked body separator starts found =>
    rename_i r
    have hanchor := (Grammar.reads_recognise? found).anchor_in h
    exact turns_send [.anchor ⟨r.kind, String.ofList r.name,
        (p.cursor.consume (r.headerLength p.cursor.ahead)).spanFrom p.cursor.position⟩
        p.nesting.depth] rfl rfl rfl (List.forall_mem_singleton.mpr ⟨hanchor, rfl⟩)
  | plain unmarked body separator starts header =>
    rw [take, cancelBody_eq]
    exact .refl _
  | comment found => exact .refl _
  | regex comment string found => exact .refl _
  | inner unmarked body separator goesOn => exact .refl _

/-- The bodies that a line leaves end one by one. -/
theorem leaveBodies_turns (hindents : g.indents = true) (indent : Nat) (cs : List Context)
    (p : Pass) (hlast : p.lastEnd.In source) (hcs : p.nesting.contexts = cs) :
    Turns g source p.track (leaveBodies indent cs p).track := by
  fun_induction leaveBodies indent cs p with
  | case1 => exact .refl _
  | case2 opened level outer p hlt q ih =>
    have hleft : Turn g source p.track (p.track.within outer) :=
      .left hindents (show _ = [.body opened (some level)] ++ outer from hcs)
    have hquiet : Turns g source (p.track.within outer)
        ((q.emit (.bodyLeft q.lastEnd)).emit (.blockClosed outer.length)).track := by
      refine turns_send [.bodyLeft p.lastEnd, .blockClosed outer.length] rfl rfl rfl ?_
      intro e he
      simp only [List.mem_cons, List.not_mem_nil, or_false] at he
      rcases he with rfl | rfl
      · exact ⟨hlast, rfl⟩
      · exact ⟨trivial, rfl⟩
    exact (hleft.turns.trans hquiet).trans (ih hlast rfl)
  | case3 => exact .refl _

theorem dedent_turns (hlast : p.lastEnd.In source) :
    Turns g source p.track (p.dedent g).track := by
  unfold dedent
  split
  · rename_i hindents
    rw [dropStaleBody_eq]
    exact leaveBodies_turns hindents _ _ p hlast rfl
  · exact .refl _

theorem atToken_turns (hlast : p.lastEnd.In source) :
    Turns g source p.track (p.atToken g).track := by
  unfold atToken
  split
  · exact dedent_turns (p := { p with lineStart := false }) hlast
  · exact .refl _

/-- A comment is read before its tags are placed. -/
theorem Settled.take (h : p.Settled) (g : Grammar) (t : Token) : (p.take g t).Settled := by
  intro c
  rw [take_mode]
  cases t with
  | comment form | plain | inner => simp
  | _ => exact h c

/-! ## Steps -/

theorem skip_mode (p : Pass) (s : Setup) : (p.skip s).mode = .code := rfl

theorem skip_turns (h : p.cursor.In source) :
    Turns s.grammar source p.track (p.skip s).track ∧ (p.skip s).lastEnd.In source := by
  obtain ⟨q, ⟨-, hturns, hlast⟩, hskip⟩ := skip_induction
    (P := fun q : Pass ↦ q.cursor.In source ∧ Turns s.grammar source p.track q.track ∧
      q.lastEnd.In source)
    s ⟨h.consume _, .refl _, (h.consume _).position_in⟩ fun q r ⟨hq, hturns, hlast⟩ hqr ↦ by
      cases hqr with
      | literal peek goesOn found =>
        rename_i i
        have hliteral := literal_turns (g := s.grammar) hq i
        rw [literal_eq] at hliteral ⊢
        exact ⟨hq.consume _, hturns.trans hliteral, (hq.consume _).position_in⟩
      | regex peek goesOn string found =>
        exact ⟨hq.consume _, hturns, (hq.consume _).position_in⟩
      | blank peek goesOn string regex blank => exact ⟨hq.consume _, hturns, hlast⟩
      | char peek goesOn string regex blank =>
        exact ⟨hq.consume _, hturns, (hq.consume _).position_in⟩
  rw [hskip]
  exact ⟨hturns, hlast⟩

/-- Only a comment that is read leaves tags to be placed. -/
theorem eq_readComment_of_tags (h : step s p = some q) {c : Comment} (hc : q.mode = .tags c) :
    ∃ form, p.mode = .comment form ∧ q = p.readComment s.grammar form := by
  cases step_eq_some_iff.mp h with
  | comment mode => exact ⟨_, mode, rfl⟩
  | tags mode =>
    rw [placeTags_eq] at hc
    cases hc
  | newline mode peek => exact absurd hc ((settled_of_mode mode (by simp)).take _ _ c)
  | blank mode peek inline blank => exact absurd hc ((settled_of_mode mode (by simp)).take _ _ c)
  | token mode peek blank ahead =>
    have hp : (p.atToken s.grammar).Settled :=
      settled_of_mode ((p.atToken_mode _).trans mode) (by simp)
    exact absurd hc (hp.take _ _ c)
  | skip mode peek => cases hc

theorem blockNotes_in (h : p.cursor.In source) (opener closer : List Char) :
    ∀ d ∈ p.blockNotes opener closer, d.span.In source ∧ d.kind.isStructural = false := by
  intro d hd
  obtain ⟨hkind, hspan⟩ := of_mem_blockNotes hd
  rw [hkind, hspan]
  exact ⟨h.span_in _, rfl⟩

theorem readComment_turns (form : CommentForm) (h : p.cursor.In source) :
    Turns g source p.track (p.readComment g form).track ∧
      (p.readComment g form).Placed source := by
  cases form with
  | line i =>
    obtain ⟨⟨k, hk⟩, -⟩ := p.cursor.lineComments_spec (g.lineComment i)
    have hspan : ((p.cursor.lineComments (g.lineComment i)).2.spanFrom p.cursor.position).In
        source := by
      rw [hk]
      exact h.span_in k
    have hlines := Cursor.in_lineComments h (g.lineComment i)
    obtain ⟨_, _, _, hread, -⟩ := p.readComment_line_eq g i
    rw [hread]
    refine ⟨.refl _, hspan.2, ?_⟩
    intro c hc
    cases hc
    exact ⟨hspan, hlines⟩
  | block i =>
    have hcontent := blockContent_prefix (g.blockComment i).2
      (p.cursor.consume (g.blockComment i).1.length).ahead
    have hopened := h.consume (g.blockComment i).1.length
    rw [readComment, blockComment_eq]
    refine ⟨turns_note _ rfl rfl rfl (blockNotes_in h _ _),
      (h.consume _).position_in, ?_⟩
    intro c hc
    cases hc
    refine ⟨h.span_in _, ?_⟩
    have hlines := Comment.in_blockLines (hopened.prefix_of_prefix hcontent)
    rwa [← hopened.2] at hlines

theorem placeTags_turns {c : Comment} (registry : Registry) (hspan : c.span.In source)
    (hlines : ∀ l ∈ c.lines, l.In source) :
    Turns g source p.track (p.placeTags registry c).track := by
  rw [placeTags_eq]
  refine turns_quiet _ _ rfl rfl rfl ?_ ?_
  · intro e he
    rw [eq_of_mem_commentEvents he]
    refine ⟨⟨?_, hspan⟩, rfl⟩
    intro t ht
    obtain ⟨u, hu, rfl⟩ := List.mem_map.mp ht
    exact (Comment.tags_in hlines hu).1
  · intro d hd
    obtain ⟨u, hu, hd⟩ := List.mem_flatMap.mp hd
    obtain ⟨t, -, -, hds⟩ := Comment.mem_tagsAfter hu
    exact ⟨(Comment.tags_in hlines hu).2 d hd,
      DiagnosticKind.isStructural_of_isRecovery (hds d hd).2⟩

/-- Every step of a scan is a sequence of turns, and what it remembers stays in the text. -/
theorem step_turns (h : p.Regular s.grammar source) (hp : p.Placed source)
    (hstep : step s p = some q) :
    Turns s.grammar source p.track q.track ∧ q.Placed source := by
  have hnext := (step_moves h hstep).2.cursor
  cases step_eq_some_iff.mp hstep with
  | comment mode => exact readComment_turns _ h.cursor
  | tags mode =>
    obtain ⟨hspan, hlines⟩ := hp.comment _ mode
    refine ⟨placeTags_turns s.registry hspan hlines, ?_⟩
    rw [placeTags_eq]
    exact placed_of_settled hp.lastEnd (settled_of_mode rfl (by simp))
  | newline mode peek =>
    have hsettled : p.Settled := settled_of_mode mode (by simp)
    rw [take, afterNewline_eq]
    exact ⟨.refl _, placed_of_settled hp.lastEnd hsettled⟩
  | blank mode peek inline blank =>
    have hsettled : p.Settled := settled_of_mode mode (by simp)
    exact ⟨.refl _, placed_of_settled hp.lastEnd hsettled⟩
  | token mode peek blank ahead =>
    have hsettled : (p.atToken s.grammar).Settled :=
      settled_of_mode ((p.atToken_mode _).trans mode) (by simp)
    refine ⟨(atToken_turns hp.lastEnd).trans (take_turns ahead ?_ ?_),
      placed_of_settled hnext.position_in (hsettled.take _ _)⟩
    · rw [atToken_cursor]
      exact h.cursor
    · rw [atToken_lastEnd]
      exact hp.lastEnd
  | skip mode peek =>
    obtain ⟨hturns, hlast⟩ := skip_turns (s := s) h.cursor
    exact ⟨hturns, placed_of_settled hlast (settled_of_mode (p.skip_mode s) (by simp))⟩

/-- Every pass that a scan reaches has been turned to, and remembers positions in the text. -/
theorem reaches_turns (h : Reaches (step s) (start s source) p) :
    Turns s.grammar source (start s source).track p.track ∧ p.Placed source := by
  have hboth : p.Regular s.grammar source ∧
      Turns s.grammar source (start s source).track p.track ∧ p.Placed source := by
    refine h.invariant (P := fun p : Pass ↦ p.Regular s.grammar source ∧
      Turns s.grammar source (start s source).track p.track ∧ p.Placed source) ?_ ?_
    · rintro p q ⟨hreg, hturns, hplaced⟩ hpq
      obtain ⟨hturns', hplaced'⟩ := step_turns hreg hplaced hpq
      exact ⟨(step_moves hreg hpq).2, hturns.trans hturns', hplaced'⟩
    · exact ⟨regular_start s source, .refl _, Position.in_start source, fun c hc ↦ by cases hc⟩
  exact hboth.2

end Pass

/-! ## What all turns keep -/

theorem Nesting.opening_eq_entered_iff {n : Nesting} :
    n.opening = .entered ↔ n.overflow = 0 ∧ n.contexts.length < n.limit := by
  unfold opening depth
  split
  · simp only [reduceCtorEq, false_iff]
    omega
  · simp only [true_iff]
    omega

/-- What holds of the tracks of a scan: no more contexts than the limit allows are open, all of
them brackets of the grammar or bodies, and whatever has been sent or reported is in the text. -/
structure Track.Proper (g : Grammar) (source : List Char) (most : Nat) (t : Track) : Prop where
  limit : t.nesting.limit = most
  depth : t.nesting.contexts.length ≤ most
  pairs : ∀ i opened, .block i opened ∈ t.nesting.contexts → i < g.blocks.length
  contexts : ∀ c ∈ t.nesting.contexts, c.opened.In source
  events : ∀ e ∈ t.journal, e.In source
  reports : ∀ d ∈ t.diagnostics, d.span.In source

namespace Track

variable {g : Grammar} {source : List Char} {most : Nat} {t u : Track}

theorem unwindNotes_in {c : Context} {stop : Position} (hc : c.opened.In source)
    (hstop : stop.In source) (closer : Option (List Char)) :
    ∀ d ∈ c.unwindNotes g stop closer, d.span.In source := by
  intro d hd
  rw [(Context.of_mem_unwindNotes hd).2]
  exact ⟨hc, hstop⟩

theorem Proper.send (h : t.Proper g source most) {e : Event} (he : e.In source) :
    (t.send e).Proper g source most := by
  refine ⟨h.limit, h.depth, h.pairs, h.contexts, ?_, h.reports⟩
  intro f hf
  rcases List.mem_cons.mp hf with rfl | hf
  · exact he
  · exact h.events f hf

theorem Proper.note (h : t.Proper g source most) {ds : List Diagnostic}
    (hds : ∀ d ∈ ds, d.span.In source) : (t.note ds).Proper g source most := by
  refine ⟨h.limit, h.depth, h.pairs, h.contexts, h.events, ?_⟩
  intro d hd
  rcases List.mem_append.mp hd with hd | hd
  · exact h.reports d hd
  · exact hds d hd

theorem Proper.of_overflow (h : t.Proper g source most) (n : Nat) :
    Proper g source most { t with nesting := { t.nesting with overflow := n } } :=
  ⟨h.limit, h.depth, h.pairs, h.contexts, h.events, h.reports⟩

/-- A context that opens within the limit. -/
theorem Proper.push (h : t.Proper g source most) {c : Context}
    (hentered : t.nesting.opening = .entered) (hc : c.opened.In source)
    (hpair : ∀ i opened, c = .block i opened → i < g.blocks.length) :
    (t.within (c :: t.nesting.contexts)).Proper g source most := by
  have hdepth := (Nesting.opening_eq_entered_iff.mp hentered).2
  rw [h.limit] at hdepth
  refine ⟨h.limit, hdepth, ?_, ?_, h.events, h.reports⟩
  · intro i opened hi
    rcases List.mem_cons.mp hi with hi | hi
    · exact hpair i opened hi.symm
    · exact h.pairs i opened hi
  · intro d hd
    rcases List.mem_cons.mp hd with rfl | hd
    · exact hc
    · exact h.contexts d hd

theorem Proper.pop (h : t.Proper g source most) {outer : List Context}
    (houter : outer <:+ t.nesting.contexts) : (t.within outer).Proper g source most :=
  ⟨h.limit, houter.length_le.trans h.depth, fun i opened hi ↦ h.pairs i opened (houter.subset hi),
    fun c hc ↦ h.contexts c (houter.subset hc), h.events, h.reports⟩

theorem tooDeep_in {position : Position} (h : position.In source) (first : Bool) (n : Nat) :
    ∀ d ∈ if first then [Diagnostic.tooDeep n position] else [], d.span.In source := by
  intro d hd
  split at hd
  · rw [List.mem_singleton.mp hd]
    exact Span.in_point h
  · cases hd

theorem Turn.proper (ht : t.Proper g source most) (h : Turn g source t u) :
    u.Proper g source most := by
  cases h with
  | quiet events reports =>
    have hnote := ht.note fun d hd ↦ (reports d hd).1
    refine ⟨hnote.limit, hnote.depth, hnote.pairs, hnote.contexts, ?_, hnote.reports⟩
    intro e he
    rcases List.mem_append.mp he with he | he
    · exact (events e (List.mem_reverse.mp he)).1
    · exact ht.events e he
  | opened pair place entered context =>
    refine (ht.push entered ?_ ?_).send (e := .bracketOpened _ _) place
    · rcases context with rfl | ⟨rfl, -⟩ <;> exact place
    · intro j opened hj
      rcases context with rfl | ⟨rfl, -⟩
      · cases hj
        exact pair
      · cases hj
  | openedDeep pair place overflowed =>
    exact ((ht.send (e := .bracketOpened _ _) place).note (tooDeep_in place _ _)).of_overflow _
  | closedDeep pair place overflows => exact (ht.send (e := .bracketClosed _ _) place).of_overflow _
  | closedStray pair place after overflow none =>
    refine (ht.send (e := .bracketClosed _ _) place).note ?_
    intro d hd
    rw [List.mem_singleton.mp hd]
    exact ⟨place, after⟩
  | closed pair place overflow split closes innermost =>
    refine ((ht.pop ⟨_, by rw [split, List.append_cons]⟩).send (e := .bracketClosed _ _) place).note ?_
    intro d hd
    obtain ⟨c, hc, hd⟩ := List.mem_flatMap.mp hd
    exact unwindNotes_in (ht.contexts c (by rw [split]; exact List.mem_append_left _ hc)) place _
      d hd
  | indented indents place entered =>
    exact ht.push entered place fun i opened hi ↦ by cases hi
  | indentedDeep indents place => exact ht.note (tooDeep_in place _ _)
  | left indents split => exact ht.pop ⟨_, split.symm⟩

end Track

namespace Pass

variable {s : Setup} {source : List Char} {p : Pass}

/-- The tracks of all passes that a scan reaches are proper ones. -/
theorem proper_of_reaches (h : Reaches (step s) (start s source) p) :
    p.track.Proper s.grammar source s.options.maxDepth := by
  refine (reaches_turns h).1.invariant (P := Track.Proper s.grammar source s.options.maxDepth)
    (fun _ _ ht hturn ↦ hturn.proper ht) ?_
  exact ⟨rfl, Nat.zero_le _, by simp [track, start], by simp [track, start],
    by simp [track, start], by simp [track, start]⟩

/-- The limit on open contexts never changes. -/
theorem limit_of_reaches (h : Reaches (step s) (start s source) p) :
    p.nesting.limit = s.options.maxDepth :=
  (proper_of_reaches h).limit

end Pass

end Marginalia
