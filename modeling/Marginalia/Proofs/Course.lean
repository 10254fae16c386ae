import Marginalia.Proofs.Progress
import Marginalia.Proofs.TagPlaces

/-!
# The course of a scan

The outline depends on little of a pass: the open contexts, the wait for a body, and how far the
pass has come. A course keeps only that. It changes by a few moves, and every step of a scan is a
sequence of moves, whatever the grammar and the text; so what every move keeps, every scan keeps.
-/

namespace Marginalia

/-- An offset where a character of a text starts, or where the text ends. -/
def Text.IsPlace (source : List Char) (offset : Nat) : Prop :=
  ∃ pre post, source = pre ++ post ∧ Text.byteSize pre = offset

/-- Whether an event is a bracket, which leaves the outline alone. -/
def Event.isBracket : Event → Bool
  | .bracketOpened _ _ | .bracketClosed _ _ => true
  | .comment _ _ _ | .anchor _ _ | .bodyEntered _ | .bodyLeft _ | .blockClosed _ => false

theorem forall_isBracket_nil : ∀ e ∈ ([] : List Event), e.isBracket = true := by simp

/-- The events of contexts that close, with the bodies among them ending at the given places. -/
def Event.closing (stops : List Position) (depth : Nat) : List Event :=
  stops.map .bodyLeft ++ [.blockClosed depth]

/-- What of a pass the outline depends on. -/
structure Course where
  contexts : List Context
  assembly : Assembly
  journal : List Event
  /-- The depth of the anchor that waits for its body. -/
  awaits : Option Nat
  /-- The offset up to which the text has been dealt with. -/
  clock : Nat

namespace Course

variable {source : List Char} {c d e : Course}

/-- Send events to the outline. -/
def send (c : Course) (es : List Event) : Course :=
  { c with assembly := c.assembly.replay es, journal := es.reverse ++ c.journal }

/-- A change of a course. -/
inductive Move (source : List Char) : Course → Course → Prop
  /-- Nothing that matters to the outline, except that a wait for a body may end. -/
  | idle {c : Course} {es : List Event} {awaits : Option Nat} {clock : Nat}
      (brackets : ∀ e ∈ es, e.isBracket = true)
      (waits : awaits = c.awaits ∨ awaits = none)
      (later : c.clock ≤ clock) :
      Move source c { c.send es with awaits, clock }
  /-- A comment with tags. -/
  | comment {c : Course} {tags : List Tag} {span : Span}
      (later : c.clock ≤ span.start.offset)
      (ordered : span.start.offset ≤ span.stop.offset)
      (inside : ∀ t ∈ tags, t.resolved = false ∧ span.start.offset ≤ t.span.start.offset ∧
        t.span.start.offset < span.stop.offset)
      (place : Text.IsPlace source span.stop.offset) :
      Move source c
        { c.send [.comment tags span c.contexts.length] with clock := span.stop.offset }
  /-- An anchor, which waits for its body from then on. -/
  | anchor {c : Course} {anchor : Anchor}
      (later : c.clock ≤ anchor.span.start.offset)
      (ordered : anchor.span.start.offset ≤ anchor.span.stop.offset)
      (kinds : c.assembly.enclosingKind? = some .classDecl → anchor.kind ≠ .functionDecl)
      (place : Text.IsPlace source anchor.span.start.offset) :
      Move source c
        { c.send [.anchor anchor c.contexts.length] with
          awaits := some c.contexts.length, clock := anchor.span.stop.offset }
  /-- A block opens. -/
  | openBlock {c : Course} {pair : Nat} {opened : Position}
      (later : c.clock ≤ opened.offset)
      (fresh : ∀ depth, c.awaits = some depth → depth ≤ c.contexts.length) :
      Move source c
        { c with contexts := .block pair opened :: c.contexts, clock := opened.offset }
  /-- The body of the anchor that waits for it opens. -/
  | enterBody {c : Course} {opened : Position} {indent : Option Nat}
      (later : c.clock ≤ opened.offset)
      (waits : c.awaits = some c.contexts.length)
      (ready : c.assembly.canEnterBody = true) :
      Move source c
        { c.send [.bodyEntered opened] with
          contexts := .body opened indent :: c.contexts, awaits := none, clock := opened.offset }
  /-- The innermost contexts close. -/
  | close {c : Course} {inner outer : List Context} {stops : List Position}
      {awaits : Option Nat} {clock : Nat}
      (split : c.contexts = inner ++ outer)
      (each : stops.length = inner.countP Context.isBody)
      (ordered : stops.Pairwise fun p q ↦ p.offset ≤ q.offset)
      (between : ∀ p ∈ stops, c.clock ≤ p.offset ∧ p.offset ≤ clock)
      (later : c.clock ≤ clock)
      (waits : awaits = c.awaits ∨ awaits = none) :
      Move source c
        { c.send (Event.closing stops outer.length) with
          contexts := outer, awaits, clock }

/-- A sequence of moves. -/
def Moves (source : List Char) : Course → Course → Prop := Relation.ReflTransGen (Move source)

theorem Moves.refl (c : Course) : Moves source c c := Relation.ReflTransGen.refl

theorem Moves.trans (h : Moves source c d) (h' : Moves source d e) : Moves source c e :=
  Relation.ReflTransGen.trans h h'

theorem Move.moves (h : Move source c d) : Moves source c d := Relation.ReflTransGen.single h

/-- A course that has come further has made an idle move. -/
theorem moves_of_later (h : d = { c with clock := d.clock }) (hlater : c.clock ≤ d.clock) :
    Moves source c d := by
  have hmove : Move source c { c.send [] with awaits := c.awaits, clock := d.clock } :=
    .idle (by simp) (.inl rfl) hlater
  rw [h]
  exact hmove.moves

/-- What every move keeps, a sequence of moves keeps. -/
theorem Moves.invariant {P : Course → Prop} (hmove : ∀ c d, P c → Move source c d → P d)
    (h : Moves source c d) (hc : P c) : P d := by
  induction h with
  | refl => exact hc
  | tail _ hde ih => exact hmove _ _ ih hde

end Course

/-! ## Regular passes -/

/-- The cursor stands in a text and knows its position. -/
def Cursor.In (source : List Char) (c : Cursor) : Prop :=
  c.text = source ∧ c.position = Position.start.after c.behind.reverse

namespace Cursor.In

variable {source : List Char} {c : Cursor}

theorem ofText (source : List Char) : (Cursor.ofText source).In source := ⟨rfl, rfl⟩

theorem consume (h : c.In source) (k : Nat) : (c.consume k).In source := by
  refine ⟨by rw [Cursor.consume_text, h.1], ?_⟩
  simp [Cursor.consume, h.2, Position.after_append]

theorem isPlace (h : c.In source) : Text.IsPlace source c.position.offset := by
  refine ⟨c.behind.reverse, c.ahead, h.1.symm, ?_⟩
  rw [h.2, Position.after_offset]
  exact (Nat.zero_add _).symm

/-- A cursor with nothing ahead stands at the end of the text. -/
theorem position_of_end (h : c.In source) (hend : c.ahead = []) :
    c.position = Position.start.after source := by
  have htext := h.1
  rw [Cursor.text, hend, List.append_nil] at htext
  rw [h.2, htext]

end Cursor.In

/-- A context that scans open: brackets, and bodies of the kind that the grammar has. -/
def Context.Usual (g : Grammar) : Context → Prop
  | .block _ _ => True
  | .body _ indent => indent.isSome = g.indents
  | .literal _ _ | .comment _ => False

namespace Pass

variable {s : Setup} {g : Grammar} {source : List Char} {p q : Pass} {t : Token}

/-- The offset up to which a pass has dealt with its text. A comment that has been read is still to
be dealt with. -/
def clock (p : Pass) : Nat :=
  match p.mode with
  | .tags c => c.span.start.offset
  | .code | .comment _ | .skip => p.lastEnd.offset

/-- The course of a pass. -/
def course (p : Pass) : Course where
  contexts := p.nesting.contexts
  assembly := p.assembly
  journal := p.journal
  awaits := p.pendingBody.map (·.depth)
  clock := p.clock

/-- The pass is not in between the reading of a comment and its tags. -/
def Settled (p : Pass) : Prop := ∀ c, p.mode ≠ .tags c

theorem Settled.clock (h : p.Settled) : p.clock = p.lastEnd.offset := by
  unfold Pass.clock
  split
  · rename_i c hc
    exact absurd hc (h c)
  all_goals rfl

/-- What holds of every pass that a scan reaches. -/
structure Regular (g : Grammar) (source : List Char) (p : Pass) : Prop where
  cursor : p.cursor.In source
  lastEnd : p.lastEnd.offset ≤ p.cursor.position.offset
  pending : ∀ b, p.pendingBody = some b → b.depth ≤ p.nesting.contexts.length
  contexts : ∀ c ∈ p.nesting.contexts, c.Usual g
  comment : ∀ c, p.mode = .tags c → c.span.start.offset ≤ c.span.stop.offset ∧
    p.lastEnd = c.span.stop ∧ p.cursor.position = c.span.stop ∧
    ∀ l ∈ c.lines, l.Within c.span.start.offset c.span.stop.offset

theorem regular_start (s : Setup) (source : List Char) :
    (start s source).Regular s.grammar source where
  cursor := .ofText source
  lastEnd := Nat.le_refl _
  pending b hb := by cases hb
  contexts c hc := by cases hc
  comment c hc := by cases hc

/-- A pass that has consumed text stays regular as long as its contexts are usual ones. -/
theorem Regular.of_consume (h : p.Regular g source) {k : Nat}
    (hcursor : q.cursor = p.cursor.consume k)
    (hlast : q.lastEnd = p.lastEnd ∨ q.lastEnd = q.cursor.position)
    (hpending : ∀ b, q.pendingBody = some b → b.depth ≤ q.nesting.contexts.length)
    (hcontexts : ∀ c ∈ q.nesting.contexts, c.Usual g) (hmode : q.Settled) :
    q.Regular g source where
  cursor := by rw [hcursor]; exact h.cursor.consume k
  lastEnd := by
    rcases hlast with hl | hl
    · rw [hl, hcursor]
      exact h.lastEnd.trans (Cursor.offset_le_consume _ _)
    · rw [hl]
  pending := hpending
  contexts := hcontexts
  comment c hc := absurd hc (hmode c)

theorem awaits_of_pending (h : q.pendingBody = p.pendingBody ∨ q.pendingBody = none) :
    q.course.awaits = p.course.awaits ∨ q.course.awaits = none := by
  rcases h with h | h
  · exact .inl (by simp only [course, h])
  · exact .inr (by simp only [course, h, Option.map_none])

/-- A pass that has only sent brackets and come further has made an idle move. -/
theorem moves_idle {es : List Event} (hes : ∀ e ∈ es, e.isBracket = true)
    (hcontexts : q.nesting.contexts = p.nesting.contexts)
    (hassembly : q.assembly = p.assembly.replay es) (hjournal : q.journal = es.reverse ++ p.journal)
    (hpending : q.pendingBody = p.pendingBody ∨ q.pendingBody = none)
    (hclock : p.clock ≤ q.clock) : Course.Moves source p.course q.course := by
  have hmove : Course.Move source p.course
      { p.course.send es with awaits := q.course.awaits, clock := q.clock } :=
    .idle hes (awaits_of_pending hpending) hclock
  have heq : q.course = { p.course.send es with awaits := q.course.awaits, clock := q.clock } := by
    simp only [course, Course.send, hcontexts, hassembly, hjournal]
  rw [heq]
  exact hmove.moves

/-- A pass that has closed contexts, the bodies among them at the given places, has made a closing
move. -/
theorem moves_close (inner outer : List Context) (stops : List Position)
    (hsplit : p.nesting.contexts = inner ++ outer)
    (heach : stops.length = inner.countP Context.isBody)
    (hordered : stops.Pairwise fun x y ↦ x.offset ≤ y.offset)
    (hbetween : ∀ x ∈ stops, p.clock ≤ x.offset ∧ x.offset ≤ q.clock)
    (hcontexts : q.nesting.contexts = outer)
    (hassembly : q.assembly = p.assembly.replay (Event.closing stops outer.length))
    (hjournal : q.journal = (Event.closing stops outer.length).reverse ++ p.journal)
    (hpending : q.pendingBody = p.pendingBody ∨ q.pendingBody = none)
    (hclock : p.clock ≤ q.clock) : Course.Moves source p.course q.course := by
  have hmove : Course.Move source p.course
      { p.course.send (Event.closing stops outer.length) with
        contexts := outer, awaits := q.course.awaits, clock := q.clock } :=
    .close hsplit heach hordered hbetween hclock (awaits_of_pending hpending)
  have heq : q.course = { p.course.send (Event.closing stops outer.length) with
      contexts := outer, awaits := q.course.awaits, clock := q.clock } := by
    simp only [course, Course.send, hcontexts, hassembly, hjournal]
  rw [heq]
  exact hmove.moves

/-! ## Tokens -/

theorem settled_of_mode {mode : Mode} (h : p.mode = mode) (hm : ∀ c, mode ≠ .tags c) :
    p.Settled := by
  intro c
  rw [h]
  exact hm c

theorem Regular.clock_le (h : p.Regular g source) (hp : p.Settled) :
    p.clock ≤ p.cursor.position.offset := by
  rw [hp.clock]
  exact h.lastEnd

theorem clock_markEnd (hp : p.Settled) : p.markEnd.clock = p.cursor.position.offset :=
  Settled.clock (p := p.markEnd) hp

/-- Tokens that send nothing but brackets are idle moves. -/
theorem token_idle {es : List Event} {k : Nat} (h : p.Regular g source) (hp : p.Settled)
    (hes : ∀ e ∈ es, e.isBracket = true) (hcursor : q.cursor = p.cursor.consume k)
    (hcontexts : q.nesting.contexts = p.nesting.contexts)
    (hassembly : q.assembly = p.assembly.replay es) (hjournal : q.journal = es.reverse ++ p.journal)
    (hpending : q.pendingBody = p.pendingBody ∨ q.pendingBody = none) (hq : q.Settled) :
    Course.Moves source p.course q.markEnd.course ∧ q.markEnd.Regular g source := by
  refine ⟨moves_idle hes hcontexts hassembly hjournal hpending ?_, ?_⟩
  · rw [clock_markEnd hq, hcursor]
    exact (h.clock_le hp).trans (Cursor.offset_le_consume _ _)
  · refine h.of_consume hcursor (.inr rfl) ?_ ?_ hq
    · intro b hb
      rcases hpending with hpb | hpb
      · exact (h.pending b (hpb ▸ hb)).trans_eq (congrArg List.length hcontexts).symm
      · rw [show q.markEnd.pendingBody = none from hpb] at hb
        cases hb
    · intro c hc
      exact h.contexts c (hcontexts ▸ hc)

theorem pending_filter {f : PendingBody → Bool} (h : q.pendingBody = p.pendingBody.filter f) :
    q.pendingBody = p.pendingBody ∨ q.pendingBody = none := by
  rw [h]
  cases p.pendingBody with
  | none => exact .inr rfl
  | some b =>
    cases hb : f b with
    | true => exact .inl (by simp [Option.filter, hb])
    | false => exact .inr (by simp [Option.filter, hb])

/-- The bodies among usual contexts all end at the same place. -/
theorem flatMap_leaving (stop last : Position) {cs : List Context}
    (h : ∀ c ∈ cs, c.Usual g) :
    cs.flatMap (Context.leaving stop last) =
      (List.replicate (cs.countP Context.isBody)
        (if g.indents then last else stop)).map .bodyLeft := by
  induction cs with
  | nil => rfl
  | cons c cs ih =>
    have hrest := ih fun d hd ↦ h d (List.mem_cons_of_mem _ hd)
    have hc := h c List.mem_cons_self
    rw [List.flatMap_cons, hrest]
    rcases c with ⟨i, o⟩ | ⟨o, - | indent⟩ | ⟨i, o⟩ | o
    · simp [Context.leaving, Context.isBody]
    · have hg : g.indents = false := by simpa [Context.Usual] using hc.symm
      rw [List.countP_cons_of_pos rfl]
      simp [Context.leaving, hg, List.replicate_succ]
    · have hg : g.indents = true := by simpa [Context.Usual] using hc.symm
      rw [List.countP_cons_of_pos rfl]
      simp [Context.leaving, hg, List.replicate_succ]
    · exact hc.elim
    · exact hc.elim

/-- Where the bodies end that a closer closes: those inside of the closed context before the closer,
its own after it. -/
def stopsThrough (p : Pass) (g : Grammar) (i : Nat) (inner : List Context) (closed : Context) :
    List Position :=
  List.replicate (inner.countP Context.isBody)
      (if g.indents then p.lastEnd else p.cursor.position) ++
    if closed.isBody then [(p.cursor.consume (g.pair i).closer.length).position] else []

section Stops

variable {i : Nat} {inner outer : List Context} {closed : Context}

theorem length_stopsThrough :
    (p.stopsThrough g i inner closed).length = (inner ++ [closed]).countP Context.isBody := by
  unfold stopsThrough
  cases hc : closed.isBody <;> simp [hc]

theorem closeEvents_eq_closing (h : p.Regular g source)
    (hcs : p.nesting.contexts = inner ++ closed :: outer) :
    p.closeEvents g i inner.length closed =
      Event.closing (p.stopsThrough g i inner closed) outer.length := by
  have htake : p.nesting.contexts.take inner.length = inner := by simp [hcs]
  have hdrop : p.nesting.contexts.drop (inner.length + 1) = outer := by simp [hcs]
  have husual : ∀ c ∈ inner, c.Usual g := fun c hc ↦ h.contexts c (by simp [hcs, hc])
  rw [Event.closing, closeEvents, htake, hdrop, flatMap_leaving _ _ husual, stopsThrough]
  cases closed.isBody <;> simp

/-- The bodies end after the last token before the closer, and not after the closer. -/
theorem between_of_mem_stopsThrough (h : p.Regular g source) {x : Position}
    (hx : x ∈ p.stopsThrough g i inner closed) :
    p.lastEnd.offset ≤ x.offset ∧
      x.offset ≤ (p.cursor.consume (g.pair i).closer.length).position.offset := by
  have hafter := p.cursor.offset_le_consume (g.pair i).closer.length
  have hlast := h.lastEnd
  rcases List.mem_append.mp hx with hx | hx
  · rw [List.eq_of_mem_replicate hx]
    split <;> omega
  · split at hx
    · rw [List.mem_singleton.mp hx]
      omega
    · cases hx

theorem pairwise_stopsThrough (h : p.Regular g source) :
    (p.stopsThrough g i inner closed).Pairwise fun x y ↦ x.offset ≤ y.offset := by
  have hafter := p.cursor.offset_le_consume (g.pair i).closer.length
  have hlast := h.lastEnd
  refine List.pairwise_append.mpr
    ⟨List.pairwise_replicate.mpr (.inr (Nat.le_refl _)), by split <;> simp, ?_⟩
  intro x hx y hy
  rw [List.eq_of_mem_replicate hx]
  split at hy
  · rw [List.mem_singleton.mp hy]
    split <;> omega
  · cases hy

/-- Closing a context together with those inside it is one move. -/
theorem closeThrough_moves (h : p.Regular g source) (hp : p.Settled)
    (hcs : p.nesting.contexts = inner ++ closed :: outer) :
    Course.Moves source p.course (p.closeThrough g i inner.length closed).markEnd.course ∧
      (p.closeThrough g i inner.length closed).markEnd.Regular g source := by
  have hdrop : p.nesting.contexts.drop (inner.length + 1) = outer := by simp [hcs]
  have hfields : ∃ q, p.closeThrough g i inner.length closed = q ∧
      q.cursor = p.cursor.consume (g.pair i).closer.length ∧ q.nesting.contexts = outer ∧
      q.assembly = p.assembly.replay
        (Event.closing (p.stopsThrough g i inner closed) outer.length) ∧
      q.journal =
        (Event.closing (p.stopsThrough g i inner closed) outer.length).reverse ++ p.journal ∧
      q.pendingBody = p.pendingBody.filter (·.depth ≤ outer.length) ∧ q.mode = p.mode := by
    refine ⟨_, rfl, ?_⟩
    rw [closeThrough_eq, ← closeEvents_eq_closing h hcs, ← hdrop]
    exact ⟨rfl, rfl, rfl, rfl, rfl, rfl⟩
  obtain ⟨q, hq, hcursor, hcontexts, hassembly, hjournal, hpending, hmode⟩ := hfields
  rw [hq]
  have hsettled : q.Settled := fun c ↦ hmode ▸ hp c
  have hclock : q.markEnd.clock = (p.cursor.consume (g.pair i).closer.length).position.offset := by
    rw [clock_markEnd hsettled, hcursor]
  refine ⟨moves_close (inner ++ [closed]) outer (p.stopsThrough g i inner closed) (by simp [hcs])
    length_stopsThrough (pairwise_stopsThrough h) ?_ hcontexts hassembly hjournal
    (pending_filter hpending) ?_, ?_⟩
  · rw [hclock, hp.clock]
    exact fun x hx ↦ between_of_mem_stopsThrough h hx
  · rw [hclock, hp.clock]
    exact h.lastEnd.trans (p.cursor.offset_le_consume _)
  · refine h.of_consume hcursor (.inr rfl) ?_ ?_ hsettled
    · intro b hb
      rw [show q.markEnd.nesting.contexts = outer from hcontexts]
      rw [show q.markEnd.pendingBody = _ from hpending] at hb
      exact of_decide_eq_true (Option.filter_eq_some_iff.mp hb).2
    · intro c hc
      rw [show q.markEnd.nesting.contexts = outer from hcontexts] at hc
      exact h.contexts c (by simp [hcs, hc])

end Stops

theorem Regular.send (h : p.Regular g source) (es : List Event) : (p.send es).Regular g source :=
  ⟨h.cursor, h.lastEnd, h.pending, h.contexts, h.comment⟩

theorem closeBlock_moves (i : Nat) (h : p.Regular g source) (hp : p.Settled) :
    Course.Moves source p.course (p.closeBlock g i).markEnd.course ∧
      (p.closeBlock g i).markEnd.Regular g source := by
  have hbracket : ∀ e ∈ [Event.bracketClosed i p.cursor.position], e.isBracket = true := by
    simp [Event.isBracket]
  rcases p.closeBlock_cases g i with ⟨-, heq⟩ | ⟨-, -, heq⟩ | ⟨-, inner, closed, outer, hcs, -, -, heq⟩
  · rw [heq]
    exact token_idle h hp hbracket rfl rfl rfl rfl (.inl rfl) hp
  · rw [heq]
    exact token_idle h hp hbracket rfl rfl rfl rfl (.inl rfl) hp
  · rw [heq]
    have hsend : Course.Moves source p.course
        (p.send [.bracketClosed i p.cursor.position]).course :=
      moves_idle hbracket rfl rfl rfl (.inl rfl) (Nat.le_refl _)
    obtain ⟨hmoves, hreg⟩ := closeThrough_moves (i := i) (h.send [.bracketClosed i p.cursor.position])
      hp hcs
    exact ⟨hsend.trans hmoves, hreg⟩

/-- A context that is opened at the cursor makes no pass irregular. -/
theorem Regular.of_push (h : p.Regular g source) {k : Nat} {c : Context} (hc : c.Usual g)
    (hcursor : q.cursor = p.cursor.consume k)
    (hcontexts : q.nesting.contexts = c :: p.nesting.contexts)
    (hpending : q.pendingBody = p.pendingBody ∨ q.pendingBody = none) (hq : q.Settled) :
    q.markEnd.Regular g source := by
  refine h.of_consume hcursor (.inr rfl) ?_ ?_ hq
  · intro b hb
    have hlen : q.nesting.contexts.length = p.nesting.contexts.length + 1 := by rw [hcontexts]; rfl
    rcases hpending with hpb | hpb
    · have := h.pending b (hpb ▸ hb)
      change b.depth ≤ q.nesting.contexts.length
      omega
    · rw [show q.markEnd.pendingBody = none from hpb] at hb
      cases hb
  · intro d hd
    rw [show q.markEnd.nesting.contexts = _ from hcontexts, List.mem_cons] at hd
    rcases hd with rfl | hd
    · exact hc
    · exact h.contexts d hd

theorem awaits_of_awaitsBody (h : p.awaitsBody = true) :
    p.course.awaits = some p.course.contexts.length := by
  unfold awaitsBody at h
  cases hb : p.pendingBody with
  | none => rw [hb] at h; cases h
  | some b =>
    rw [hb, Option.any_some, decide_eq_true_eq] at h
    simp only [course, hb, Option.map_some, h]
    rfl

/-- A body that opens at the cursor is a move, after which the opener may be consumed. -/
theorem moves_enterBody {k : Nat} {indent : Option Nat} (h : p.Regular g source) (hp : p.Settled)
    (hawaits : p.awaitsBody = true) (hready : p.assembly.canEnterBody = true)
    (hcursor : q.cursor = p.cursor.consume k)
    (hcontexts : q.nesting.contexts = .body p.cursor.position indent :: p.nesting.contexts)
    (hassembly : q.assembly = p.assembly.replay [.bodyEntered p.cursor.position])
    (hjournal : q.journal = .bodyEntered p.cursor.position :: p.journal)
    (hpending : q.pendingBody = none) (hq : q.Settled) :
    Course.Moves source p.course q.markEnd.course := by
  have hmove : Course.Move source p.course
      { p.course.send [.bodyEntered p.cursor.position] with
        contexts := .body p.cursor.position indent :: p.nesting.contexts
        awaits := none, clock := p.cursor.position.offset } :=
    .enterBody (h.clock_le hp) (awaits_of_awaitsBody hawaits) hready
  refine hmove.moves.trans (Course.moves_of_later ?_ ?_)
  · simp [course, markEnd, Course.send, hcontexts, hassembly, hjournal, hpending]
  · rw [show q.markEnd.course.clock = _ from clock_markEnd hq, hcursor]
    exact Cursor.offset_le_consume _ _

/-- A block that opens at the cursor is a move, after which the opener may be consumed. -/
theorem moves_openBlock {k i : Nat} (h : p.Regular g source) (hp : p.Settled)
    (hcursor : q.cursor = p.cursor.consume k)
    (hcontexts : q.nesting.contexts = .block i p.cursor.position :: p.nesting.contexts)
    (hassembly : q.assembly = p.assembly) (hjournal : q.journal = p.journal)
    (hpending : q.pendingBody = p.pendingBody) (hq : q.Settled) :
    Course.Moves source p.course q.markEnd.course := by
  have hfresh : ∀ depth, p.course.awaits = some depth → depth ≤ p.course.contexts.length := by
    intro depth hd
    obtain ⟨b, hb, rfl⟩ := Option.map_eq_some_iff.mp hd
    exact h.pending b hb
  have hmove : Course.Move source p.course
      { p.course with
        contexts := .block i p.cursor.position :: p.nesting.contexts
        clock := p.cursor.position.offset } :=
    .openBlock (h.clock_le hp) hfresh
  refine hmove.moves.trans (Course.moves_of_later ?_ ?_)
  · simp [course, markEnd, hcontexts, hassembly, hjournal, hpending]
  · rw [show q.markEnd.course.clock = _ from clock_markEnd hq, hcursor]
    exact Cursor.offset_le_consume _ _

theorem openBlock_moves (i : Nat) (h : p.Regular g source) (hp : p.Settled) :
    Course.Moves source p.course (p.openBlock g i).markEnd.course ∧
      (p.openBlock g i).markEnd.Regular g source := by
  have hbracket : ∀ e ∈ [Event.bracketOpened i p.cursor.position], e.isBracket = true := by
    simp [Event.isBracket]
  have hsend : Course.Moves source p.course (p.send [.bracketOpened i p.cursor.position]).course :=
    moves_idle hbracket rfl rfl rfl (.inl rfl) (Nat.le_refl _)
  cases ho : p.nesting.opening with
  | overflowed first =>
    rw [openBlock_of_overflowed ho]
    refine token_idle h hp hbracket rfl rfl rfl rfl ?_ hp
    dsimp only
    split
    · exact .inr rfl
    · exact .inl rfl
  | entered =>
    cases hb : p.opensBody g i with
    | false =>
      rw [openBlock_of_block ho i hb]
      refine ⟨hsend.trans (moves_openBlock (h.send _) hp rfl rfl rfl rfl rfl hp), ?_⟩
      exact h.of_push (c := .block i p.cursor.position) trivial rfl rfl (.inl rfl) hp
    | true =>
      rw [openBlock_of_body ho i hb]
      simp only [opensBody, Bool.and_eq_true] at hb
      refine ⟨hsend.trans
        (moves_enterBody (h.send _) hp hb.1.2 hb.2 rfl rfl rfl rfl rfl hp), ?_⟩
      refine h.of_push (c := .body p.cursor.position none) ?_ rfl rfl (.inr rfl) hp
      exact (Grammar.indents_of_isBodyPair hb.1.1).symm

theorem openIndentBody_moves {opener : List Char} (ho : p.bodyOpener? g = some opener)
    (h : p.Regular g source) (hp : p.Settled) :
    Course.Moves source p.course (p.openIndentBody opener).markEnd.course ∧
      (p.openIndentBody opener).markEnd.Regular g source := by
  obtain ⟨hawaits, ho⟩ := bodyOpener?_eq_some ho
  rcases p.openIndentBody_cases opener with ⟨ds, heq, -⟩ | ⟨pending, -, hready, -, heq⟩
  · rw [heq]
    exact token_idle h hp forall_isBracket_nil rfl rfl rfl rfl (.inr rfl) hp
  · rw [heq]
    refine ⟨moves_enterBody h hp hawaits hready rfl rfl rfl rfl rfl hp, ?_⟩
    exact h.of_push (c := .body p.cursor.position (some pending.indent))
      (Grammar.indents_of_bodyOpener? ho).symm rfl rfl (.inr rfl) hp

/-- A function in the body of a class is recognised as a method. -/
theorem kind_ne_of_recognise? {text : List Char} {enclosing : Option AnchorKind} {r : Recognition}
    (hr : g.recognise? text enclosing = some r) (henc : enclosing = some .classDecl) :
    r.kind ≠ .functionDecl := by
  obtain ⟨found, -, rfl⟩ := Option.map_eq_some_iff.mp hr
  split
  · simp
  · rename_i hkind
    exact fun h ↦ hkind ⟨h, henc⟩

theorem addAnchor_moves {r : Recognition} (h : p.Regular g source) (hp : p.Settled)
    (hr : g.recognise? p.cursor.ahead p.assembly.enclosingKind? = some r) :
    Course.Moves source p.course (p.addAnchor r).markEnd.course ∧
      (p.addAnchor r).markEnd.Regular g source := by
  have hle := p.cursor.offset_le_consume (r.headerLength p.cursor.ahead)
  have hmove : Course.Move source p.course
      { p.course.send [.anchor ⟨r.kind, String.ofList r.name,
          ⟨p.cursor.position, (p.cursor.consume (r.headerLength p.cursor.ahead)).position⟩⟩
          p.nesting.contexts.length] with
        awaits := some p.nesting.contexts.length
        clock := (p.cursor.consume (r.headerLength p.cursor.ahead)).position.offset } :=
    .anchor (h.clock_le hp) hle (fun henc ↦ kind_ne_of_recognise? hr henc) h.cursor.isPlace
  have heq : (p.addAnchor r).markEnd.course =
      { p.course.send [.anchor ⟨r.kind, String.ofList r.name,
          ⟨p.cursor.position, (p.cursor.consume (r.headerLength p.cursor.ahead)).position⟩⟩
          p.nesting.contexts.length] with
        awaits := some p.nesting.contexts.length
        clock := (p.cursor.consume (r.headerLength p.cursor.ahead)).position.offset } := by
    rw [course, clock_markEnd (p := p.addAnchor r) hp]
    rfl
  refine ⟨heq ▸ hmove.moves, ?_⟩
  refine h.of_consume (k := r.headerLength p.cursor.ahead) rfl (.inr rfl) ?_ h.contexts hp
  intro b hb
  cases hb
  exact Nat.le_refl _

/-- The token ahead makes moves. -/
theorem take_moves (ht : p.Ahead g t) (h : p.Regular g source) (hp : p.Settled) :
    Course.Moves source p.course (p.take g t).markEnd.course ∧
      (p.take g t).markEnd.Regular g source := by
  have hzero : p.cursor = p.cursor.consume 0 := p.cursor.consume_zero.symm
  have hcancel : ∀ q : Pass, q.pendingBody = p.pendingBody →
      (if q.awaitsBody then none else q.pendingBody) = p.pendingBody ∨
        (if q.awaitsBody then none else q.pendingBody) = none := by
    intro q hq
    split
    · exact .inr rfl
    · exact .inl hq
  cases ht with
  | comment found =>
    exact token_idle h hp forall_isBracket_nil hzero rfl rfl rfl (.inl rfl) (by simp [Settled, take])
  | literal comment found =>
    rw [take, literal_eq]
    exact token_idle h hp forall_isBracket_nil rfl rfl rfl rfl (.inl rfl) hp
  | regex comment string found =>
    exact token_idle h hp forall_isBracket_nil rfl rfl rfl rfl (.inl rfl) hp
  | closer comment string regex found => exact closeBlock_moves _ h hp
  | opener comment string regex closer found => exact openBlock_moves _ h hp
  | indentation unmarked found => exact openIndentBody_moves found h hp
  | separator unmarked body found =>
    rw [take, separator, cancelBody_eq]
    exact token_idle h hp forall_isBracket_nil rfl rfl rfl rfl (hcancel _ rfl) hp
  | anchor unmarked body separator starts found =>
    have h' : { p with statementStart := false }.Regular g source :=
      ⟨h.cursor, h.lastEnd, h.pending, h.contexts, h.comment⟩
    exact addAnchor_moves h' hp found
  | plain unmarked body separator starts header =>
    rw [take, cancelBody_eq]
    exact token_idle h hp forall_isBracket_nil hzero rfl rfl rfl (hcancel _ rfl) (by simp [Settled])
  | inner unmarked body separator goesOn =>
    exact token_idle h hp forall_isBracket_nil hzero rfl rfl rfl (.inl rfl) (by simp [Settled, take])

/-- The bodies that a line leaves are closed one by one. -/
theorem leaveBodies_moves (source : List Char) (indent : Nat) (cs : List Context) (p : Pass)
    (hp : p.Settled) (hcs : p.nesting.contexts = cs) :
    Course.Moves source p.course (leaveBodies indent cs p).course ∧
      ∃ es outer, outer <:+ cs ∧ leaveBodies indent cs p =
        { p.send es with nesting := { p.nesting with contexts := outer } } := by
  fun_induction leaveBodies indent cs p with
  | case1 => exact ⟨.refl _, [], _, List.suffix_refl _, by rw [← hcs]; rfl⟩
  | case2 opened level outer p hlt q ih =>
    obtain ⟨hmoves, es, rest, hrest, heq⟩ := ih hp rfl
    have hclose : Course.Moves source p.course
        ((q.emit (.bodyLeft q.lastEnd)).emit (.blockClosed outer.length)).course := by
      refine moves_close [.body opened (some level)] outer [p.lastEnd] hcs rfl
        (List.pairwise_singleton _ _) ?_ rfl rfl rfl (.inl rfl) (Nat.le_refl _)
      intro x hx
      rw [List.mem_singleton.mp hx, hp.clock]
      exact ⟨Nat.le_refl _, Nat.le_of_eq (Settled.clock (p := (q.emit (.bodyLeft q.lastEnd)).emit
        (.blockClosed outer.length)) hp).symm⟩
    refine ⟨hclose.trans hmoves, .bodyLeft p.lastEnd :: .blockClosed outer.length :: es, rest,
      hrest.trans (List.suffix_cons _ _), ?_⟩
    rw [heq]
    simp [emit_eq_send, send, q, Assembly.replay]
  | case3 => exact ⟨.refl _, [], _, List.suffix_refl _, by rw [← hcs]; rfl⟩

theorem dedent_moves (h : p.Regular g source) (hp : p.Settled) :
    Course.Moves source p.course (p.dedent g).course ∧ (p.dedent g).Regular g source ∧
      (p.dedent g).Settled := by
  unfold dedent
  split
  · obtain ⟨hmoves, es, outer, houter, heq⟩ :=
      leaveBodies_moves source p.cursor.lineIndent p.nesting.contexts p hp rfl
    rw [heq] at hmoves ⊢
    rw [dropStaleBody_eq]
    refine ⟨hmoves.trans (moves_idle forall_isBracket_nil rfl rfl rfl (pending_filter rfl)
      (Nat.le_refl _)), ?_, hp⟩
    refine h.of_consume (k := 0) p.cursor.consume_zero.symm (.inl rfl) ?_ ?_ hp
    · intro b hb
      exact of_decide_eq_true (Option.filter_eq_some_iff.mp hb).2
    · intro c hc
      exact h.contexts c (houter.subset hc)
  · exact ⟨.refl _, h, hp⟩

/-- The first token of a line makes the moves of the bodies that end there. -/
theorem atToken_moves (h : p.Regular g source) (hp : p.Settled) :
    Course.Moves source p.course (p.atToken g).course ∧ (p.atToken g).Regular g source ∧
      (p.atToken g).Settled := by
  unfold atToken
  split
  · have h' : { p with lineStart := false }.Regular g source :=
      ⟨h.cursor, h.lastEnd, h.pending, h.contexts, h.comment⟩
    exact dedent_moves h' hp
  · exact ⟨.refl _, h, hp⟩

/-! ## Steps -/

/-- A pass that has consumed text and nothing else has made an idle move. -/
theorem consume_idle {k : Nat} (h : p.Regular g source) (hp : p.Settled)
    (hcursor : q.cursor = p.cursor.consume k)
    (hlast : q.lastEnd = p.lastEnd ∨ q.lastEnd = q.cursor.position)
    (hnesting : q.nesting = p.nesting) (hassembly : q.assembly = p.assembly)
    (hjournal : q.journal = p.journal)
    (hpending : q.pendingBody = p.pendingBody ∨ q.pendingBody = none) (hq : q.Settled) :
    Course.Moves source p.course q.course ∧ q.Regular g source := by
  refine ⟨moves_idle forall_isBracket_nil (by rw [hnesting]) hassembly hjournal hpending ?_, ?_⟩
  · rw [hp.clock, hq.clock]
    rcases hlast with hl | hl
    · rw [hl]
    · rw [hl, hcursor]
      exact h.lastEnd.trans (Cursor.offset_le_consume _ _)
  · refine h.of_consume hcursor hlast ?_ ?_ hq
    · intro b hb
      rw [hnesting]
      rcases hpending with hpb | hpb
      · exact h.pending b (hpb ▸ hb)
      · rw [hpb] at hb
        cases hb
    · rw [hnesting]
      exact h.contexts

/-- A step of skipping makes an idle move. -/
theorem Skips.moves (h : p.Skips s q) (hreg : p.Regular s.grammar source) (hp : p.Settled) :
    (Course.Moves source p.course q.course ∧ q.Regular s.grammar source) ∧ q.Settled := by
  cases h with
  | literal peek goesOn found =>
    rw [literal_eq]
    exact ⟨consume_idle hreg hp rfl (.inr rfl) rfl rfl rfl (.inl rfl) hp, hp⟩
  | regex peek goesOn string found =>
    exact ⟨consume_idle hreg hp rfl (.inr rfl) rfl rfl rfl (.inl rfl) hp, hp⟩
  | blank peek goesOn string regex blank =>
    exact ⟨consume_idle hreg hp rfl (.inl rfl) rfl rfl rfl (.inl rfl) hp, hp⟩
  | char peek goesOn string regex blank =>
    exact ⟨consume_idle hreg hp rfl (.inr rfl) rfl rfl rfl (.inl rfl) hp, hp⟩

theorem skip_moves (h : p.Regular s.grammar source) (hp : p.Settled) :
    Course.Moves source p.course (p.skip s).course ∧ (p.skip s).Regular s.grammar source := by
  have hfirst := consume_idle (q := (p.consume 1).markEnd) h hp rfl (.inr rfl) rfl rfl rfl
    (.inl rfl) hp
  obtain ⟨q, ⟨⟨hmoves, hreg⟩, hset⟩, hskip⟩ := skip_induction
    (P := fun q : Pass ↦
      (Course.Moves source p.course q.course ∧ q.Regular s.grammar source) ∧ q.Settled)
    s ⟨hfirst, hp⟩ fun q r ⟨⟨hmoves, hreg⟩, hset⟩ hqr ↦ by
      obtain ⟨⟨hmove, hreg'⟩, hset'⟩ := hqr.moves hreg hset
      exact ⟨⟨hmoves.trans hmove, hreg'⟩, hset'⟩
  obtain ⟨hlast, hlastreg⟩ := consume_idle (k := 0) (q := p.skip s) hreg hset
    (by rw [hskip]; exact (Cursor.consume_zero _).symm) (by rw [hskip]; exact .inl rfl)
    (by rw [hskip]) (by rw [hskip]) (by rw [hskip]) (by rw [hskip]; exact .inl rfl)
    (by simp [Settled, skip])
  exact ⟨hmoves.trans hlast, hlastreg⟩

/-- A comment that has been read lies between the cursors before it and after it. -/
theorem comment_moves {c : Comment} {k : Nat} (h : p.Regular g source) (hp : p.Settled)
    (hcursor : q.cursor = p.cursor.consume k) (hlast : q.lastEnd = q.cursor.position)
    (hnesting : q.nesting = p.nesting) (hassembly : q.assembly = p.assembly)
    (hjournal : q.journal = p.journal)
    (hpending : q.pendingBody = p.pendingBody ∨ q.pendingBody = none)
    (hmode : q.mode = .tags c) (hspan : c.span = ⟨p.cursor.position, q.cursor.position⟩)
    (hlines : ∀ l ∈ c.lines, l.Within p.cursor.position.offset q.cursor.position.offset) :
    Course.Moves source p.course q.course ∧ q.Regular g source := by
  have hclock : q.clock = p.cursor.position.offset := by simp [clock, hmode, hspan]
  refine ⟨moves_idle forall_isBracket_nil (by rw [hnesting]) hassembly hjournal hpending ?_, ?_⟩
  · rw [hclock]
    exact h.clock_le hp
  · refine ⟨by rw [hcursor]; exact h.cursor.consume k, by rw [hlast], ?_, ?_, ?_⟩
    · intro b hb
      rw [hnesting]
      rcases hpending with hpb | hpb
      · exact h.pending b (hpb ▸ hb)
      · rw [hpb] at hb
        cases hb
    · rw [hnesting]
      exact h.contexts
    · intro c' hc'
      rw [hmode] at hc'
      cases hc'
      rw [hspan]
      exact ⟨by rw [hcursor]; exact Cursor.offset_le_consume _ _, hlast, rfl, hlines⟩

theorem readComment_moves (form : CommentForm) (h : p.Regular g source) (hp : p.Settled) :
    Course.Moves source p.course (p.readComment g form).course ∧
      (p.readComment g form).Regular g source := by
  cases form with
  | line i =>
    obtain ⟨⟨k, hk⟩, hlines⟩ := p.cursor.lineComments_spec (g.lineComment i)
    obtain ⟨_, _, _, hread, hpending⟩ := p.readComment_line_eq g i
    rw [hread]
    exact comment_moves h hp hk rfl rfl rfl rfl (hpending.imp_right And.right) rfl rfl hlines
  | block i =>
    obtain ⟨rest, hrest⟩ : (p.blockFound (g.blockComment i).1 (g.blockComment i).2).1 <+:
      (p.cursor.consume (g.blockComment i).1.length).ahead := blockContent_prefix _ _
    have hwithin : ∀ l ∈ Comment.blockLines
          (p.blockFound (g.blockComment i).1 (g.blockComment i).2).1
          (p.cursor.consume (g.blockComment i).1.length).position,
        l.Within p.cursor.position.offset
          (p.cursor.consume (p.blockLength (g.blockComment i).1
            (g.blockComment i).2)).position.offset := by
      intro l hl
      refine (Comment.within_blockLines _ _ l hl).mono (Cursor.offset_le_consume _ _) ?_
      rw [blockLength, ← Cursor.consume_consume, Cursor.consume_position _ (_ + _),
        Position.after_offset, ← hrest]
      rw [List.take_length_add_append, Text.byteSize_append]
      omega
    rw [readComment, blockComment_eq]
    exact comment_moves h hp rfl rfl rfl rfl rfl (.inl rfl) rfl rfl hwithin

theorem placeTags_moves {c : Comment} (registry : Registry) (h : p.Regular g source)
    (hmode : p.mode = .tags c) :
    Course.Moves source p.course (p.placeTags registry c).course ∧
      (p.placeTags registry c).Regular g source := by
  obtain ⟨hordered, hlast, hcursor, hlines⟩ := h.comment c hmode
  have hclock : p.course.clock = c.span.start.offset := by simp [course, clock, hmode]
  have hreg : (p.placeTags registry c).Regular g source := by
    rw [placeTags_eq]
    exact ⟨h.cursor, h.lastEnd, h.pending, h.contexts, fun c' hc' ↦ by cases hc'⟩
  have hclock' : (p.placeTags registry c).clock = c.span.stop.offset := by
    rw [placeTags_eq]
    change p.lastEnd.offset = _
    rw [hlast]
  refine ⟨?_, hreg⟩
  by_cases hempty : (c.tags registry).isEmpty = true
  · refine moves_idle forall_isBracket_nil ?_ ?_ ?_ (.inl ?_) ?_
    · rw [placeTags_eq]; rfl
    · rw [placeTags_eq, commentEvents, if_pos hempty]; rfl
    · rw [placeTags_eq, commentEvents, if_pos hempty]; rfl
    · rw [placeTags_eq]; rfl
    · rw [hclock']
      exact (Nat.le_of_eq hclock).trans hordered
  · have hmove : Course.Move source p.course
        { p.course.send [.comment ((c.tags registry).map (·.tag)) c.span
            p.nesting.contexts.length] with
          clock := c.span.stop.offset } := by
      refine .comment (Nat.le_of_eq hclock) hordered ?_ ?_
      · intro t ht
        obtain ⟨u, hu, rfl⟩ := List.mem_map.mp ht
        obtain ⟨hres, hlo, hhi, -⟩ := Comment.tags_within hlines hu
        exact ⟨hres, hlo, hhi⟩
      · rw [← hcursor]
        exact h.cursor.isPlace
    have heq : (p.placeTags registry c).course =
        { p.course.send [.comment ((c.tags registry).map (·.tag)) c.span
            p.nesting.contexts.length] with
          clock := c.span.stop.offset } := by
      rw [course, hclock', placeTags_eq, commentEvents, if_neg hempty]
      rfl
    rw [heq]
    exact hmove.moves

/-- Every step of a scan is a sequence of moves, and leads from regular passes to regular ones. -/
theorem step_moves (h : p.Regular s.grammar source) (hstep : step s p = some q) :
    Course.Moves source p.course q.course ∧ q.Regular s.grammar source := by
  cases step_eq_some_iff.mp hstep with
  | comment mode => exact readComment_moves _ h (settled_of_mode mode (by simp))
  | tags mode => exact placeTags_moves s.registry h mode
  | newline mode peek =>
    have hp : p.Settled := settled_of_mode mode (by simp)
    rw [take, afterNewline_eq]
    refine consume_idle h hp rfl (.inl rfl) rfl rfl rfl ?_ hp
    dsimp only
    split
    · exact .inr rfl
    · exact .inl rfl
  | blank mode peek inline blank =>
    have hp : p.Settled := settled_of_mode mode (by simp)
    exact consume_idle h hp rfl (.inl rfl) rfl rfl rfl (.inl rfl) hp
  | token mode peek blank ahead =>
    obtain ⟨hmoves, hreg, hp⟩ := atToken_moves h (settled_of_mode mode (by simp))
    obtain ⟨hmoves', hreg'⟩ := take_moves ahead hreg hp
    exact ⟨hmoves.trans hmoves', hreg'⟩
  | skip mode peek => exact skip_moves h (settled_of_mode mode (by simp))

/-- Every pass that a scan reaches is regular and has been moved to. -/
theorem reaches_moves (h : Reaches (step s) (start s source) p) :
    Course.Moves source (start s source).course p.course ∧ p.Regular s.grammar source := by
  refine h.invariant (P := fun p : Pass ↦ Course.Moves source (start s source).course p.course ∧
    p.Regular s.grammar source) ?_ ⟨.refl _, regular_start s source⟩
  rintro p q ⟨hmoves, hreg⟩ hpq
  obtain ⟨hmoves', hreg'⟩ := step_moves hreg hpq
  exact ⟨hmoves.trans hmoves', hreg'⟩

/-- A scan ends at the end of its text. -/
theorem position_run (s : Setup) (source : List Char) :
    (run s (start s source)).cursor.position = Position.start.after source :=
  (reaches_moves (reaches_run s _)).2.cursor.position_of_end
    (ahead_eq_nil_of_step_eq_none (step_run (atComment_start s source))).1

theorem closeAll_cursor (p : Pass) (g : Grammar) : (p.closeAll g).cursor = p.cursor := by
  rw [closeAll_eq]
  rfl

/-- The root of an outline spans the whole text. -/
theorem scan_root_span (s : Setup) (source : List Char) :
    (s.scan source).outline.root.span = ⟨.start, Position.start.after source⟩ := by
  have hspan : (s.scan source).outline.root.span =
      ⟨.start, ((run s (start s source)).closeAll s.grammar).cursor.position⟩ := rfl
  rw [hspan, closeAll_cursor, position_run]

end Pass

end Marginalia
