import Marginalia.Scan.Run

/-!
# Transitions of a scan, field by field

A transition consumes text, sends events to the outline, reports diagnostics and changes a few
notes. Each of them is written here as one change of the pass, so that what it does to a field can
be read off.
-/

namespace Marginalia

namespace Pass

variable {p : Pass} {g : Grammar}

/-- Send events to the outline. -/
def send (p : Pass) (es : List Event) : Pass :=
  { p with assembly := p.assembly.replay es, journal := es.reverse ++ p.journal }

/-- Report diagnostics. -/
def note (p : Pass) (ds : List Diagnostic) : Pass := { p with diagnostics := p.diagnostics ++ ds }

@[simp] theorem send_nil (p : Pass) : p.send [] = p := rfl

@[simp] theorem note_nil (p : Pass) : p.note [] = p := by simp [note]

theorem emit_eq_send (p : Pass) (e : Event) : p.emit e = p.send [e] := rfl

theorem report_eq_note (p : Pass) (d : Diagnostic) : p.report d = p.note [d] := rfl

theorem cancelBody_eq (p : Pass) :
    p.cancelBody = { p with pendingBody := if p.awaitsBody then none else p.pendingBody } := by
  unfold cancelBody
  split <;> rfl

theorem dropStaleBody_eq (p : Pass) :
    p.dropStaleBody =
      { p with pendingBody := p.pendingBody.filter (·.depth ≤ p.nesting.depth) } := by
  unfold dropStaleBody
  cases p with
  | mk cursor nesting assembly mode statementStart lineStart pendingBody lastEnd ds journal =>
    cases pendingBody with
    | none => rfl
    | some b =>
      by_cases hb : nesting.depth < b.depth
      · simp [hb, Option.filter]
      · simp [hb, Option.filter, Nat.le_of_not_lt hb]

theorem afterNewline_eq (p : Pass) (g : Grammar) :
    p.afterNewline g =
      { p with
        lineStart := true
        statementStart := p.statementStart || p.inStatements g
        pendingBody :=
          if g.newlineTerminates && p.awaitsBody then none else p.pendingBody } := by
  unfold afterNewline
  cases g.newlineTerminates with
  | false => rfl
  | true => simp only [if_true, cancelBody_eq, Bool.true_and]; rfl

/-! ## Literals -/

/-- The number of characters of the literal at the cursor. -/
def literalLength (p : Pass) (d : StringDelimiter) : Nat :=
  d.opener.length + (d.tail (p.cursor.ahead.drop d.opener.length)).1

/-- What is wrong with the literal at the cursor. -/
def literalNotes (p : Pass) (d : StringDelimiter) : List Diagnostic :=
  ((d.tail (p.cursor.ahead.drop d.opener.length)).2.diagnostic?
    ((p.consume (p.literalLength d)).cursor.spanFrom p.cursor.position)).toList

theorem of_mem_literalNotes {delimiter : StringDelimiter} {d : Diagnostic}
    (h : d ∈ p.literalNotes delimiter) :
    d.kind = .unterminatedString ∧
      d.span = (p.consume (p.literalLength delimiter)).cursor.spanFrom p.cursor.position := by
  rw [literalNotes, Option.mem_toList] at h
  unfold LiteralEnd.diagnostic? at h
  split at h <;> cases h <;> exact ⟨rfl, rfl⟩

theorem literal_eq (p : Pass) (g : Grammar) (i : Nat) :
    p.literal g i =
      (p.consume (p.literalLength (g.delimiter i))).note (p.literalNotes (g.delimiter i)) := by
  unfold literal literalNotes literalLength
  refine inside_eq rfl ?_
  dsimp only [consume]
  generalize g.delimiter i = d
  cases d.tail (p.cursor.ahead.drop d.opener.length) with
  | mk n stop =>
    dsimp only
    cases stop.diagnostic?
        ((p.cursor.consume (d.opener.length + n)).spanFrom p.cursor.position) with
    | none => simp [note]
    | some diagnostic => rfl

/-! ## Comments -/

theorem lineComment_eq (p : Pass) (g : Grammar) (marker : List Char) :
    p.lineComment g marker =
      let (lines, c) := p.cursor.lineComments marker
      let q := { p with cursor := c }
      let q := if lines.length = 1 then q else q.afterNewline g
      { q with lastEnd := c.position, mode := .tags ⟨lines, c.spanFrom p.cursor.position⟩ } := by
  have hinside : (p.inside (.comment p.cursor.position)
      fun q ↦ { q with cursor := (p.cursor.lineComments marker).2 }) =
        { p with cursor := (p.cursor.lineComments marker).2 } := inside_eq rfl rfl
  unfold lineComment
  dsimp only
  rw [hinside]

/-- The content of the block comment at the cursor, and whether it has a closer. -/
def blockFound (p : Pass) (opener closer : List Char) : List Char × Bool :=
  blockContent closer (p.cursor.ahead.drop opener.length)

/-- The number of characters of the block comment at the cursor. -/
def blockLength (p : Pass) (opener closer : List Char) : Nat :=
  opener.length + ((p.blockFound opener closer).1.length +
    if (p.blockFound opener closer).2 then closer.length else 0)

/-- The span of the block comment at the cursor. -/
def blockSpan (p : Pass) (opener closer : List Char) : Span :=
  (p.cursor.consume (p.blockLength opener closer)).spanFrom p.cursor.position

/-- What is wrong with the block comment at the cursor. -/
def blockNotes (p : Pass) (opener closer : List Char) : List Diagnostic :=
  if (p.blockFound opener closer).2 then []
  else
    [{ kind := .unterminatedComment
       span := p.blockSpan opener closer
       message := "comment never closed; closed at end of input" }]

theorem of_mem_blockNotes {opener closer : List Char} {d : Diagnostic}
    (h : d ∈ p.blockNotes opener closer) :
    d.kind = .unterminatedComment ∧ d.span = p.blockSpan opener closer := by
  unfold blockNotes at h
  split at h
  · cases h
  · rw [List.mem_singleton.mp h]
    exact ⟨rfl, rfl⟩

theorem blockComment_eq (p : Pass) (opener closer : List Char) :
    p.blockComment opener closer =
      { (p.consume (p.blockLength opener closer)).note (p.blockNotes opener closer) with
        lastEnd := (p.cursor.consume (p.blockLength opener closer)).position
        mode := .tags
          ⟨Comment.blockLines (p.blockFound opener closer).1
            (p.cursor.consume opener.length).position, p.blockSpan opener closer⟩ } := by
  have hfound : blockContent closer (p.cursor.consume opener.length).ahead =
      p.blockFound opener closer := rfl
  unfold blockComment
  dsimp only
  rw [hfound, inside_eq (p := p) (q := (p.consume (p.blockLength opener closer)).note
    (p.blockNotes opener closer)) rfl ?_]
  · simp [blockLength, blockSpan, Cursor.consume_consume]
  · unfold blockNotes blockSpan blockLength
    cases (p.blockFound opener closer).2 <;>
      simp [Cursor.consume_consume, consume, note, report]

/-- Reading a run of line comments changes where the pass stands and what it looks for next. -/
theorem readComment_line_eq (p : Pass) (g : Grammar) (i : Nat) :
    ∃ lineStart statementStart pending,
      p.readComment g (.line i) =
        { p with
          cursor := (p.cursor.lineComments (g.lineComment i)).2
          lineStart
          statementStart
          pendingBody := pending
          lastEnd := (p.cursor.lineComments (g.lineComment i)).2.position
          mode := .tags ⟨(p.cursor.lineComments (g.lineComment i)).1,
            (p.cursor.lineComments (g.lineComment i)).2.spanFrom p.cursor.position⟩ } ∧
      (pending = p.pendingBody ∨ g.newlineTerminates = true ∧ pending = none) := by
  rw [readComment, lineComment_eq]
  dsimp only
  split
  · exact ⟨_, _, _, rfl, .inl rfl⟩
  · rw [afterNewline_eq]
    refine ⟨_, _, _, rfl, ?_⟩
    dsimp only
    split
    · rename_i hends
      exact .inr ⟨(Bool.and_eq_true_iff.mp hends).1, rfl⟩
    · exact .inl rfl

theorem readComment_line_cursor (p : Pass) (g : Grammar) (i : Nat) :
    (p.readComment g (.line i)).cursor = (p.cursor.lineComments (g.lineComment i)).2 := by
  obtain ⟨_, _, _, h, -⟩ := p.readComment_line_eq g i
  rw [h]

theorem readComment_block_cursor (p : Pass) (g : Grammar) (i : Nat) :
    (p.readComment g (.block i)).cursor =
      p.cursor.consume (p.blockLength (g.blockComment i).1 (g.blockComment i).2) := by
  rw [readComment, blockComment_eq]
  rfl

/-- The event of a comment that has tags. -/
def commentEvents (p : Pass) (registry : Registry) (c : Comment) : List Event :=
  if (c.tags registry).isEmpty then []
  else [.comment ((c.tags registry).map (·.tag)) c.span p.nesting.depth]

theorem eq_of_mem_commentEvents {registry : Registry} {c : Comment} {e : Event}
    (h : e ∈ p.commentEvents registry c) :
    e = .comment ((c.tags registry).map (·.tag)) c.span p.nesting.depth := by
  unfold commentEvents at h
  split at h
  · cases h
  · exact List.mem_singleton.mp h

theorem placeTags_eq (p : Pass) (registry : Registry) (c : Comment) :
    p.placeTags registry c =
      { (p.send (p.commentEvents registry c)).note
          ((c.tags registry).flatMap (·.diagnostics)) with
        mode := .code } := by
  unfold placeTags commentEvents
  dsimp only
  cases (c.tags registry).isEmpty <;> rfl

/-! ## Blocks -/

/-- What is reported of a depth limit. -/
def tooDeepNotes (p : Pass) (first : Bool) (opened : Position) : List Diagnostic :=
  if first then
    [{ kind := .nestingTooDeep
       span := .point opened
       message := s!"nesting deeper than {p.nesting.limit} levels; " ++
         "further opens ignored until closed" }]
  else []

theorem of_mem_tooDeepNotes {first : Bool} {opened : Position} {d : Diagnostic}
    (h : d ∈ p.tooDeepNotes first opened) : d.kind = .nestingTooDeep ∧ d.span = .point opened := by
  unfold tooDeepNotes at h
  split at h
  · rw [List.mem_singleton.mp h]
    exact ⟨rfl, rfl⟩
  · cases h

theorem tooDeep_eq (p : Pass) (first : Bool) (opened : Position) :
    p.tooDeep first opened = p.note (p.tooDeepNotes first opened) := by
  unfold tooDeep tooDeepNotes
  cases first
  · simp
  · rfl

end Pass

/-- The event of a context that is closed without its closer. -/
def Context.leaving (stop last : Position) : Context → List Event
  | .body _ none => [.bodyLeft stop]
  | .body _ (some _) => [.bodyLeft last]
  | .block _ _ | .literal _ _ | .comment _ => []

theorem Context.eq_of_mem_leaving {stop last : Position} {c : Context} {e : Event}
    (h : e ∈ c.leaving stop last) : e = .bodyLeft stop ∨ e = .bodyLeft last := by
  unfold leaving at h
  split at h
  · exact .inl (List.mem_singleton.mp h)
  · exact .inr (List.mem_singleton.mp h)
  all_goals cases h

/-- The opener of a context that has a closer. -/
def Context.opener? (g : Grammar) : Context → Option (List Char)
  | .block i _ => some (g.pair i).opener
  | .body _ none =>
    match g.body with
    | .braces opener => some opener
    | .indent _ => none
  | .body _ (some _) | .literal _ _ | .comment _ => none

/-- What is reported of a context that is closed without its closer. -/
def Context.unwindNotes (g : Grammar) (stop : Position) (closer : Option (List Char))
    (c : Context) : List Diagnostic :=
  match c.opener? g, closer with
  | none, _ => []
  | some opener, some closer =>
    [{ kind := .unbalancedBlock
       span := ⟨c.opened, stop⟩
       message := s!"`{String.ofList opener}` implicitly closed by `{String.ofList closer}`" }]
  | some opener, none =>
    [{ kind := .unterminatedBlock
       span := ⟨c.opened, stop⟩
       message := s!"`{String.ofList opener}` never closed; closed at end of input" }]

theorem Context.of_mem_unwindNotes {g : Grammar} {stop : Position} {closer : Option (List Char)}
    {c : Context} {d : Diagnostic} (h : d ∈ c.unwindNotes g stop closer) :
    (d.kind = .unbalancedBlock ∨ d.kind = .unterminatedBlock) ∧ d.span = ⟨c.opened, stop⟩ := by
  unfold unwindNotes at h
  split at h
  · cases h
  · rw [List.mem_singleton.mp h]
    exact ⟨.inl rfl, rfl⟩
  · rw [List.mem_singleton.mp h]
    exact ⟨.inr rfl, rfl⟩

namespace Pass

variable {p : Pass} {g : Grammar}

theorem unwind_eq (g : Grammar) (stop : Position) (closer : Option (List Char)) (p : Pass)
    (c : Context) :
    unwind g stop closer p c =
      (p.send (c.leaving stop p.lastEnd)).note (c.unwindNotes g stop closer) := by
  unfold unwind
  rcases c with ⟨i, o⟩ | ⟨o, - | indent⟩ | ⟨i, o⟩ | o
  · cases closer <;> rfl
  · dsimp only [Context.leaving, Context.unwindNotes, Context.opener?]
    cases g.body <;> cases closer <;> simp [emit_eq_send, report_eq_note]
  all_goals simp [Context.leaving, Context.unwindNotes, Context.opener?, emit_eq_send]

/-- Closing contexts one after the other sends and reports what each of them does. -/
theorem foldl_unwind (g : Grammar) (stop : Position) (closer : Option (List Char))
    (cs : List Context) (p : Pass) :
    cs.foldl (unwind g stop closer) p =
      (p.send (cs.flatMap (Context.leaving stop p.lastEnd))).note
        (cs.flatMap (Context.unwindNotes g stop closer)) := by
  induction cs generalizing p with
  | nil => simp
  | cons c cs ih =>
    rw [List.foldl_cons, ih, unwind_eq]
    simp only [send, note, Assembly.replay, List.flatMap_cons, List.foldl_append,
      List.reverse_append, List.append_assoc]

/-- The events of closing the context with `k` contexts inside it. -/
def closeEvents (p : Pass) (g : Grammar) (i k : Nat) (closed : Context) : List Event :=
  (p.nesting.contexts.take k).flatMap (Context.leaving p.cursor.position p.lastEnd) ++
    (if closed.isBody then [.bodyLeft (p.cursor.consume (g.pair i).closer.length).position] else [])
      ++ [.blockClosed (p.nesting.contexts.drop (k + 1)).length]

theorem of_mem_closeEvents {i k : Nat} {closed : Context} {e : Event}
    (h : e ∈ p.closeEvents g i k closed) :
    e = .bodyLeft p.cursor.position ∨ e = .bodyLeft p.lastEnd ∨
      e = .bodyLeft (p.cursor.consume (g.pair i).closer.length).position ∨
      e = .blockClosed (p.nesting.contexts.drop (k + 1)).length := by
  simp only [closeEvents, List.mem_append, List.mem_flatMap, List.mem_singleton] at h
  rcases h with (⟨c, -, hc⟩ | hbody) | hclosed
  · exact (Context.eq_of_mem_leaving hc).imp_right .inl
  · split at hbody
    · exact .inr (.inr (.inl (List.mem_singleton.mp hbody)))
    · cases hbody
  · exact .inr (.inr (.inr hclosed))

/-- What is reported of closing the context with `k` contexts inside it. -/
def closeNotes (p : Pass) (g : Grammar) (i k : Nat) : List Diagnostic :=
  (p.nesting.contexts.take k).flatMap
    (Context.unwindNotes g p.cursor.position (some (g.pair i).closer))

theorem closeThrough_eq (p : Pass) (g : Grammar) (i k : Nat) (closed : Context) :
    p.closeThrough g i k closed =
      let q := { p with
        cursor := p.cursor.consume (g.pair i).closer.length
        nesting := { p.nesting with contexts := p.nesting.contexts.drop (k + 1) }
        pendingBody :=
          p.pendingBody.filter (·.depth ≤ (p.nesting.contexts.drop (k + 1)).length) }
      { (q.send (p.closeEvents g i k closed)).note (p.closeNotes g i k) with
        statementStart := (closed.isBody || (g.pair i).holdsStatements) && q.inStatements g } := by
  unfold closeThrough
  simp only [foldl_unwind, dropStaleBody_eq, emit_eq_send]
  cases hc : closed.isBody <;>
    simp [hc, send, note, consume, closeEvents, closeNotes, Assembly.replay, inStatements,
      Nesting.depth, Nesting.top?]

theorem closeAll_eq (p : Pass) (g : Grammar) :
    p.closeAll g =
      { (p.send (p.nesting.contexts.flatMap
          (Context.leaving p.cursor.position p.lastEnd))).note
          (p.nesting.contexts.flatMap (Context.unwindNotes g p.cursor.position none)) with
        nesting := { p.nesting with contexts := [], overflow := 0 } } := by
  unfold closeAll
  rw [foldl_unwind]
  rfl

/-- The diagnostic of a closing bracket that has no opener. -/
def strayNote (p : Pass) (closer : List Char) : Diagnostic where
  kind := .unbalancedBlock
  span := (p.cursor.consume closer.length).spanFrom p.cursor.position
  message := s!"stray `{String.ofList closer}` ignored"

theorem strayClose_eq (p : Pass) (closer : List Char) :
    p.strayClose closer = (p.consume closer.length).note [p.strayNote closer] := rfl

/-- Close the innermost of the contexts that a bracket closes, or ignore the bracket. -/
def closeAmong (q : Pass) (g : Grammar) (i : Nat) (contexts : List Context) : Pass :=
  match contexts.findIdx? (closes g i) with
  | none => q.strayClose (g.pair i).closer
  | some k =>
    match contexts[k]? with
    | none => q.strayClose (g.pair i).closer
    | some closed => q.closeThrough g i k closed

theorem closeBlock_eq (p : Pass) (g : Grammar) (i : Nat) :
    p.closeBlock g i =
      if 0 < p.nesting.overflow then
        { p.send [.bracketClosed i p.cursor.position] with nesting := p.nesting.absorb }.consume
          (g.pair i).closer.length
      else (p.send [.bracketClosed i p.cursor.position]).closeAmong g i p.nesting.contexts := rfl

/-- A closing bracket is counted off past the limit, has no opener, or closes the innermost context
that it can close together with all contexts inside it. -/
theorem closeBlock_cases (p : Pass) (g : Grammar) (i : Nat) :
    let q := p.send [.bracketClosed i p.cursor.position]
    (0 < p.nesting.overflow ∧
      p.closeBlock g i =
        { q with nesting := p.nesting.absorb }.consume (g.pair i).closer.length) ∨
    (p.nesting.overflow = 0 ∧ (∀ c ∈ p.nesting.contexts, closes g i c = false) ∧
      p.closeBlock g i = q.strayClose (g.pair i).closer) ∨
    (p.nesting.overflow = 0 ∧ ∃ inner closed outer,
      p.nesting.contexts = inner ++ closed :: outer ∧ closes g i closed = true ∧
      (∀ c ∈ inner, closes g i c = false) ∧
      p.closeBlock g i = q.closeThrough g i inner.length closed) := by
  intro q
  by_cases h : 0 < p.nesting.overflow
  · exact .inl ⟨h, if_pos h⟩
  · have h0 : p.nesting.overflow = 0 := Nat.eq_zero_of_not_pos h
    have heq : p.closeBlock g i = q.closeAmong g i p.nesting.contexts := if_neg h
    cases hk : p.nesting.contexts.findIdx? (closes g i) with
    | none =>
      refine .inr (.inl ⟨h0, ?_, by rw [heq, closeAmong, hk]⟩)
      exact fun c hc ↦ List.findIdx?_eq_none_iff.mp hk c hc
    | some k =>
      obtain ⟨hlt, hp, hbefore⟩ := List.findIdx?_eq_some_iff_getElem.mp hk
      refine .inr (.inr ⟨h0, p.nesting.contexts.take k, p.nesting.contexts[k],
        p.nesting.contexts.drop (k + 1), ?_, hp, ?_, ?_⟩)
      · rw [List.getElem_cons_drop, List.take_append_drop]
      · intro c hc
        obtain ⟨j, hj, rfl⟩ := List.mem_take_iff_getElem.mp hc
        simpa using hbefore j (by omega)
      · rw [heq, closeAmong, hk, List.length_take_of_le (Nat.le_of_lt hlt)]
        simp only [List.getElem?_eq_getElem hlt]

/-- Whether a bracket opens the body of an anchor. -/
def opensBody (p : Pass) (g : Grammar) (i : Nat) : Bool :=
  g.isBodyPair i && p.awaitsBody && p.assembly.canEnterBody

theorem openBlock_of_overflowed {first : Bool} (h : p.nesting.opening = .overflowed first)
    (g : Grammar) (i : Nat) :
    p.openBlock g i =
      { (p.send [.bracketOpened i p.cursor.position]).note
          (p.tooDeepNotes first p.cursor.position) with
        cursor := p.cursor.consume (g.pair i).opener.length
        nesting := { p.nesting with overflow := p.nesting.overflow + 1 }
        pendingBody := if p.opensBody g i then none else p.pendingBody
        statementStart := p.opensBody g i || (g.pair i).holdsStatements } := by
  have hb : (g.isBodyPair i && (p.emit (.bracketOpened i p.cursor.position)).awaitsBody &&
      (p.emit (.bracketOpened i p.cursor.position)).assembly.canEnterBody) = p.opensBody g i := rfl
  unfold openBlock
  dsimp only
  rw [hb]
  cases p.opensBody g i <;>
    simp [tooDeep_eq, tooDeepNotes, emit_eq_send, send, note, consume, h, Nesting.push]

theorem openBlock_of_block (h : p.nesting.opening = .entered) (i : Nat)
    (hb : p.opensBody g i = false) :
    p.openBlock g i =
      { p.send [.bracketOpened i p.cursor.position] with
        cursor := p.cursor.consume (g.pair i).opener.length
        nesting :=
          { p.nesting with contexts := .block i p.cursor.position :: p.nesting.contexts }
        statementStart := (g.pair i).holdsStatements } := by
  have hb' : (g.isBodyPair i && (p.emit (.bracketOpened i p.cursor.position)).awaitsBody &&
      (p.emit (.bracketOpened i p.cursor.position)).assembly.canEnterBody) = false := hb
  unfold openBlock
  dsimp only
  rw [hb']
  simp [emit_eq_send, send, consume, h, Nesting.push]

theorem openBlock_of_body (h : p.nesting.opening = .entered) (i : Nat)
    (hb : p.opensBody g i = true) :
    p.openBlock g i =
      { p.send [.bracketOpened i p.cursor.position, .bodyEntered p.cursor.position] with
        cursor := p.cursor.consume (g.pair i).opener.length
        nesting :=
          { p.nesting with contexts := .body p.cursor.position none :: p.nesting.contexts }
        pendingBody := none
        statementStart := true } := by
  have hb' : (g.isBodyPair i && (p.emit (.bracketOpened i p.cursor.position)).awaitsBody &&
      (p.emit (.bracketOpened i p.cursor.position)).assembly.canEnterBody) = true := hb
  unfold openBlock
  dsimp only
  rw [hb']
  simp [emit_eq_send, send, consume, h, Nesting.push, Assembly.replay, Assembly.apply]

/-! ## Indentation bodies -/

/-- An opener of an indentation body opens it where it can, and is consumed in any case. -/
theorem openIndentBody_cases (p : Pass) (opener : List Char) :
    (∃ ds, p.openIndentBody opener =
      ({ p with pendingBody := none }.note ds).consume opener.length ∧
      (ds = [] ∨ ∃ first, ds = p.tooDeepNotes first p.cursor.position)) ∨
    (∃ pending, p.pendingBody = some pending ∧ p.assembly.canEnterBody = true ∧
      p.nesting.opening = .entered ∧
      p.openIndentBody opener =
        ({ p with
          pendingBody := none
          nesting :=
            { p.nesting with
              contexts := .body p.cursor.position (some pending.indent) :: p.nesting.contexts }
          }.send [.bodyEntered p.cursor.position]).consume opener.length) := by
  unfold openIndentBody
  cases hp : p.pendingBody with
  | none =>
    refine .inl ⟨[], ?_, .inl rfl⟩
    cases p
    cases hp
    simp
  | some pending =>
    dsimp only
    cases hb : p.assembly.canEnterBody with
    | false => exact .inl ⟨[], by simp, .inl rfl⟩
    | true =>
      cases ho : p.nesting.opening with
      | overflowed first =>
        refine .inl ⟨p.tooDeepNotes first p.cursor.position, ?_, .inr ⟨first, rfl⟩⟩
        simp only [if_true, tooDeep_eq, Nesting.absorb_push ho]
        rfl
      | entered =>
        refine .inr ⟨pending, rfl, rfl, rfl, ?_⟩
        simp only [if_true, Nesting.push, ho]
        rfl

/-- Leaving indentation bodies sends events and closes contexts; nothing else changes. -/
theorem leaveBodies_eq (indent : Nat) (cs : List Context) (p : Pass) :
    ∃ es outer, leaveBodies indent cs p =
      { p.send es with nesting := { p.nesting with contexts := outer } } := by
  fun_induction leaveBodies indent cs p with
  | case1 => exact ⟨[], _, rfl⟩
  | case2 opened level outer p hlt q ih =>
    obtain ⟨es, rest, h⟩ := ih
    refine ⟨.bodyLeft p.lastEnd :: .blockClosed outer.length :: es, rest, ?_⟩
    rw [h]
    simp [emit_eq_send, send, q, Assembly.replay]
  | case3 => exact ⟨[], _, rfl⟩

theorem dedent_eq (p : Pass) (g : Grammar) :
    ∃ es outer pending, p.dedent g =
      { p.send es with
        nesting := { p.nesting with contexts := outer }
        pendingBody := pending } := by
  unfold dedent
  split
  · obtain ⟨es, outer, h⟩ := leaveBodies_eq p.cursor.lineIndent p.nesting.contexts p
    rw [h, dropStaleBody_eq]
    exact ⟨es, outer, _, rfl⟩
  · exact ⟨[], _, _, rfl⟩

end Pass

end Marginalia
