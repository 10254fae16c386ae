import Marginalia.Proofs.Course
import Marginalia.Proofs.Graft
import Marginalia.Proofs.Stride

/-!
# Scans that go on

A scan that stands between two texts with nothing open goes on as a scan of the second text does
from its start. The two scans go step by step together: what the second finds, the first finds
further on, and adds to what it has found before.
-/

namespace Marginalia

variable {before : List Char}

/-! ## Cursors -/

namespace Cursor

variable {c : Cursor}

/-- The cursor in the text when it comes after another one. -/
def graft (before : List Char) (c : Cursor) : Cursor :=
  ⟨c.position.shift before, c.behind ++ before.reverse, c.ahead⟩

theorem consume_graft (c : Cursor) (k : Nat) :
    (c.graft before).consume k = (c.consume k).graft before := by
  simp [graft, consume, Position.after_shift]

theorem lineIndent_graft (h : before = [] ∨ Text.EndsLine before) (c : Cursor) :
    (c.graft before).lineIndent = c.lineIndent := by
  have hbehind : (c.graft before).lineBehind = c.lineBehind := by
    rcases h with rfl | h
    · simp [lineBehind, graft]
    · obtain ⟨init, rfl⟩ := List.getLast?_eq_some_iff.mp h
      have hnl : ('\n' :: init.reverse).takeWhile (fun d ↦ decide (d ≠ '\n')) = [] := rfl
      unfold lineBehind graft
      rw [List.reverse_concat, List.takeWhile_append, hnl, List.append_nil]
      split
      · rename_i hlen
        rw [(List.takeWhile_sublist _).eq_of_length hlen]
      · rfl
  unfold lineIndent
  rw [hbehind]
  rfl

/-- What a grammar sees at a cursor is the same if the text before leaves it open whether an operand
is expected. -/
theorem alike_graft {g : Grammar} (h : g.regexLiterals = true →
      ∀ d, before.reverse.find? (!Text.isBlank ·) = some d → d ∈ Grammar.operandLeads) (c : Cursor) :
    Alike g c (c.graft before) where
  startsWith _ _ := rfl
  peek? := rfl
  restOfLine := rfl
  operand hregex := by
    unfold Grammar.operandExpected lastSignificant? graft
    rw [List.find?_append]
    cases c.behind.find? (!Text.isBlank ·) with
    | some d => rfl
    | none =>
      cases hd : before.reverse.find? (!Text.isBlank ·) with
      | none => rfl
      | some d => simpa using h hregex d hd

variable {marker : List Char}

theorem commentLine_graft (c : Cursor) :
    (c.graft before).commentLine marker =
      ((c.commentLine marker).1.shift before, (c.commentLine marker).2.graft before) := by
  unfold commentLine
  dsimp only
  rw [show (c.graft before).restOfLine = c.restOfLine from rfl, consume_graft]
  exact congrArg (·, _) (CommentLine.strip_shift _ _ _)

/-- Line comments that are read, and the cursor after them, in the text when it comes after another
one. -/
def graftLines (before : List Char) (st : List CommentLine × Cursor) : List CommentLine × Cursor :=
  (st.1.map (·.shift before), st.2.graft before)

theorem nextCommentLine?_graft (st : List CommentLine × Cursor) :
    nextCommentLine? marker (graftLines before st) =
      (nextCommentLine? marker st).map (graftLines before) := by
  obtain ⟨lines, c⟩ := st
  unfold nextCommentLine?
  rw [show (graftLines before (lines, c)).2.ahead = c.ahead from rfl]
  dsimp only
  split
  · split
    · rw [show (graftLines before (lines, c)).2 = c.graft before from rfl, consume_graft,
        commentLine_graft]
      simp [graftLines]
    · rfl
  · rfl

theorem lineComments_graft (c : Cursor) :
    (c.graft before).lineComments marker = graftLines before (c.lineComments marker) := by
  have hstep : ∀ st st', st' = graftLines before st →
      Option.Rel (fun st st' ↦ st' = graftLines before st) (nextCommentLine? marker st)
        (nextCommentLine? marker st') := by
    rintro st _ rfl
    rw [nextCommentLine?_graft]
    cases nextCommentLine? marker st with
    | none => exact .none
    | some st' => exact .some rfl
  unfold lineComments
  rw [consume_graft, commentLine_graft]
  exact iterate_rel (fun st st' _ ↦ hstep st st') _ rfl

end Cursor

/-! ## Contexts -/

/-- The context in the text when it comes after another one. -/
def Context.shift (before : List Char) : Context → Context
  | .block pair opened => .block pair (opened.shift before)
  | .body opened indent => .body (opened.shift before) indent
  | .literal delimiter opened => .literal delimiter (opened.shift before)
  | .comment opened => .comment (opened.shift before)

/-- The open contexts in the text when it comes after another one. -/
def Nesting.shift (before : List Char) (n : Nesting) : Nesting :=
  { n with contexts := n.contexts.map (·.shift before) }

/-- What a pass does next in the text when it comes after another one. -/
def Mode.shift (before : List Char) : Mode → Mode
  | .code => .code
  | .comment form => .comment form
  | .tags c => .tags (c.shift before)
  | .skip => .skip

namespace Context

variable {g : Grammar}

theorem opened_shift (c : Context) : (c.shift before).opened = c.opened.shift before := by
  cases c <;> rfl

theorem isBody_shift (c : Context) : (c.shift before).isBody = c.isBody := by
  cases c <;> rfl

theorem closes_shift (i : Nat) (c : Context) :
    Pass.closes g i (c.shift before) = Pass.closes g i c := by
  rcases c with ⟨j, o⟩ | ⟨o, - | indent⟩ | ⟨j, o⟩ | o <;> rfl

theorem unwindNotes_shift (stop : Position) (closer : Option (List Char)) (c : Context) :
    (c.shift before).unwindNotes g (stop.shift before) closer =
      (c.unwindNotes g stop closer).map (·.shift before) := by
  have hopener : (c.shift before).opener? g = c.opener? g := by
    rcases c with ⟨j, o⟩ | ⟨o, - | indent⟩ | ⟨j, o⟩ | o <;> rfl
  unfold unwindNotes
  rw [hopener, opened_shift]
  split <;> rfl

/-- Without indentation bodies, it does not matter where the last token ended. -/
theorem leaving_shift (hg : g.indents = false) {c : Context} (hc : c.Usual g)
    (stop last last' : Position) :
    (c.shift before).leaving (stop.shift before) last' =
      (c.leaving stop last).map (·.shift before) := by
  rcases c with ⟨j, o⟩ | ⟨o, - | indent⟩ | ⟨j, o⟩ | o
  · rfl
  · rfl
  · rw [Usual, hg] at hc
    cases hc
  · rfl
  · rfl

end Context

namespace Nesting

@[simp]
theorem depth_shift (n : Nesting) : (n.shift before).depth = n.depth := List.length_map _

@[simp]
theorem opening_shift (n : Nesting) : (n.shift before).opening = n.opening := by
  unfold opening
  rw [depth_shift]
  rfl

end Nesting

/-! ## Passes -/

namespace Pass

variable {s : Setup} {g : Grammar} {k p q : Pass} {t : Token}

/-- What a scan has behind it when it goes on with another text: whole lines, an outline that the
outline of the other text can be grafted onto, and an end after which an operand may come. -/
structure Ground (g : Grammar) (before : List Char) (k : Pass) : Prop where
  lined : g.Lined
  line : before = [] ∨ Text.EndsLine before
  outline : k.assembly.EndsBy before
  operand : g.regexLiterals = true →
    ∀ c, before.reverse.find? (!Text.isBlank ·) = some c → c ∈ Grammar.operandLeads

/-- The pass `q` goes on from `k` as the pass `p` does from the start of its text. Where the last
token ended, whether the line has just started, and which anchor was the latest if none waits for a
body may differ. -/
structure Follows (before : List Char) (k p q : Pass) : Prop where
  cursor : q.cursor = p.cursor.graft before
  nesting : q.nesting = p.nesting.shift before
  assembly : ∃ last, q.assembly = k.assembly.graft before last p.assembly ∧
    (p.pendingBody.isSome → k.assembly.Aligned last p.assembly)
  mode : q.mode = p.mode.shift before
  statementStart : q.statementStart = p.statementStart
  pendingBody : q.pendingBody = p.pendingBody
  diagnostics : q.diagnostics = k.diagnostics ++ p.diagnostics.map (·.shift before)

namespace Follows

theorem depth (h : Follows before k p q) : q.nesting.depth = p.nesting.depth := by
  rw [h.nesting, Nesting.depth_shift]

theorem awaitsBody (h : Follows before k p q) : q.awaitsBody = p.awaitsBody := by
  unfold Pass.awaitsBody
  rw [h.pendingBody, h.depth]

theorem inStatements (h : Follows before k p q) : q.inStatements g = p.inStatements g := by
  unfold Pass.inStatements Nesting.top?
  rw [h.nesting, Nesting.shift, List.head?_map]
  rcases p.nesting.contexts.head? with - | ⟨j, o⟩ | ⟨o, i⟩ | ⟨j, o⟩ | o <;> rfl

theorem alike (hk : Ground g before k) (h : Follows before k p q) :
    Cursor.Alike g p.cursor q.cursor := by
  rw [h.cursor]
  exact Cursor.alike_graft hk.operand _

theorem enclosingKind? (h : Follows before k p q) :
    q.assembly.enclosingKind? = p.assembly.enclosingKind? := by
  obtain ⟨last, hassembly, -⟩ := h.assembly
  unfold Assembly.enclosingKind?
  rw [hassembly, Assembly.graft]
  cases p.assembly.frames with
  | nil => rfl
  | cons f fs =>
    simp only [Assembly.graftFrames, Node.shift_eq, Option.map_map]
    rfl

/-- Only an anchor that waits for its body can enter it. -/
theorem opensBody (h : Follows before k p q) (i : Nat) : q.opensBody g i = p.opensBody g i := by
  unfold Pass.opensBody
  rw [h.awaitsBody]
  cases hawait : p.awaitsBody with
  | false => simp
  | true =>
    have hpending : p.pendingBody.isSome := by
      unfold Pass.awaitsBody at hawait
      cases hp : p.pendingBody with
      | none => rw [hp] at hawait; cases hawait
      | some b => rfl
    obtain ⟨last, hassembly, haligned⟩ := h.assembly
    rw [hassembly, Assembly.graft_canEnterBody (haligned hpending)]

/-! ### Parts of transitions -/

theorem consume (h : Follows before k p q) (n : Nat) :
    Follows before k (p.consume n) (q.consume n) :=
  { h with cursor := by simp only [Pass.consume, h.cursor, Cursor.consume_graft] }

theorem note (h : Follows before k p q) (ds : List Diagnostic) :
    Follows before k (p.note ds) (q.note (ds.map (·.shift before))) :=
  { h with diagnostics := by simp [Pass.note, h.diagnostics] }

/-- Events have the same effect; an anchor has to wait for a body that opens. -/
theorem send (hk : Ground g before k) (h : Follows before k p q) (es : List Event)
    (hentered : ∀ o, .bodyEntered o ∈ es → p.pendingBody.isSome) :
    Follows before k (p.send es) (q.send (es.map (·.shift before))) := by
  obtain ⟨last, hassembly, haligned⟩ := h.assembly
  obtain ⟨last', hreplay, haligned'⟩ := Assembly.graft_replay hk.outline fun o ho ↦
    haligned (hentered o ho)
  refine { h with assembly := ⟨last', ?_, fun hp ↦ haligned' (haligned hp)⟩ }
  rw [Pass.send, hassembly, hreplay]
  rfl

/-- The wait for a body may end. -/
theorem setBody (h : Follows before k p q) (body : Option PendingBody)
    (hbody : body.isSome → p.pendingBody.isSome) :
    Follows before k { p with pendingBody := body } { q with pendingBody := body } := by
  obtain ⟨last, hassembly, haligned⟩ := h.assembly
  exact { h with assembly := ⟨last, hassembly, fun hp ↦ haligned (hbody hp)⟩, pendingBody := rfl }

theorem cancelBody (h : Follows before k p q) : Follows before k p.cancelBody q.cancelBody := by
  rw [cancelBody_eq, cancelBody_eq, h.awaitsBody, h.pendingBody]
  refine h.setBody _ fun hsome ↦ ?_
  split at hsome
  · cases hsome
  · exact hsome

theorem afterNewline (h : Follows before k p q) (g : Grammar) :
    Follows before k (p.afterNewline g) (q.afterNewline g) := by
  have hstart : Follows before k
      { p with lineStart := true, statementStart := p.statementStart || p.inStatements g }
      { q with lineStart := true, statementStart := q.statementStart || q.inStatements g } :=
    { h with statementStart := by simp only [h.statementStart, h.inStatements] }
  unfold Pass.afterNewline
  dsimp only
  split
  · exact hstart.cancelBody
  · exact hstart

/-! ### Tokens -/

theorem literal (h : Follows before k p q) (g : Grammar) (i : Nat) :
    Follows before k (p.literal g i) (q.literal g i) := by
  have hahead : q.cursor.ahead = p.cursor.ahead := by rw [h.cursor]; rfl
  rw [literal_eq, literal_eq]
  generalize g.delimiter i = d
  have hlength : q.literalLength d = p.literalLength d := by
    rw [literalLength, literalLength, hahead]
  have hnotes : q.literalNotes d = (p.literalNotes d).map (·.shift before) := by
    unfold literalNotes
    rw [hlength, hahead, (h.consume _).cursor, h.cursor]
    cases (d.tail (p.cursor.ahead.drop d.opener.length)).2 <;> rfl
  rw [hnotes, hlength]
  exact (h.consume _).note _

theorem not_bodyEntered_leaving {stop last o : Position} (c : Context) :
    .bodyEntered o ∉ c.leaving stop last := by
  intro h
  rcases Context.eq_of_mem_leaving h with he | he
  · cases he
  · cases he

theorem not_bodyEntered_closeEvents {i n : Nat} {closed : Context} (o : Position) :
    .bodyEntered o ∉ p.closeEvents g i n closed := by
  intro ho
  rcases of_mem_closeEvents ho with he | he | he | he
  all_goals cases he

theorem closeThrough (hk : Ground g before k) (h : Follows before k p q)
    (husual : ∀ c ∈ p.nesting.contexts, c.Usual g) (i n : Nat) (closed : Context) :
    Follows before k (p.closeThrough g i n closed)
      (q.closeThrough g i n (closed.shift before)) := by
  have hcontexts : q.nesting.contexts = p.nesting.contexts.map (·.shift before) := by
    rw [h.nesting]
    rfl
  have hevents : q.closeEvents g i n (closed.shift before) =
      (p.closeEvents g i n closed).map (·.shift before) := by
    have hleaving : ∀ c ∈ p.nesting.contexts.take n,
        (c.shift before).leaving (p.cursor.position.shift before) q.lastEnd =
          (c.leaving p.cursor.position p.lastEnd).map (·.shift before) :=
      fun c hc ↦ Context.leaving_shift hk.lined.body (husual c (List.mem_of_mem_take hc)) _ _ _
    unfold closeEvents
    rw [hcontexts, h.cursor, Cursor.consume_graft, Context.isBody_shift, ← List.map_take,
      ← List.map_drop, List.flatMap_map, List.length_map, List.map_append, List.map_append,
      List.map_flatMap]
    congr 2
    · exact List.flatMap_congr hleaving
    · split <;> rfl
  have hnotes : q.closeNotes g i n = (p.closeNotes g i n).map (·.shift before) := by
    unfold closeNotes
    rw [hcontexts, h.cursor, ← List.map_take, List.flatMap_map, List.map_flatMap]
    exact List.flatMap_congr fun c _ ↦ Context.unwindNotes_shift _ _ c
  have hclosed : Follows before k
      { p with
        cursor := p.cursor.consume (g.pair i).closer.length
        nesting := { p.nesting with contexts := p.nesting.contexts.drop (n + 1) }
        pendingBody := p.pendingBody.filter (·.depth ≤ (p.nesting.contexts.drop (n + 1)).length) }
      { q with
        cursor := q.cursor.consume (g.pair i).closer.length
        nesting := { q.nesting with contexts := q.nesting.contexts.drop (n + 1) }
        pendingBody :=
          q.pendingBody.filter (·.depth ≤ (q.nesting.contexts.drop (n + 1)).length) } := by
    rw [hcontexts, ← List.map_drop, List.length_map, h.pendingBody]
    have hbody := (h.consume (g.pair i).closer.length).setBody
      (p.pendingBody.filter (·.depth ≤ (p.nesting.contexts.drop (n + 1)).length)) fun hsome ↦ ?_
    · exact { hbody with nesting := by rw [h.nesting]; rfl }
    · cases hp : p.pendingBody with
      | none => rw [hp] at hsome; cases hsome
      | some b => exact hp ▸ rfl
  have hsend := (hclosed.send hk (p.closeEvents g i n closed)
    fun o ho ↦ absurd ho (not_bodyEntered_closeEvents o)).note (p.closeNotes g i n)
  rw [closeThrough_eq, closeThrough_eq, hevents, hnotes]
  exact { hsend with
    statementStart := by
      simp only [Context.isBody_shift]
      exact congrArg _ hclosed.inStatements }

theorem closeBlock (hk : Ground g before k) (h : Follows before k p q)
    (husual : ∀ c ∈ p.nesting.contexts, c.Usual g) (i : Nat) :
    Follows before k (p.closeBlock g i) (q.closeBlock g i) := by
  have hemit : Follows before k (p.emit (.bracketClosed i p.cursor.position))
      (q.emit (.bracketClosed i q.cursor.position)) := by
    rw [h.cursor]
    exact h.send hk [.bracketClosed i p.cursor.position] (by simp)
  unfold Pass.closeBlock
  dsimp only
  generalize hp : p.emit (.bracketClosed i p.cursor.position) = p' at hemit
  generalize q.emit (.bracketClosed i q.cursor.position) = q' at hemit
  have husual' : ∀ c ∈ p'.nesting.contexts, c.Usual g := by rw [← hp]; exact husual
  have hstray : Follows before k (p'.strayClose (g.pair i).closer)
      (q'.strayClose (g.pair i).closer) := by
    have hnote : q'.strayNote (g.pair i).closer = (p'.strayNote (g.pair i).closer).shift before := by
      unfold strayNote
      rw [hemit.cursor, Cursor.consume_graft]
      rfl
    rw [strayClose_eq, strayClose_eq, hnote]
    exact (hemit.consume _).note [_]
  have hfind : q'.nesting.contexts.findIdx? (closes g i) =
      p'.nesting.contexts.findIdx? (closes g i) := by
    rw [hemit.nesting, Nesting.shift, List.findIdx?_map]
    exact Cursor.findIdx?_congr fun c _ ↦ Context.closes_shift i c
  rw [hfind, show q'.nesting.overflow = p'.nesting.overflow by rw [hemit.nesting]; rfl]
  split
  · have habsorb : Follows before k { p' with nesting := p'.nesting.absorb }
        { q' with nesting := q'.nesting.absorb } :=
      { hemit with nesting := by rw [hemit.nesting]; rfl }
    exact habsorb.consume _
  · cases p'.nesting.contexts.findIdx? (closes g i) with
    | none => exact hstray
    | some n =>
      dsimp only
      rw [show q'.nesting.contexts = p'.nesting.contexts.map (·.shift before) by
        rw [hemit.nesting]; rfl, List.getElem?_map]
      cases p'.nesting.contexts[n]? with
      | none => exact hstray
      | some closed => exact hemit.closeThrough hk husual' i n closed

theorem openBlock (hk : Ground g before k) (h : Follows before k p q) (i : Nat) :
    Follows before k (p.openBlock g i) (q.openBlock g i) := by
  have hopening : q.nesting.opening = p.nesting.opening := by
    rw [h.nesting, Nesting.opening_shift]
  have hlater := h.consume (g.pair i).opener.length
  cases ho : p.nesting.opening with
  | overflowed first =>
    have hnotes : q.tooDeepNotes first q.cursor.position =
        (p.tooDeepNotes first p.cursor.position).map (·.shift before) := by
      unfold tooDeepNotes
      rw [h.nesting, h.cursor]
      split <;> rfl
    have hsend := ((hlater.send hk [.bracketOpened i p.cursor.position] (by simp)).note
      (p.tooDeepNotes first p.cursor.position)).setBody
      (if p.opensBody g i then none else p.pendingBody) fun hsome ↦ ?_
    · rw [openBlock_of_overflowed (hopening.trans ho), openBlock_of_overflowed ho, hnotes,
        h.opensBody, h.pendingBody, h.cursor]
      exact { hsend with
        cursor := Cursor.consume_graft _ _
        nesting := by rw [h.nesting]; rfl
        statementStart := rfl }
    · split at hsome
      · cases hsome
      · exact hsome
  | entered =>
    cases hb : p.opensBody g i with
    | false =>
      have hsend := hlater.send hk [.bracketOpened i p.cursor.position] (by simp)
      rw [openBlock_of_block (hopening.trans ho) i (h.opensBody i |>.trans hb),
        openBlock_of_block ho i hb, h.cursor]
      exact { hsend with
        cursor := Cursor.consume_graft _ _
        nesting := by rw [h.nesting]; rfl
        statementStart := rfl }
    | true =>
      have hpending : p.pendingBody.isSome := by
        simp only [Pass.opensBody, Bool.and_eq_true, Pass.awaitsBody] at hb
        cases hp : p.pendingBody with
        | none => simp [hp] at hb
        | some b => rfl
      have hsend := (hlater.send hk
        [.bracketOpened i p.cursor.position, .bodyEntered p.cursor.position]
        fun _ _ ↦ hpending).setBody none fun hsome ↦ by cases hsome
      rw [openBlock_of_body (hopening.trans ho) i (h.opensBody i |>.trans hb),
        openBlock_of_body ho i hb, h.cursor]
      exact { hsend with
        cursor := Cursor.consume_graft _ _
        nesting := by rw [h.nesting]; rfl
        statementStart := rfl }

/-- An anchor is found in the same place of the text, and waits for its body there. -/
theorem addAnchor (hk : Ground g before k) (h : Follows before k p q) (r : Recognition) :
    Follows before k (p.addAnchor r) (q.addAnchor r) := by
  have hlength : r.headerLength q.cursor.ahead = r.headerLength p.cursor.ahead := by
    rw [h.cursor]
    rfl
  have hindent : q.cursor.lineIndent = p.cursor.lineIndent := by
    rw [h.cursor, Cursor.lineIndent_graft hk.line]
  have hlater := h.consume (r.headerLength p.cursor.ahead)
  obtain ⟨last, hassembly, -⟩ := h.assembly
  obtain ⟨last', hanchor, haligned⟩ := Assembly.graft_anchor hk.outline last p.assembly
    ⟨r.kind, String.ofList r.name,
      (p.cursor.consume (r.headerLength p.cursor.ahead)).spanFrom p.cursor.position⟩
    p.nesting.depth
  unfold Pass.addAnchor
  rw [hlength, hindent, h.depth]
  refine { hlater with assembly := ⟨last', ?_, fun _ ↦ haligned⟩, pendingBody := rfl }
  refine Eq.trans ?_ hanchor
  simp only [Pass.emit, Pass.consume, Assembly.apply, hassembly, h.cursor, Cursor.consume_graft]
  rfl

theorem looksAlike (hk : Ground g before k) (h : Follows before k p q) : LooksAlike g p q := by
  have hlike := h.alike hk
  have hg := hk.lined.toInLines
  exact
    { comment := hlike.commentStart? hg
      string := hlike.stringStart? hg
      regex := hlike.regexLiteral?
      closer := hlike.blockClose? hg
      opener := hlike.blockOpen? hg
      body := by rw [bodyOpener?_of_braces hk.lined.body, bodyOpener?_of_braces hk.lined.body]
      separator := hlike.statementEnd? hg
      starts := h.statementStart }

theorem ahead (hk : Ground g before k) (h : Follows before k p q) {t : Token} (ht : p.Ahead g t) :
    q.Ahead g t := by
  have hahead : q.cursor.ahead = p.cursor.ahead := by rw [h.cursor]; rfl
  have htoken := (h.looksAlike hk).tokenAhead_eq (by rw [h.enclosingKind?, hahead])
  exact ahead_iff.mpr (htoken.trans (ahead_iff.mp ht))

theorem take (hk : Ground g before k) (h : Follows before k p q)
    (husual : ∀ c ∈ p.nesting.contexts, c.Usual g) (ht : p.Ahead g t) :
    Follows before k (p.take g t) (q.take g t) := by
  have hlater : Follows before k { p with statementStart := false }
      { q with statementStart := false } := { h with statementStart := rfl }
  cases ht with
  | comment found => exact { h with mode := rfl }
  | literal comment found => exact hlater.literal g _
  | regex comment string found => exact hlater.consume _
  | closer comment string regex found => exact h.closeBlock hk husual _
  | opener comment string regex closer found => exact h.openBlock hk _
  | indentation unmarked found =>
    rw [bodyOpener?_of_braces hk.lined.body] at found
    cases found
  | separator unmarked body found =>
    rename_i text
    have hcancel := (h.consume text.length).cancelBody
    exact { hcancel with statementStart := hcancel.inStatements }
  | anchor unmarked body separator starts found => exact hlater.addAnchor hk _
  | plain unmarked body separator starts header => exact { hlater.cancelBody with mode := rfl }
  | inner unmarked body separator goesOn => exact { h with mode := rfl }

theorem atToken (hk : Ground g before k) (h : Follows before k p q) :
    Follows before k (p.atToken g) (q.atToken g) := by
  rw [atToken_of_braces hk.lined.body, atToken_of_braces hk.lined.body]
  exact { h with }

/-! ### Skipped code -/

theorem skipStep (hk : Ground s.grammar before k) (h : Follows before k p q) :
    Option.Rel (Follows before k) (p.skipStep s) (q.skipStep s) :=
  (h.looksAlike hk).rel_skipStep (h.alike hk).peek?
    (fun _ _ _ ↦ { h.literal s.grammar _ with }) (fun _ ↦ { h.consume _ with }) (h.consume 1)
    { h.consume 1 with }

theorem skip (hk : Ground s.grammar before k) (h : Follows before k p q) :
    Follows before k (p.skip s) (q.skip s) := by
  have hlater : Follows before k (p.consume 1).markEnd (q.consume 1).markEnd :=
    { h.consume 1 with }
  have hlength : (q.consume 1).markEnd.cursor.ahead.length =
      (p.consume 1).markEnd.cursor.ahead.length := by
    rw [hlater.cursor]
    rfl
  unfold Pass.skip
  dsimp only
  rw [hlength]
  exact { iterate_rel (fun _ _ _ hpq ↦ hpq.skipStep hk) _ hlater with mode := rfl }

/-! ### Comments -/

theorem lineComment (h : Follows before k p q) (g : Grammar) (marker : List Char) :
    Follows before k (p.lineComment g marker) (q.lineComment g marker) := by
  have hlines : q.cursor.lineComments marker =
      Cursor.graftLines before (p.cursor.lineComments marker) := by
    rw [h.cursor, Cursor.lineComments_graft]
  rw [lineComment_eq, lineComment_eq, hlines, h.cursor]
  generalize p.cursor.lineComments marker = found
  obtain ⟨lines, c⟩ := found
  have hcursor : Follows before k { p with cursor := c } { q with cursor := c.graft before } :=
    { h with cursor := rfl }
  simp only [Cursor.graftLines, List.length_map]
  split
  · exact { hcursor with mode := rfl }
  · exact { hcursor.afterNewline g with mode := rfl }

theorem blockComment (h : Follows before k p q) (opener closer : List Char) :
    Follows before k (p.blockComment opener closer) (q.blockComment opener closer) := by
  have hfound : q.blockFound opener closer = p.blockFound opener closer := by
    unfold blockFound
    rw [h.cursor]
    rfl
  have hlength : q.blockLength opener closer = p.blockLength opener closer := by
    rw [blockLength, blockLength, hfound]
  have hspan : q.blockSpan opener closer = (p.blockSpan opener closer).shift before := by
    unfold blockSpan
    rw [hlength, h.cursor, Cursor.consume_graft]
    rfl
  have hnotes : q.blockNotes opener closer =
      (p.blockNotes opener closer).map (·.shift before) := by
    unfold blockNotes
    rw [hfound, hspan]
    split <;> rfl
  have hlater := (h.consume (p.blockLength opener closer)).note (p.blockNotes opener closer)
  have hlines : Comment.blockLines (p.blockFound opener closer).1
        (q.cursor.consume opener.length).position =
      (Comment.blockLines (p.blockFound opener closer).1
        (p.cursor.consume opener.length).position).map (·.shift before) := by
    rw [h.cursor, Cursor.consume_graft]
    exact Comment.blockLines_shift _ _
  rw [blockComment_eq, blockComment_eq, hnotes, hlength, hspan, hfound, hlines]
  exact { hlater with mode := rfl }

theorem placeTags (hk : Ground g before k) (h : Follows before k p q) (registry : Registry)
    (c : Comment) :
    Follows before k (p.placeTags registry c) (q.placeTags registry (c.shift before)) := by
  have hevents : q.commentEvents registry (c.shift before) =
      (p.commentEvents registry c).map (·.shift before) := by
    unfold commentEvents
    rw [Comment.tags_shift, h.depth, List.isEmpty_map]
    split
    · rfl
    · simp [Event.shift, ParsedTag.shift, Comment.shift, Function.comp_def]
  have hnotes : ((c.shift before).tags registry).flatMap (·.diagnostics) =
      ((c.tags registry).flatMap (·.diagnostics)).map (·.shift before) := by
    rw [Comment.tags_shift, List.flatMap_map, List.map_flatMap]
    rfl
  have hsend := (h.send hk (p.commentEvents registry c) ?_).note
    ((c.tags registry).flatMap (·.diagnostics))
  · rw [placeTags_eq, placeTags_eq, hevents, hnotes]
    exact { hsend with mode := rfl }
  · intro o ho
    cases eq_of_mem_commentEvents ho

theorem readComment (h : Follows before k p q) (g : Grammar) (form : CommentForm) :
    Follows before k (p.readComment g form) (q.readComment g form) := by
  cases form with
  | line i => exact h.lineComment g _
  | block i => exact h.blockComment _ _

/-- The passes go on together, or end together. -/
theorem step (hk : Ground s.grammar before k) (h : Follows before k p q)
    (husual : ∀ c ∈ p.nesting.contexts, c.Usual s.grammar) :
    Option.Rel (Follows before k) (p.step s) (q.step s) := by
  have hpeek : q.cursor.peek? = p.cursor.peek? := (h.alike hk).peek?
  have hmode : ∀ {m : Mode}, p.mode = m → q.mode = m.shift before :=
    fun hm ↦ h.mode.trans (congrArg _ hm)
  refine rel_step (fun hend ↦ ?_) fun p' hp' ↦ ?_
  · obtain ⟨hnil, hm⟩ := step_eq_none_iff.mp hend
    exact step_eq_none_iff.mpr ⟨hpeek.trans hnil, hm.imp hmode hmode⟩
  cases hp' with
  | comment mode => exact ⟨_, .comment (hmode mode), h.readComment s.grammar _⟩
  | tags mode => exact ⟨_, .tags (hmode mode), h.placeTags hk s.registry _⟩
  | newline mode peek =>
    exact ⟨_, .newline (hmode mode) (hpeek.trans peek), (h.consume 1).afterNewline s.grammar⟩
  | blank mode peek inline blank =>
    exact ⟨_, .blank (hmode mode) (hpeek.trans peek) inline blank, h.consume 1⟩
  | token mode peek blank ahead =>
    have husual' : ∀ c ∈ (p.atToken s.grammar).nesting.contexts, c.Usual s.grammar := by
      rw [atToken_of_braces hk.lined.body]
      exact husual
    have htoken := h.atToken hk
    exact ⟨_, .token (hmode mode) (hpeek.trans peek) blank (htoken.ahead hk ahead),
      { htoken.take hk husual' ahead with }⟩
  | skip mode peek => exact ⟨_, .skip (hmode mode) (hpeek.trans peek), h.skip hk⟩

/-- What is open at the end of the text is closed in the same way. -/
theorem closeAll (hk : Ground g before k) (h : Follows before k p q)
    (husual : ∀ c ∈ p.nesting.contexts, c.Usual g) :
    Follows before k (p.closeAll g) (q.closeAll g) := by
  have hcontexts : q.nesting.contexts = p.nesting.contexts.map (·.shift before) := by
    rw [h.nesting]
    rfl
  have hevents : q.nesting.contexts.flatMap (Context.leaving q.cursor.position q.lastEnd) =
      (p.nesting.contexts.flatMap (Context.leaving p.cursor.position p.lastEnd)).map
        (·.shift before) := by
    rw [hcontexts, h.cursor, List.flatMap_map, List.map_flatMap]
    exact List.flatMap_congr fun c hc ↦
      Context.leaving_shift hk.lined.body (husual c hc) _ _ _
  have hnotes : q.nesting.contexts.flatMap (Context.unwindNotes g q.cursor.position none) =
      (p.nesting.contexts.flatMap (Context.unwindNotes g p.cursor.position none)).map
        (·.shift before) := by
    rw [hcontexts, h.cursor, List.flatMap_map, List.map_flatMap]
    exact List.flatMap_congr fun c _ ↦ Context.unwindNotes_shift _ _ c
  have hsend := (h.send hk
    (p.nesting.contexts.flatMap (Context.leaving p.cursor.position p.lastEnd)) ?_).note
    (p.nesting.contexts.flatMap (Context.unwindNotes g p.cursor.position none))
  · unfold Pass.closeAll
    rw [foldl_unwind, foldl_unwind, hevents, hnotes]
    have hlimit : q.nesting.limit = p.nesting.limit := by
      rw [h.nesting]
      rfl
    exact { hsend with nesting := congrArg (fun n ↦ ({ limit := n } : Nesting)) hlimit }
  · intro o ho
    obtain ⟨c, -, hc⟩ := List.mem_flatMap.mp ho
    exact absurd hc (not_bodyEntered_leaving c)

end Follows

end Pass

end Marginalia
