import Marginalia.Proofs.Headers
import Marginalia.Proofs.Sequel
import Marginalia.Proofs.SoundCourse
import Marginalia.Proofs.Stride

/-!
# Text added after a scan

A scan of a text goes the same way when more text comes after it, as long as it stays before the
end of the first. So a scan that stops between two texts has scanned the first one. One thing shows
what comes after: a string literal whose last newline is escaped ends with the text when nothing
follows it, and with its line when a newline does.
-/

namespace Marginalia

/-- The token, in a text with more text after it. -/
def Token.extend (more : List Char) : Token → Token
  | .anchor r => .anchor (r.extend more)
  | t => t

namespace Pass

variable {s : Setup} {g : Grammar} {text more : List Char} {p q : Pass} {t : Token}

/-- The pass over a text with more text after it. -/
def extend (text more : List Char) (p : Pass) : Pass :=
  { p with
    cursor := p.cursor.extend more
    assembly := p.assembly.extend more
    diagnostics := p.diagnostics.map (·.followedBy text more) }

theorem extend_nil (text : List Char) (p : Pass) : p.extend text [] = p := by
  have hsame : ∀ d : Diagnostic, d.followedBy text [] = d := by
    intro d
    simp [Diagnostic.followedBy]
  simp [extend, Cursor.extend, Assembly.extend, hsame]

theorem extend_consume {k : Nat} (hk : k ≤ p.cursor.ahead.length) :
    (p.extend text more).consume k = (p.consume k).extend text more := by
  unfold consume extend
  rw [← Cursor.extend_consume hk]

theorem extend_send {es : List Event}
    (h : ∀ e ∈ es, e.StartsBy (Text.byteSize p.assembly.source)) :
    (p.extend text more).send es = (p.send es).extend text more := by
  unfold send extend
  rw [← Assembly.extend_replay more h]

theorem extend_note (ds : List Diagnostic) :
    (p.extend text more).note (ds.map (·.followedBy text more)) =
      (p.note ds).extend text more := by
  unfold note extend
  rw [List.map_append]

theorem extend_note_of_eq {ds : List Diagnostic} (h : ∀ d ∈ ds, d.followedBy text more = d) :
    (p.extend text more).note ds = (p.note ds).extend text more := by
  rw [← extend_note, List.map_congr_left h, List.map_id']

/-! ## Tokens -/

/-- What is reported of a literal whose end does not show what comes after, and of one whose end
does. -/
theorem followedBy_literal {stop stop' : LiteralEnd} (span : Span)
    (h : stop' = stop ∧ stop' ≠ .endOfInput ∨
      stop = .endOfInput ∧ stop' = .endOfLine ∧ ['\\', '\n'] <:+ text ∧ more.head? = some '\n') :
    (stop'.diagnostic? span).toList =
      (stop.diagnostic? span).toList.map (·.followedBy text more) := by
  rcases h with ⟨rfl, hne⟩ | ⟨rfl, rfl, hsuffix, hnl⟩
  · cases stop' with
    | closed => rfl
    | endOfLine =>
      simp only [LiteralEnd.diagnostic?, Option.toList_some, List.map_cons, List.map_nil]
      rw [Diagnostic.followedBy_of_message_ne (by simp)]
    | endOfInput => exact absurd rfl hne
  · simp [LiteralEnd.diagnostic?, Diagnostic.followedBy, Diagnostic.beforeNewline, hsuffix, hnl]

/-- If the token at the cursor is a literal, it ends before what comes after the text. -/
def LiteralFits (g : Grammar) (text more : List Char) (p : Pass) : Prop :=
  (∀ c, p.cursor.peek? = some c → Text.isBlank c = false) → g.commentStart? p.cursor = none →
    ∀ i, g.stringStart? p.cursor = some i →
      (p.extend text more).literalLength (g.delimiter i) ≤ p.cursor.ahead.length

/-- A literal that leaves all of what comes after ends before it. -/
theorem literalLength_le_of_fit {i : Nat} (hmore : more ≠ [])
    (hfit : more.length ≤ ((p.extend text more).literal g i).cursor.ahead.length) :
    (p.extend text more).literalLength (g.delimiter i) ≤ p.cursor.ahead.length := by
  have hpos := List.length_pos_iff.mpr hmore
  rw [literal_eq] at hfit
  simp only [note, consume, Cursor.consume_ahead, List.length_drop] at hfit
  rw [show (p.extend text more).cursor.ahead.length = p.cursor.ahead.length + more.length from
    List.length_append] at hfit
  omega

theorem extend_literal {i : Nat} {d : StringDelimiter} (hi : g.delimiter i = d)
    (hd : d.escape = none ∨ d.escape = some '\\')
    (hopener : p.cursor.startsWith d.opener = true) (hline : '\n' ∉ d.opener)
    (hends : Text.EndsLine p.cursor.ahead) (htext : p.cursor.ahead <:+ text) (hmore : more ≠ [])
    (hfit : (p.extend text more).literalLength d ≤ p.cursor.ahead.length) :
    (p.extend text more).literal g i = (p.literal g i).extend text more := by
  obtain ⟨hne, rest, hrest⟩ := Cursor.startsWith_iff.mp hopener
  have hrestne : rest ≠ [] := by
    rintro rfl
    rw [List.append_nil] at hrest
    exact hline (hrest ▸ hends.mem)
  have hlen := congrArg List.length hrest
  have hpos := List.length_pos_iff.mpr hmore
  have hdrop : p.cursor.ahead.drop d.opener.length = rest := by rw [← hrest, List.drop_left]
  have hdrop' : (p.extend text more).cursor.ahead.drop d.opener.length = rest ++ more := by
    rw [← hdrop]
    exact List.drop_append_of_le_length (Cursor.length_pos_of_startsWith hopener).2
  have hle : (d.tail (rest ++ more)).1 ≤ rest.length := by
    rw [literalLength, hdrop'] at hfit
    rw [List.length_append] at hlen
    omega
  obtain ⟨htail, hstop⟩ :=
    StringDelimiter.tail_append hd (hends.of_suffix ⟨d.opener, hrest⟩ hrestne) hmore hle
  have hlength : (p.extend text more).literalLength d = p.literalLength d := by
    rw [literalLength, literalLength, hdrop, hdrop', htail]
  have hfits : p.literalLength d ≤ p.cursor.ahead.length := by
    rw [← hlength, literalLength, hdrop', ← hlen, List.length_append]
    omega
  have hnotes : (p.extend text more).literalNotes d =
      (p.literalNotes d).map (·.followedBy text more) := by
    unfold literalNotes
    rw [hlength, extend_consume hfits, hdrop, hdrop']
    refine followedBy_literal _ ?_
    rcases hstop with hstop | ⟨hin, hend, hsuffix, hnl⟩
    · refine .inl ⟨hstop, fun hin ↦ ?_⟩
      have hstops := (d.tail_spec (rest ++ more)).2
      rw [hin] at hstops
      have hover := List.drop_eq_nil_iff.mp hstops
      rw [List.length_append] at hover
      omega
    · exact .inr ⟨hin, hend, hsuffix.trans (⟨d.opener, hrest⟩ : rest <:+ _) |>.trans htext, hnl⟩
  rw [literal_eq, literal_eq, hi, hnotes, hlength, extend_consume hfits, extend_note]

theorem startsBy_closeEvents {size i k : Nat} {closed : Context} :
    ∀ e ∈ p.closeEvents g i k closed, e.StartsBy size := by
  intro e he
  obtain rfl | rfl | rfl | rfl := of_mem_closeEvents he
  all_goals trivial

theorem followedBy_unwindNotes {stop : Position} {closer : Option (List Char)} {c : Context}
    {d : Diagnostic} (h : d ∈ c.unwindNotes g stop closer) : d.followedBy text more = d := by
  refine Diagnostic.followedBy_of_kind_ne ?_
  rcases (Context.of_mem_unwindNotes h).1 with hkind | hkind
  · simp [hkind]
  · simp [hkind]

theorem extend_closeThrough {i k : Nat} {closed : Context}
    (hle : (g.pair i).closer.length ≤ p.cursor.ahead.length) :
    (p.extend text more).closeThrough g i k closed =
      (p.closeThrough g i k closed).extend text more := by
  have hcursor : (p.extend text more).cursor.consume (g.pair i).closer.length =
      (p.cursor.consume (g.pair i).closer.length).extend more := Cursor.extend_consume hle more
  have hevents : (p.extend text more).closeEvents g i k closed = p.closeEvents g i k closed := by
    unfold closeEvents
    rw [hcursor]
    rfl
  have hnotes : ∀ d ∈ p.closeNotes g i k, d.followedBy text more = d := by
    intro d hd
    obtain ⟨c, -, hd⟩ := List.mem_flatMap.mp hd
    exact followedBy_unwindNotes hd
  rw [closeThrough_eq, closeThrough_eq, hevents, hcursor]
  let q : Pass := { p with
    cursor := p.cursor.consume (g.pair i).closer.length
    nesting := { p.nesting with contexts := p.nesting.contexts.drop (k + 1) }
    pendingBody := p.pendingBody.filter (·.depth ≤ (p.nesting.contexts.drop (k + 1)).length) }
  have hq : ((q.extend text more).send (p.closeEvents g i k closed)).note (p.closeNotes g i k) =
      ((q.send (p.closeEvents g i k closed)).note (p.closeNotes g i k)).extend text more := by
    rw [extend_send startsBy_closeEvents, extend_note_of_eq hnotes]
  exact congrArg (fun r : Pass ↦ { r with
    statementStart := (closed.isBody || (g.pair i).holdsStatements) && q.inStatements g }) hq

theorem extend_closeBlock {i : Nat} (hle : (g.pair i).closer.length ≤ p.cursor.ahead.length) :
    (p.extend text more).closeBlock g i = (p.closeBlock g i).extend text more := by
  have hemit : (p.extend text more).emit (.bracketClosed i p.cursor.position) =
      (p.emit (.bracketClosed i p.cursor.position)).extend text more := rfl
  unfold closeBlock
  dsimp only
  rw [show (p.extend text more).cursor.position = p.cursor.position from rfl, hemit]
  generalize hq : p.emit (.bracketClosed i p.cursor.position) = q
  have hle' : (g.pair i).closer.length ≤ q.cursor.ahead.length := by rwa [← hq]
  have hstray : (q.extend text more).strayClose (g.pair i).closer =
      (q.strayClose (g.pair i).closer).extend text more := by
    rw [strayClose_eq, strayClose_eq, extend_consume hle']
    have hnote : (q.extend text more).strayNote (g.pair i).closer =
        q.strayNote (g.pair i).closer := by
      unfold strayNote
      rw [show (q.extend text more).cursor.consume (g.pair i).closer.length =
        (q.cursor.consume (g.pair i).closer.length).extend more from Cursor.extend_consume hle' more]
      rfl
    rw [hnote, extend_note_of_eq]
    intro d hd
    rw [List.mem_singleton.mp hd]
    exact Diagnostic.followedBy_of_kind_ne (by simp [strayNote])
  rw [show (q.extend text more).nesting = q.nesting from rfl]
  split
  · exact extend_consume (p := { q with nesting := q.nesting.absorb }) hle'
  · cases q.nesting.contexts.findIdx? (closes g i) with
    | none => exact hstray
    | some k =>
      dsimp only
      cases q.nesting.contexts[k]? with
      | none => exact hstray
      | some closed => exact extend_closeThrough hle'

theorem followedBy_tooDeepNotes (first : Bool) (opened : Position) :
    ∀ d ∈ p.tooDeepNotes first opened, d.followedBy text more = d := by
  intro d hd
  exact Diagnostic.followedBy_of_kind_ne (by simp [(of_mem_tooDeepNotes hd).1])

theorem extend_openBlock {i : Nat} (hle : (g.pair i).opener.length ≤ p.cursor.ahead.length) :
    (p.extend text more).openBlock g i = (p.openBlock g i).extend text more := by
  have hcursor : (p.extend text more).cursor.consume (g.pair i).opener.length =
      (p.cursor.consume (g.pair i).opener.length).extend more := Cursor.extend_consume hle more
  have hbody : (p.extend text more).opensBody g i = p.opensBody g i := rfl
  cases ho : p.nesting.opening with
  | overflowed first =>
    have ho' : (p.extend text more).nesting.opening = .overflowed first := ho
    have hsend : ((p.extend text more).send [.bracketOpened i p.cursor.position]).note
          (p.tooDeepNotes first p.cursor.position) =
        ((p.send [.bracketOpened i p.cursor.position]).note
          (p.tooDeepNotes first p.cursor.position)).extend text more := by
      rw [extend_send (by simp [Event.StartsBy]),
        extend_note_of_eq (followedBy_tooDeepNotes first p.cursor.position)]
    rw [openBlock_of_overflowed ho', openBlock_of_overflowed ho, hcursor, hbody]
    exact congrArg (fun r : Pass ↦ { r with
      cursor := (p.cursor.consume (g.pair i).opener.length).extend more
      nesting := { p.nesting with overflow := p.nesting.overflow + 1 }
      pendingBody := if p.opensBody g i then none else p.pendingBody
      statementStart := p.opensBody g i || (g.pair i).holdsStatements }) hsend
  | entered =>
    have ho' : (p.extend text more).nesting.opening = .entered := ho
    cases hb : p.opensBody g i with
    | false =>
      rw [openBlock_of_block ho' i (hbody.trans hb), openBlock_of_block ho i hb, hcursor]
      rfl
    | true =>
      have hsend : (p.extend text more).send
            [.bracketOpened i p.cursor.position, .bodyEntered p.cursor.position] =
          (p.send [.bracketOpened i p.cursor.position, .bodyEntered p.cursor.position]).extend
            text more :=
        extend_send (by simp [Event.StartsBy])
      rw [openBlock_of_body ho' i (hbody.trans hb), openBlock_of_body ho i hb, hcursor]
      exact congrArg (fun r : Pass ↦ { r with
        cursor := (p.cursor.consume (g.pair i).opener.length).extend more
        nesting := { p.nesting with contexts := .body p.cursor.position none :: p.nesting.contexts }
        pendingBody := none
        statementStart := true }) hsend

/-- The indentation of a line does not show what comes after it. -/
theorem lineIndent_extend (hends : Text.EndsLine p.cursor.ahead) :
    (p.extend text more).cursor.lineIndent = p.cursor.lineIndent := by
  unfold Cursor.lineIndent
  rw [← Text.takeWhile_append_of_mem (List.mem_append_right p.cursor.lineBehind hends.mem)
    (by decide) more, List.append_assoc]
  rfl

theorem extend_openIndentBody {opener : List Char} (hle : opener.length ≤ p.cursor.ahead.length) :
    (p.extend text more).openIndentBody opener =
      (p.openIndentBody opener).extend text more := by
  let q : Pass := { p with pendingBody := none }
  have hopener : opener.length ≤ q.cursor.ahead.length := hle
  unfold openIndentBody
  rw [show (p.extend text more).pendingBody = p.pendingBody from rfl]
  cases p.pendingBody with
  | none => exact extend_consume hle
  | some pending =>
    dsimp only
    rw [show (p.extend text more).assembly.canEnterBody = p.assembly.canEnterBody from rfl,
      show (p.extend text more).nesting = p.nesting from rfl]
    cases p.assembly.canEnterBody with
    | false => exact extend_consume (p := q) hle
    | true =>
      simp only [if_true]
      cases p.nesting.opening with
      | entered =>
        let r : Pass := { q with
          nesting := p.nesting.push (.body p.cursor.position (some pending.indent)) }
        have hsend : (r.extend text more).send [.bodyEntered p.cursor.position] =
            (r.send [.bodyEntered p.cursor.position]).extend text more :=
          extend_send (by simp [Event.StartsBy])
        exact (congrArg (·.consume opener.length) hsend).trans
          (extend_consume (p := r.send [.bodyEntered p.cursor.position]) hle)
      | overflowed first =>
        let r : Pass := { q with
          nesting := (p.nesting.push (.body p.cursor.position (some pending.indent))).absorb }
        have hnote : (r.extend text more).note (r.tooDeepNotes first p.cursor.position) =
            (r.note (r.tooDeepNotes first p.cursor.position)).extend text more :=
          extend_note_of_eq (followedBy_tooDeepNotes first p.cursor.position)
        simp only [tooDeep_eq]
        exact (congrArg (·.consume opener.length) hnote).trans
          (extend_consume (p := r.note (r.tooDeepNotes first p.cursor.position)) hle)

/-- The indentation bodies that a line leaves do not show what comes after. -/
theorem extend_leaveBodies (indent : Nat) (cs : List Context) (p : Pass) :
    leaveBodies indent cs (p.extend text more) = (leaveBodies indent cs p).extend text more := by
  fun_induction leaveBodies indent cs p with
  | case1 opened level outer p hlt =>
    rw [leaveBodies, if_pos hlt]
  | case2 opened level outer p hlt q ih =>
    have hsend : (q.extend text more).send [.bodyLeft q.lastEnd, .blockClosed outer.length] =
        (q.send [.bodyLeft q.lastEnd, .blockClosed outer.length]).extend text more :=
      extend_send (by simp [Event.StartsBy])
    rw [leaveBodies, if_neg hlt, ← ih]
    exact congrArg (leaveBodies indent outer) hsend
  | case3 cs p hcs => rw [leaveBodies.eq_2 _ _ _ hcs]

theorem extend_dedent (hends : Text.EndsLine p.cursor.ahead) :
    (p.extend text more).dedent g = (p.dedent g).extend text more := by
  unfold dedent
  split
  · rw [lineIndent_extend hends, show (p.extend text more).nesting = p.nesting from rfl,
      extend_leaveBodies, dropStaleBody_eq, dropStaleBody_eq]
    rfl
  · rfl

theorem extend_addAnchor {r : Recognition} (hends : Text.EndsLine p.cursor.ahead)
    (hplace : p.cursor.position.offset ≤ Text.byteSize p.assembly.source) :
    (p.extend text more).addAnchor (r.extend more) = (p.addAnchor r).extend text more := by
  have hlength : (r.extend more).headerLength (p.extend text more).cursor.ahead =
      r.headerLength p.cursor.ahead := r.headerLength_extend _ more
  have hle : r.headerLength p.cursor.ahead ≤ p.cursor.ahead.length := Nat.sub_le _ _
  have hsend : ((p.consume (r.headerLength p.cursor.ahead)).extend text more).send
        [.anchor ⟨r.kind, String.ofList r.name,
          (p.cursor.consume (r.headerLength p.cursor.ahead)).spanFrom p.cursor.position⟩
          p.nesting.depth] =
      ((p.consume (r.headerLength p.cursor.ahead)).send
        [.anchor ⟨r.kind, String.ofList r.name,
          (p.cursor.consume (r.headerLength p.cursor.ahead)).spanFrom p.cursor.position⟩
          p.nesting.depth]).extend text more := by
    refine extend_send fun e he ↦ ?_
    rw [List.mem_singleton.mp he]
    exact hplace
  unfold addAnchor
  rw [hlength, extend_consume hle, lineIndent_extend hends]
  exact congrArg (fun q : Pass ↦ { q with
    pendingBody := some ⟨p.nesting.depth, p.cursor.lineIndent⟩ }) hsend

theorem bodyOpener?_extend (hends : Text.EndsLine p.cursor.ahead) :
    (p.extend text more).bodyOpener? g = p.bodyOpener? g := by
  unfold bodyOpener?
  rw [show g.bodyOpener? (p.extend text more).cursor = g.bodyOpener? p.cursor from
    (Cursor.alike_extend g hends more).bodyOpener?]
  rfl

/-- Before the end of a line, what is looked up does not show what comes after. -/
theorem looksAlike_extend (hg : g.InLines) (hends : Text.EndsLine p.cursor.ahead) :
    LooksAlike g p (p.extend text more) := by
  have hlike : Cursor.Alike g p.cursor (p.extend text more).cursor :=
    Cursor.alike_extend g hends more
  exact
    { comment := hlike.commentStart? hg
      string := hlike.stringStart? hg
      regex := hlike.regexLiteral?
      closer := hlike.blockClose? hg
      opener := hlike.blockOpen? hg
      body := bodyOpener?_extend hends
      separator := hlike.statementEnd? hg
      starts := rfl }

theorem tokenAhead_extend (hg : g.InLines) (hends : Text.EndsLine p.cursor.ahead)
    (hclass : g.methodShorthand = true → p.assembly.enclosingKind? = some .classDecl →
      Grammar.Closes p.cursor.ahead) :
    (p.extend text more).tokenAhead g = (p.tokenAhead g).extend more := by
  have hheader : g.recognise? (p.extend text more).cursor.ahead
      (p.extend text more).assembly.enclosingKind? =
      (g.recognise? p.cursor.ahead p.assembly.enclosingKind?).map (·.extend more) :=
    Grammar.recognise?_append hg hends hclass more
  have hlooks : LooksAlike g p (p.extend text more) := looksAlike_extend hg hends
  rcases hlooks.tokenAhead with ⟨heq, hother⟩ | ⟨hp, hq⟩
  · rw [heq]
    generalize p.tokenAhead g = t at hother
    cases t with
    | anchor r => exact absurd rfl (hother (some r))
    | _ => rfl
  · rw [hp, hq, hheader]
    cases g.recognise? p.cursor.ahead p.assembly.enclosingKind? <;> rfl

/-- A token is dealt with in the same way whatever comes after, unless it is a literal that goes on
into it. -/
theorem extend_take (hg : g.InLines) (ht : p.Ahead g t) (hends : Text.EndsLine p.cursor.ahead)
    (htext : p.cursor.ahead <:+ text) (hmore : more ≠ [])
    (hplace : p.cursor.position.offset ≤ Text.byteSize p.assembly.source)
    (hliteral : ∀ i, t = .literal i →
      (p.extend text more).literalLength (g.delimiter i) ≤ p.cursor.ahead.length) :
    (p.extend text more).take g (t.extend more) = (p.take g t).extend text more := by
  cases ht with
  | comment found => rfl
  | literal comment found =>
    obtain ⟨hline, -, hescape⟩ := hg.delimiter _
    exact extend_literal (p := { p with statementStart := false }) rfl hescape
      (Grammar.startsWith_of_stringStart? found) hline hends htext hmore (hliteral _ rfl)
  | regex comment string found =>
    exact extend_consume (p := { p with statementStart := false })
      (Cursor.length_pos_of_startsWith (regexLiteral?_spec found).1).2
  | closer comment string regex found =>
    exact extend_closeBlock
      (Cursor.length_pos_of_startsWith (Grammar.startsWith_of_blockClose? found)).2
  | opener comment string regex closer found =>
    exact extend_openBlock
      (Cursor.length_pos_of_startsWith (Grammar.startsWith_of_blockOpen? found)).2
  | indentation unmarked found =>
    obtain ⟨hne, hlength⟩ :=
      Grammar.ahead_ne_nil_of_bodyOpener? (bodyOpener?_eq_some found).2
    exact extend_openIndentBody (hlength ▸ List.length_pos_iff.mpr hne)
  | separator unmarked body found =>
    have hle := (Cursor.length_pos_of_startsWith (Grammar.startsWith_of_statementEnd? found)).2
    simp only [Token.extend, take, separator, extend_consume hle, cancelBody_eq]
    rfl
  | anchor unmarked body separator starts found =>
    exact extend_addAnchor (p := { p with statementStart := false }) hends hplace
  | plain unmarked body separator starts header =>
    simp only [Token.extend, take, cancelBody_eq]
    rfl
  | inner unmarked body separator goesOn => rfl

theorem extend_atToken (hends : Text.EndsLine p.cursor.ahead) :
    (p.extend text more).atToken g = (p.atToken g).extend text more := by
  unfold atToken
  rw [show (p.extend text more).lineStart = p.lineStart from rfl]
  split
  · exact extend_dedent (p := { p with lineStart := false }) hends
  · rfl

/-- A literal that leaves all of what comes after ends before it. -/
theorem literalFits_of_code (hmore : more ≠ []) (hg : g.InLines)
    (hends : Text.EndsLine p.cursor.ahead)
    (hfit : more.length ≤ ((p.extend text more).code g).cursor.ahead.length) :
    p.LiteralFits g text more := by
  intro hblank hcomment i hstring
  have hlike : Cursor.Alike g p.cursor (p.extend text more).cursor :=
    Cursor.alike_extend g hends more
  obtain ⟨c, hc⟩ := Cursor.exists_peek?_of_ne_nil hends.ne_nil
  have hahead : ((p.extend text more).atToken g).Ahead g (.literal i) := by
    refine .literal ?_ ?_
    · rw [atToken_cursor, hlike.commentStart? hg, hcomment]
    · rw [atToken_cursor, hlike.stringStart? hg, hstring]
  rw [code_of_ahead (hlike.peek?.trans hc) (hblank c hc) hahead] at hfit
  have hcursor : (((p.extend text more).atToken g).take g (.literal i)).cursor =
      ((p.extend text more).literal g i).cursor := by
    rw [take, literal_eq, literal_eq]
    simp only [note, consume, literalLength, atToken_cursor]
  refine literalLength_le_of_fit hmore (hfit.trans_eq ?_)
  exact congrArg (fun c : Cursor ↦ c.ahead.length) hcursor

theorem extend_token (hg : g.InLines) (hends : Text.EndsLine p.cursor.ahead)
    (htext : p.cursor.ahead <:+ text) (hmore : more ≠ [])
    (hplace : p.cursor.position.offset ≤ Text.byteSize p.assembly.source)
    (hclass : g.methodShorthand = true → g.indents = false ∧
      (p.assembly.enclosingKind? = some .classDecl → Grammar.Closes p.cursor.ahead))
    (hblank : ∀ c, p.cursor.peek? = some c → Text.isBlank c = false)
    (hliteral : p.LiteralFits g text more) :
    (p.extend text more).token g = (p.token g).extend text more := by
  have hsource : (p.atToken g).assembly.source = p.assembly.source := by
    obtain ⟨es, outer, pending, heq⟩ := p.atToken_eq g
    rw [heq]
    exact (Assembly.replay_source _ _).1
  have hahead := (p.atToken g).ahead_tokenAhead g
  rw [token_eq_take, token_eq_take, extend_atToken hends, tokenAhead_extend hg, extend_take hg hahead]
  · rfl
  · rwa [atToken_cursor]
  · rwa [atToken_cursor]
  · exact hmore
  · rwa [atToken_cursor, hsource]
  · intro i hi
    rw [ahead_iff.symm] at hi
    cases hi with
    | literal comment found =>
      rw [atToken_cursor] at comment found
      have hfits := hliteral hblank comment i found
      unfold literalLength at hfits ⊢
      rwa [atToken_cursor, show ((p.atToken g).extend text more).cursor =
        (p.extend text more).cursor by rw [extend, extend, atToken_cursor]]
  · rwa [atToken_cursor]
  · intro hmethods
    obtain ⟨hbraces, hcloses⟩ := hclass hmethods
    rw [atToken_of_braces hbraces]
    exact hcloses

theorem extend_code (hg : g.InLines) (hends : Text.EndsLine p.cursor.ahead)
    (htext : p.cursor.ahead <:+ text) (hmore : more ≠ [])
    (hplace : p.cursor.position.offset ≤ Text.byteSize p.assembly.source)
    (hclass : g.methodShorthand = true → g.indents = false ∧
      (p.assembly.enclosingKind? = some .classDecl → Grammar.Closes p.cursor.ahead))
    (hliteral : p.LiteralFits g text more) :
    (p.extend text more).code g = (p.code g).extend text more := by
  have hpos : 1 ≤ p.cursor.ahead.length := List.length_pos_iff.mpr hends.ne_nil
  have hpeek : (p.extend text more).cursor.peek? = p.cursor.peek? :=
    (Cursor.alike_extend g hends more).peek?
  unfold code
  rw [hpeek]
  cases hc : p.cursor.peek? with
  | none => rfl
  | some c =>
    dsimp only
    rw [extend_consume hpos]
    split
    · rw [afterNewline_eq, afterNewline_eq]
      rfl
    split
    · rfl
    · rename_i hblank
      refine extend_token hg hends htext hmore hplace hclass (fun d hd ↦ ?_) hliteral
      rw [hc] at hd
      cases hd
      simpa using hblank

/-! ## Skipped code -/

/-- Before the end of a line, code is skipped in the same way whatever comes after, unless it is a
literal that goes on into it. -/
theorem extend_skipStep (hg : s.grammar.InLines) (hends : Text.EndsLine p.cursor.ahead)
    (htext : p.cursor.ahead <:+ text) (hmore : more ≠ [])
    (hliteral : ∀ c, p.cursor.peek? = some c → p.skipEnds s c = false →
      ∀ i, s.grammar.stringStart? p.cursor = some i →
        (p.extend text more).literalLength (s.grammar.delimiter i) ≤ p.cursor.ahead.length) :
    skipStep s (p.extend text more) = (skipStep s p).map (·.extend text more) := by
  have hlooks : LooksAlike s.grammar p (p.extend text more) := looksAlike_extend hg hends
  have hpos : 1 ≤ p.cursor.ahead.length := List.length_pos_iff.mpr hends.ne_nil
  have hrel : Option.Rel (fun q q' ↦ q' = q.extend text more) (skipStep s p)
      (skipStep s (p.extend text more)) := by
    refine hlooks.rel_skipStep (Cursor.alike_extend s.grammar hends more).peek? ?_ ?_ ?_ ?_
    · intro c i hc hskip hstring
      obtain ⟨hline, -, hescape⟩ := hg.delimiter i
      exact congrArg markEnd (extend_literal rfl hescape (Grammar.startsWith_of_stringStart? hstring)
        hline hends htext hmore (hliteral c hc hskip i hstring))
    · intro regex hregex
      exact congrArg markEnd
        (extend_consume (Cursor.length_pos_of_startsWith (regexLiteral?_spec hregex).1).2)
    · exact extend_consume hpos
    · exact congrArg markEnd (extend_consume hpos)
  generalize skipStep s p = x, skipStep s (p.extend text more) = y at hrel
  cases hrel with
  | none => rfl
  | some heq => exact congrArg some heq

/-- Either code is skipped in the same way whatever comes after, or a literal goes on into it. -/
theorem extend_skipStep_or (hg : s.grammar.InLines) (hends : Text.EndsLine p.cursor.ahead)
    (htext : p.cursor.ahead <:+ text) (hmore : more ≠ []) :
    skipStep s (p.extend text more) = (skipStep s p).map (·.extend text more) ∨
      ∃ q, skipStep s (p.extend text more) = some q ∧ q.cursor.ahead.length < more.length := by
  by_cases hliteral : ∀ c, p.cursor.peek? = some c → p.skipEnds s c = false →
      ∀ i, s.grammar.stringStart? p.cursor = some i →
        (p.extend text more).literalLength (s.grammar.delimiter i) ≤ p.cursor.ahead.length
  · exact .inl (extend_skipStep hg hends htext hmore hliteral)
  · push Not at hliteral
    obtain ⟨c, hc, hskip, i, hstring, hlong⟩ := hliteral
    have hlooks : LooksAlike s.grammar p (p.extend text more) := looksAlike_extend hg hends
    have hpeek : (p.extend text more).cursor.peek? = p.cursor.peek? :=
      (Cursor.alike_extend s.grammar hends more).peek?
    refine .inr ⟨((p.extend text more).literal s.grammar i).markEnd, ?_, ?_⟩
    · exact skipStep_eq_some_iff.mpr (.literal (hpeek.trans hc) ((hlooks.skipEnds c).trans hskip)
        (hlooks.string.trans hstring))
    · by_contra hfit
      exact absurd (literalLength_le_of_fit hmore (Nat.le_of_not_lt hfit)) (Nat.not_le.mpr hlong)

theorem extend_skip (hg : s.grammar.InLines) (hends : Text.EndsLine p.cursor.ahead)
    (hline : Text.EndsLine text) (htext : p.cursor.ahead <:+ text) (hmore : more ≠ [])
    (hfit : more.length ≤ ((p.extend text more).skip s).cursor.ahead.length) :
    (p.extend text more).skip s = (p.skip s).extend text more := by
  have hpos : 1 ≤ p.cursor.ahead.length := List.length_pos_iff.mpr hends.ne_nil
  have hstart : ((p.extend text more).consume 1).markEnd = (p.consume 1).markEnd.extend text more := by
    rw [extend_consume hpos]
    rfl
  unfold skip at hfit ⊢
  dsimp only at hfit ⊢
  rw [hstart] at hfit ⊢
  have hrun := iterate_lift (extend text more) (fun q ↦ q.cursor.ahead.length)
    (fun q ↦ q.cursor.ahead <:+ text) (fun q r h ↦ length_lt_of_skipStep (s := s) h) ?_ ?_
    (a := (p.consume 1).markEnd) (k := (p.consume 1).markEnd.cursor.ahead.length)
    ((List.drop_suffix 1 _).trans htext) (Nat.le_refl _) (Nat.le_refl _) hfit
  · rw [hrun]
    rfl
  · intro q r hq hr
    obtain ⟨-, k, -, hcursor⟩ := skipStep_consumes hr
    rw [hcursor, Cursor.consume_ahead]
    exact (List.drop_suffix k _).trans hq
  · intro q hq
    by_cases hnil : q.cursor.ahead = []
    · have hnone : skipStep s q = none :=
        skipStep_eq_none_iff.mpr fun c hc ↦ absurd hnil (Cursor.ahead_ne_nil_of_peek? hc)
      rw [hnone]
      cases hr : skipStep s (q.extend text more) with
      | none => exact .inl rfl
      | some r =>
        have hlt := length_lt_of_skipStep hr
        simp only [extend, Cursor.extend, hnil, List.nil_append] at hlt
        exact .inr ⟨r, rfl, hlt⟩
    · exact extend_skipStep_or hg (hline.of_suffix hq hnil) hq hmore

end Pass

/-! ## Comments -/

namespace Cursor

variable {text more marker : List Char} {c : Cursor}

theorem extend_commentLine (hends : Text.EndsLine c.ahead) :
    (c.extend more).commentLine marker =
      ((c.commentLine marker).1, (c.commentLine marker).2.extend more) := by
  have hrest : (c.extend more).restOfLine = c.restOfLine := hends.firstLine_append more
  have hle : c.restOfLine.length ≤ c.ahead.length := (List.takeWhile_prefix _).length_le
  simp only [commentLine, hrest, extend_consume hle]
  rfl

theorem nextCommentLine?_of_newline {lines : List CommentLine} {rest : List Char}
    (h : c.ahead = '\n' :: rest) :
    nextCommentLine? marker (lines, c) =
      let blanks := (rest.takeWhile Text.isInlineBlank).length
      if marker.isPrefixOf (rest.drop blanks) then
        let found := (c.consume (1 + blanks + marker.length)).commentLine marker
        some (lines ++ [found.1], found.2)
      else none := by
  unfold nextCommentLine?
  split
  · rename_i rest' heq
    rw [show c.ahead = _ from heq] at h
    cases h
    rfl
  · rename_i hne
    exact absurd h (hne rest)

theorem nextCommentLine?_of_ne {lines : List CommentLine} {d : Char} {rest : List Char}
    (h : c.ahead = d :: rest) (hd : d ≠ '\n') : nextCommentLine? marker (lines, c) = none := by
  unfold nextCommentLine?
  split
  · rename_i rest' heq
    rw [show c.ahead = _ from heq] at h
    exact absurd (List.cons.inj h).1.symm hd
  · rfl

/-- Before the last newline, the next line comment is the same whatever comes after. -/
theorem extend_nextCommentLine? {st : List CommentLine × Cursor} (hline : '\n' ∉ marker)
    (hends : Text.EndsLine st.2.ahead) (hlast : st.2.ahead ≠ ['\n']) :
    nextCommentLine? marker (st.1, st.2.extend more) =
      (nextCommentLine? marker st).map (fun st ↦ (st.1, st.2.extend more)) := by
  obtain ⟨lines, c⟩ := st
  cases hahead : c.ahead with
  | nil => exact absurd hahead hends.ne_nil
  | cons d rest =>
    have hahead' : (c.extend more).ahead = d :: (rest ++ more) := by
      rw [extend, hahead]
      rfl
    by_cases hd : d = '\n'
    · subst hd
      rw [hahead] at hends
      have hrest : Text.EndsLine rest := by
        refine hends.of_suffix (List.suffix_cons _ rest) ?_
        rintro rfl
        exact hlast hahead
      have hblanks : (rest ++ more).takeWhile Text.isInlineBlank =
          rest.takeWhile Text.isInlineBlank :=
        Text.takeWhile_append_of_mem hrest.mem (by decide) more
      have hsplit := List.takeWhile_append_dropWhile (p := Text.isInlineBlank) (l := rest)
      have htail : Text.EndsLine (rest.dropWhile Text.isInlineBlank) := hrest.dropWhile (by decide)
      rw [nextCommentLine?_of_newline hahead, nextCommentLine?_of_newline hahead', hblanks]
      generalize rest.takeWhile Text.isInlineBlank = blanks at hsplit ⊢
      generalize rest.dropWhile Text.isInlineBlank = tail at hsplit htail ⊢
      subst hsplit
      simp only [List.append_assoc, List.drop_left, htail.isPrefixOf_append hline]
      split
      · rename_i hprefix
        obtain ⟨rest, rfl⟩ := List.isPrefixOf_iff_prefix.mp hprefix
        have hle : 1 + blanks.length + marker.length ≤ c.ahead.length := by
          rw [hahead]
          simp only [List.length_cons, List.length_append]
          omega
        have hdrop : (c.consume (1 + blanks.length + marker.length)).ahead = rest := by
          rw [consume_ahead, hahead, Nat.add_assoc, Nat.add_comm, List.drop_succ_cons,
            List.drop_length_add_append, List.drop_left]
        have hrest : Text.EndsLine (c.consume (1 + blanks.length + marker.length)).ahead := by
          rw [hdrop]
          refine htail.of_suffix (List.suffix_append marker rest) ?_
          rintro rfl
          rw [List.append_nil] at htail
          exact hline htail.mem
        rw [extend_consume hle, extend_commentLine hrest]
        rfl
      · rfl
    · rw [nextCommentLine?_of_ne hahead hd, nextCommentLine?_of_ne hahead' hd]
      rfl

/-- Before the end of a line, the next line comment is the same whatever comes after, unless it
stands there. -/
theorem extend_nextCommentLine?_or {st : List CommentLine × Cursor} (hmarker : marker ≠ [])
    (hline : '\n' ∉ marker) (hends : Text.EndsLine st.2.ahead) (hmore : more ≠ []) :
    nextCommentLine? marker (st.1, st.2.extend more) =
        (nextCommentLine? marker st).map (fun st ↦ (st.1, st.2.extend more)) ∨
      ∃ st', nextCommentLine? marker (st.1, st.2.extend more) = some st' ∧
        st'.2.ahead.length < more.length := by
  by_cases hlast : st.2.ahead = ['\n']
  · -- a comment on the next line is part of what comes after
    have hnone : nextCommentLine? marker (st.1, st.2) = none := by
      rw [nextCommentLine?_of_newline hlast, if_neg (by simp [hmarker])]
    cases hnext : nextCommentLine? marker (st.1, st.2.extend more) with
    | none =>
      left
      rw [show st = (st.1, st.2) from rfl, hnone]
      rfl
    | some st' =>
      obtain ⟨-, k, hk, hcursor⟩ := nextCommentLine?_consumes hnext
      have hmarkerpos := List.length_pos_iff.mpr hmarker
      have hmorepos := List.length_pos_iff.mpr hmore
      refine .inr ⟨st', rfl, ?_⟩
      rw [hcursor, consume_ahead, extend, hlast, List.length_drop, List.length_append,
        List.length_singleton]
      omega
  · exact .inl (extend_nextCommentLine? hline hends hlast)

theorem extend_lineComments (hmarker : c.startsWith marker = true) (hline : '\n' ∉ marker)
    (hends : Text.EndsLine c.ahead) (htext : Text.EndsLine text) (hsuffix : c.ahead <:+ text)
    (hmore : more ≠ [])
    (hfit : more.length ≤ ((c.extend more).lineComments marker).2.ahead.length) :
    (c.extend more).lineComments marker =
      ((c.lineComments marker).1, (c.lineComments marker).2.extend more) := by
  obtain ⟨hne, rest, hrest⟩ := startsWith_iff.mp hmarker
  have hafter : (c.consume marker.length).ahead = rest := by
    rw [consume_ahead, ← hrest, List.drop_left]
  have hafterEnds : Text.EndsLine (c.consume marker.length).ahead := by
    rw [hafter]
    refine hends.of_suffix ⟨marker, hrest⟩ ?_
    rintro rfl
    rw [List.append_nil] at hrest
    exact hline (hrest ▸ hends.mem)
  have hstart : ((c.extend more).consume marker.length).commentLine marker =
      (((c.consume marker.length).commentLine marker).1,
        ((c.consume marker.length).commentLine marker).2.extend more) := by
    rw [extend_consume (length_pos_of_startsWith hmarker).2, extend_commentLine hafterEnds]
  unfold lineComments at hfit ⊢
  rw [hstart] at hfit ⊢
  have hrun := iterate_lift (fun st : List CommentLine × Cursor ↦ (st.1, st.2.extend more))
    (fun st ↦ st.2.ahead.length) (fun st ↦ st.2.ahead <:+ text)
    (fun st st' (h : nextCommentLine? marker st = some st') ↦ length_lt_of_nextCommentLine? h) ?_ ?_
    (a := ([((c.consume marker.length).commentLine marker).1],
      ((c.consume marker.length).commentLine marker).2))
    (k := ((c.consume marker.length).commentLine marker).2.ahead.length)
    ?_ (Nat.le_refl _) (Nat.le_refl _) hfit
  · exact hrun
  · intro st st' hst hnext
    obtain ⟨-, k, -, hcursor⟩ := nextCommentLine?_consumes hnext
    rw [hcursor, consume_ahead]
    exact (List.drop_suffix k _).trans hst
  · intro st hst
    by_cases hnil : st.2.ahead = []
    · have hnone : nextCommentLine? marker st = none := by
        unfold nextCommentLine?
        rw [hnil]
      rw [hnone]
      cases hnext : nextCommentLine? marker (st.1, st.2.extend more) with
      | none => exact .inl rfl
      | some st' =>
        have hlt := length_lt_of_nextCommentLine? hnext
        simp only [extend, hnil, List.nil_append] at hlt
        exact .inr ⟨st', rfl, hlt⟩
    · exact extend_nextCommentLine?_or hne hline (htext.of_suffix hst hnil) hmore
  · rw [commentLine, consume_consume]
    exact (List.drop_suffix _ _).trans hsuffix

end Cursor

/-- The content of a block comment that is closed before the text after is the same without it. -/
theorem blockContent_append {closer s more : List Char} (hmore : more ≠ [])
    (hfit : (blockContent closer (s ++ more)).1.length +
      (if (blockContent closer (s ++ more)).2 then closer.length else 0) ≤ s.length) :
    blockContent closer (s ++ more) = blockContent closer s ∧ (blockContent closer s).2 = true := by
  induction s with
  | nil =>
    cases more with
    | nil => exact absurd rfl hmore
    | cons c cs =>
      rw [List.nil_append, blockContent] at hfit
      split at hfit
      · rename_i hclose
        simp only [List.length_nil, if_true, Nat.zero_add, Nat.le_zero] at hfit
        simp [List.length_eq_zero_iff.mp hfit] at hclose
      · simp only [List.length_cons, List.length_nil] at hfit
        omega
  | cons c cs ih =>
    have hprefix : List.IsPrefix (c :: cs) (c :: (cs ++ more)) := List.prefix_append (c :: cs) more
    simp only [List.cons_append, blockContent] at hfit ⊢
    by_cases hclose : (!closer.isEmpty && closer.isPrefixOf (c :: (cs ++ more))) = true
    · have hclose' : (!closer.isEmpty && closer.isPrefixOf (c :: cs)) = true := by
        simp only [hclose, if_true, List.length_nil, Nat.zero_add] at hfit
        simp only [Bool.and_eq_true, List.isPrefixOf_iff_prefix] at hclose ⊢
        exact ⟨hclose.1, List.prefix_of_prefix_length_le hclose.2 hprefix hfit⟩
      simp [hclose, hclose']
    · have hclose' : ¬(!closer.isEmpty && closer.isPrefixOf (c :: cs)) = true := by
        simp only [Bool.and_eq_true, List.isPrefixOf_iff_prefix] at hclose ⊢
        exact fun h ↦ hclose ⟨h.1, h.2.trans hprefix⟩
      rw [if_neg hclose] at hfit
      rw [if_neg hclose, if_neg hclose']
      simp only [List.length_cons] at hfit
      obtain ⟨hcontent, hclosed⟩ := ih (by omega)
      simp only [hcontent, hclosed, and_self]

namespace Pass

variable {s : Setup} {g : Grammar} {text more : List Char} {p q : Pass}

theorem extend_blockComment {opener closer : List Char}
    (hopener : p.cursor.startsWith opener = true) (hmore : more ≠ [])
    (hfit : more.length ≤ ((p.extend text more).blockComment opener closer).cursor.ahead.length) :
    (p.extend text more).blockComment opener closer =
      (p.blockComment opener closer).extend text more := by
  have hle := (Cursor.length_pos_of_startsWith hopener).2
  have hpos := List.length_pos_iff.mpr hmore
  have hdrop : (p.extend text more).cursor.ahead.drop opener.length =
      p.cursor.ahead.drop opener.length ++ more := List.drop_append_of_le_length hle
  have hlen : (p.cursor.ahead.drop opener.length).length =
      p.cursor.ahead.length - opener.length := List.length_drop
  have hlen' : (p.extend text more).cursor.ahead.length = p.cursor.ahead.length + more.length :=
    List.length_append
  have hshort : (p.extend text more).blockLength opener closer ≤ p.cursor.ahead.length := by
    rw [blockComment_eq] at hfit
    simp only [note, consume, Cursor.consume_ahead, List.length_drop, hlen'] at hfit
    omega
  have hfound : (p.extend text more).blockFound opener closer = p.blockFound opener closer ∧
      (p.blockFound opener closer).2 = true := by
    unfold blockLength blockFound at hshort
    rw [hdrop] at hshort
    unfold blockFound
    rw [hdrop]
    exact blockContent_append hmore (by rw [hlen]; omega)
  have hlength : (p.extend text more).blockLength opener closer = p.blockLength opener closer := by
    rw [blockLength, blockLength, hfound.1]
  rw [hlength] at hshort
  have hspan : (p.extend text more).blockSpan opener closer = p.blockSpan opener closer := by
    unfold blockSpan
    rw [hlength, show (p.extend text more).cursor.consume (p.blockLength opener closer) = _ from
      Cursor.extend_consume hshort more]
    rfl
  have hnotes : (p.extend text more).blockNotes opener closer = [] := by
    rw [blockNotes, hfound.1, hfound.2]
    rfl
  have hnotes' : p.blockNotes opener closer = [] := by
    rw [blockNotes, hfound.2]
    rfl
  rw [blockComment_eq, blockComment_eq, hnotes, hnotes', hlength, hspan, hfound.1,
    extend_consume hshort, note_nil, note_nil,
    show (p.extend text more).cursor.consume (p.blockLength opener closer) = _ from
      Cursor.extend_consume hshort more,
    show (p.extend text more).cursor.consume opener.length = _ from Cursor.extend_consume hle more]
  rfl

/-- A run of line comments that does not go on after the text is read without what comes after. -/
theorem extend_lineComment {marker : List Char}
    (hlines : (p.cursor.extend more).lineComments marker =
      ((p.cursor.lineComments marker).1, (p.cursor.lineComments marker).2.extend more)) :
    (p.extend text more).lineComment g marker = (p.lineComment g marker).extend text more := by
  rw [lineComment_eq, lineComment_eq, show (p.extend text more).cursor = p.cursor.extend more from rfl,
    hlines]
  simp only [afterNewline_eq]
  split <;> rfl

theorem extend_readComment (hg : g.InLines) {form : CommentForm}
    (hform : g.commentStart? p.cursor = some form) (hends : Text.EndsLine p.cursor.ahead)
    (hline : Text.EndsLine text) (htext : p.cursor.ahead <:+ text) (hmore : more ≠ [])
    (hfit : more.length ≤ ((p.extend text more).readComment g form).cursor.ahead.length) :
    (p.extend text more).readComment g form = (p.readComment g form).extend text more := by
  have hopener := Grammar.startsWith_of_commentStart? hform
  cases form with
  | block i => exact extend_blockComment hopener hmore hfit
  | line i =>
    rw [readComment_line_cursor] at hfit
    exact extend_lineComment
      (Cursor.extend_lineComments hopener (hg.lineComment i) hends hline htext hmore hfit)

theorem extend_placeTags (registry : Registry) {c : Comment} {lo hi : Nat}
    (hlines : ∀ l ∈ c.lines, l.Within lo hi) :
    (p.extend text more).placeTags registry c = (p.placeTags registry c).extend text more := by
  have hevents : ∀ e ∈ p.commentEvents registry c, e.StartsBy (Text.byteSize p.assembly.source) := by
    intro e he
    rw [eq_of_mem_commentEvents he]
    trivial
  have hnotes : ∀ d ∈ (c.tags registry).flatMap (·.diagnostics), d.followedBy text more = d := by
    intro d hd
    obtain ⟨t, ht, hd⟩ := List.mem_flatMap.mp hd
    obtain ⟨-, -, -, hdiag⟩ := Comment.tags_within hlines ht
    refine Diagnostic.followedBy_of_kind_ne fun hkind ↦ ?_
    have hrecovery := (hdiag d hd).2
    rw [hkind] at hrecovery
    cases hrecovery
  have hsend : ((p.extend text more).send (p.commentEvents registry c)).note
        ((c.tags registry).flatMap (·.diagnostics)) =
      ((p.send (p.commentEvents registry c)).note
        ((c.tags registry).flatMap (·.diagnostics))).extend text more := by
    rw [extend_send hevents, extend_note_of_eq hnotes]
  rw [placeTags_eq, placeTags_eq]
  exact congrArg (fun q : Pass ↦ { q with mode := .code }) hsend

end Pass

end Marginalia
