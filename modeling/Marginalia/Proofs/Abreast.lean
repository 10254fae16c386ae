import Marginalia.Proofs.Reassembly
import Marginalia.Proofs.Tokens

/-!
# Scans abreast

Two scans of different texts go abreast as long as they read the same tokens: what they have found
is the same, at positions that are exchanged for each other. Each transition is followed on its own,
for cursors that agree on no more of their texts than the transition consumes.
-/

namespace Marginalia

variable {f : Position → Position} {source source' : List Char}

/-- How positions in a text are exchanged for those in another one. There are as many blank lines
as before between offsets that are clear. -/
structure Exchange (source source' : List Char) where
  position : Position → Position
  offset : Nat → Nat
  clear : Nat → Prop
  moves : Position.Moves position offset
  gap : ∀ i j, clear i → clear j → SameGap offset source source' i j

/-! ## Contexts -/

/-- The context with another position. -/
def Context.relocate (f : Position → Position) : Context → Context
  | .block pair opened => .block pair (f opened)
  | .body opened indent => .body (f opened) indent
  | .literal delimiter opened => .literal delimiter (f opened)
  | .comment opened => .comment (f opened)

/-- The open contexts with other positions. -/
def Nesting.relocate (f : Position → Position) (n : Nesting) : Nesting :=
  { n with contexts := n.contexts.map (·.relocate f) }

/-- What a pass does next with other positions. -/
def Mode.relocate (f : Position → Position) : Mode → Mode
  | .code => .code
  | .comment form => .comment form
  | .tags c => .tags (c.relocate f)
  | .skip => .skip

namespace Context

variable {g : Grammar}

theorem opened_relocate (c : Context) : (c.relocate f).opened = f c.opened := by
  cases c <;> rfl

theorem isBody_relocate (c : Context) : (c.relocate f).isBody = c.isBody := by
  cases c <;> rfl

theorem closes_relocate (i : Nat) (c : Context) :
    Pass.closes g i (c.relocate f) = Pass.closes g i c := by
  rcases c with ⟨j, o⟩ | ⟨o, - | indent⟩ | ⟨j, o⟩ | o <;> rfl

theorem unwindNotes_relocate (stop : Position) (closer : Option (List Char)) (c : Context) :
    (c.relocate f).unwindNotes g (f stop) closer =
      (c.unwindNotes g stop closer).map (·.relocate f) := by
  have hopener : (c.relocate f).opener? g = c.opener? g := by
    rcases c with ⟨j, o⟩ | ⟨o, - | indent⟩ | ⟨j, o⟩ | o <;> rfl
  unfold unwindNotes
  rw [hopener, opened_relocate]
  split <;> rfl

/-- Where the last token ended matters to indentation bodies only. -/
theorem leaving_relocate {c : Context} (hc : c.Usual g) {stop last last' : Position}
    (hlast : g.indents = true → last' = f last) :
    (c.relocate f).leaving (f stop) last' = (c.leaving stop last).map (·.relocate f) := by
  rcases c with ⟨j, o⟩ | ⟨o, - | indent⟩ | ⟨j, o⟩ | o
  · rfl
  · rfl
  · rw [hlast (Eq.symm hc)]
    rfl
  · rfl
  · rfl

end Context

namespace Nesting

@[simp]
theorem depth_relocate (n : Nesting) : (n.relocate f).depth = n.depth := List.length_map _

@[simp]
theorem opening_relocate (n : Nesting) : (n.relocate f).opening = n.opening := by
  unfold opening
  rw [depth_relocate]
  rfl

end Nesting

/-! ## Events -/

/-- The event brings no position to the outline that is not clear. -/
def Event.Clear (clear : Nat → Prop) : Event → Prop
  | .comment _ span _ => clear span.stop.offset
  | .anchor a _ => clear a.span.start.offset
  | .bracketOpened _ _ | .bracketClosed _ _ | .bodyEntered _ | .bodyLeft _ | .blockClosed _ => True

theorem Assembly.mem_waiting_apply {a : Assembly} {e : Event} {w : Waiting}
    (h : w ∈ (a.apply e).waiting) :
    w ∈ a.waiting ∨ ∃ tags depth, e = .comment tags w.comment depth := by
  cases e with
  | comment tags span depth =>
    rcases mem_waiting_comment h with hw | ⟨-, rfl⟩
    · exact .inl hw
    · exact .inr ⟨tags, depth, rfl⟩
  | anchor x depth =>
    have hw : w ∈ (a.anchor x depth).waiting := h
    rw [anchor_waiting] at hw
    split at hw
    · exact .inl (List.mem_of_mem_tail hw)
    · exact .inl hw
  | bracketOpened pair position => exact .inl h
  | bracketClosed pair position => exact .inl h
  | bodyEntered p => exact .inl (enterBody_waiting a p ▸ h)
  | bodyLeft stop => exact .inl (leaveBody_waiting a stop ▸ h)
  | blockClosed depth =>
    have hw : w ∈ (a.closeWaiting depth a.waiting).waiting := h
    rw [(closeWaiting_fields a depth a.waiting).1] at hw
    exact .inl ((List.dropWhile_sublist _).subset hw)

/-- The same events at other positions have the same effect. -/
theorem Assembly.replay_relocate (x : Exchange source source') {a : Assembly} {es : List Event}
    (hsource : a.source = source) (hwaiting : ∀ w ∈ a.waiting, x.clear w.comment.stop.offset)
    (hes : ∀ e ∈ es, e.Clear x.clear) :
    (a.relocate x.position source').replay (es.map (·.relocate x.position)) =
        (a.replay es).relocate x.position source' ∧
      ∀ w ∈ (a.replay es).waiting, x.clear w.comment.stop.offset := by
  induction es generalizing a with
  | nil => exact ⟨rfl, hwaiting⟩
  | cons e es ih =>
    obtain ⟨he, hrest⟩ := List.forall_mem_cons.mp hes
    have hsource' : (a.apply e).source = source := (a.apply_source e).1.trans hsource
    have hwaiting' : ∀ w ∈ (a.apply e).waiting, x.clear w.comment.stop.offset := by
      intro w hw
      rcases mem_waiting_apply hw with hw | ⟨tags, depth, rfl⟩
      · exact hwaiting w hw
      · exact he
    have happly : (a.relocate x.position source').apply (e.relocate x.position) =
        (a.apply e).relocate x.position source' := by
      refine apply_relocate x.moves e fun anchor depth hanchor w hw ↦ ?_
      subst hanchor
      rw [hsource]
      exact x.gap _ _ (hwaiting w hw) he
    obtain ⟨hreplay, hlater⟩ := ih hsource' hwaiting' hrest
    refine ⟨?_, hlater⟩
    rw [replay, List.map_cons, List.foldl_cons, happly, ← replay, hreplay]
    rfl

/-! ## Cursors -/

namespace Cursor

variable {c c' : Cursor} {n k : Nat}

/-- Cursors that agree on the next `n` characters, at positions that are exchanged for each other
and keep step with these characters. -/
structure Level (f : Position → Position) (n : Nat) (c c' : Cursor) : Prop where
  position : c'.position = f c.position
  near : c'.ahead.take n = c.ahead.take n
  steady : c.position.Steady f (c.ahead.take n)

namespace Level

theorem take (h : Level f n c c') (hk : k ≤ n) : c'.ahead.take k = c.ahead.take k := by
  rw [← Nat.min_eq_left hk, ← List.take_take, h.near, List.take_take]

theorem consume_position (h : Level f n c c') (hk : k ≤ n) :
    (c'.consume k).position = f (c.consume k).position := by
  change c'.position.after (c'.ahead.take k) = f (c.position.after (c.ahead.take k))
  rw [h.take hk, h.position, h.steady _ (List.take_prefix_take_left hk)]

end Level

/-- Cursors at which a grammar sees the same, on lines that are indented alike. -/
structure Sees (g : Grammar) (c c' : Cursor) : Prop where
  peek? : c'.peek? = c.peek?
  commentStart? : g.commentStart? c' = g.commentStart? c
  stringStart? : g.stringStart? c' = g.stringStart? c
  regexLiteral? : g.regexLiteral? c' = g.regexLiteral? c
  blockClose? : g.blockClose? c' = g.blockClose? c
  blockOpen? : g.blockOpen? c' = g.blockOpen? c
  bodyOpener? : g.bodyOpener? c' = g.bodyOpener? c
  statementEnd? : g.statementEnd? c' = g.statementEnd? c
  lineIndent : c'.lineIndent = c.lineIndent

end Cursor

/-! ## Tokens -/

/-- Tokens of two texts that are dealt with alike: the same one, except that the text ahead may
differ after a header or inside a literal. -/
inductive Token.Alike (g : Grammar) (text text' : List Char) : Token → Token → Prop
  | anchor {r r' : Recognition} (kind : r'.kind = r.kind) (name : r'.name = r.name)
      (length : r'.headerLength text' = r.headerLength text) :
      Alike g text text' (.anchor r) (.anchor r')
  | literal {i : Nat} (tail : (g.delimiter i).tail (text'.drop (g.delimiter i).opener.length) =
      (g.delimiter i).tail (text.drop (g.delimiter i).opener.length)) :
      Alike g text text' (.literal i) (.literal i)
  | same {t : Token} (anchor : ∀ r, t ≠ .anchor r) (literal : ∀ i, t ≠ .literal i) :
      Alike g text text' t t

/-! ## Passes -/

namespace Pass

variable {x : Exchange source source'} {s : Setup} {g : Grammar} {p q : Pass}

/-- The pass `q` has found in its text what the pass `p` has found in another one, at the positions
exchanged for those in it, and goes on in the same way. Nothing is said of what is ahead of them. -/
structure Abreast (x : Exchange source source') (g : Grammar) (p q : Pass) : Prop where
  nesting : q.nesting = p.nesting.relocate x.position
  assembly : q.assembly = p.assembly.relocate x.position source'
  source_eq : p.assembly.source = source
  waiting : ∀ w ∈ p.assembly.waiting, x.clear w.comment.stop.offset
  mode : q.mode = p.mode.relocate x.position
  comment : ∀ c, p.mode = .tags c → x.clear c.span.stop.offset ∧ ∀ l ∈ c.lines, l.Steady x.position
  statementStart : q.statementStart = p.statementStart
  lineStart : q.lineStart = p.lineStart
  pendingBody : q.pendingBody = p.pendingBody
  lastEnd : g.indents = true → q.lastEnd = x.position p.lastEnd
  diagnostics : q.diagnostics = p.diagnostics.map (·.relocate x.position)

/-- What ends without its closer brings no position to the outline that matters. -/
theorem clear_leaving {clear : Nat → Prop} {stop last : Position} (c : Context) :
    ∀ {e : Event}, e ∈ c.leaving stop last → e.Clear clear := by
  intro e he
  obtain rfl | rfl := Context.eq_of_mem_leaving he
  all_goals trivial

namespace Abreast

theorem depth (h : Abreast x g p q) : q.nesting.depth = p.nesting.depth := by
  rw [h.nesting, Nesting.depth_relocate]

theorem contexts (h : Abreast x g p q) :
    q.nesting.contexts = p.nesting.contexts.map (·.relocate x.position) := by
  rw [h.nesting]
  rfl

theorem awaitsBody (h : Abreast x g p q) : q.awaitsBody = p.awaitsBody := by
  unfold Pass.awaitsBody
  rw [h.pendingBody, h.depth]

theorem inStatements (h : Abreast x g p q) : q.inStatements g = p.inStatements g := by
  unfold Pass.inStatements Nesting.top?
  rw [h.contexts, List.head?_map]
  rcases p.nesting.contexts.head? with - | ⟨j, o⟩ | ⟨o, i⟩ | ⟨j, o⟩ | o <;> rfl

theorem enclosingKind? (h : Abreast x g p q) :
    q.assembly.enclosingKind? = p.assembly.enclosingKind? := by
  rw [h.assembly, Assembly.enclosingKind?_relocate]

theorem canEnterBody (h : Abreast x g p q) :
    q.assembly.canEnterBody = p.assembly.canEnterBody := by
  rw [h.assembly, Assembly.canEnterBody_relocate]

theorem opensBody (h : Abreast x g p q) (i : Nat) : q.opensBody g i = p.opensBody g i := by
  unfold Pass.opensBody
  rw [h.awaitsBody, h.canEnterBody]

theorem opening (h : Abreast x g p q) : q.nesting.opening = p.nesting.opening := by
  rw [h.nesting, Nesting.opening_relocate]

/-- Scans start abreast. -/
theorem start (x : Exchange source source') (s : Setup) (g : Grammar) :
    Abreast x g (Pass.start s source) (Pass.start s source') where
  nesting := rfl
  assembly := (Assembly.relocate_start x.moves source source' _).symm
  source_eq := rfl
  waiting w hw := by cases hw
  mode := rfl
  comment c hc := by cases hc
  statementStart := rfl
  lineStart := rfl
  pendingBody := rfl
  lastEnd _ := x.moves.start.symm
  diagnostics := rfl

/-! ### Parts of transitions -/

theorem consume (h : Abreast x g p q) (k k' : Nat) : Abreast x g (p.consume k) (q.consume k') :=
  { h with }

theorem note (h : Abreast x g p q) {ds ds' : List Diagnostic}
    (hds : ds' = ds.map (·.relocate x.position)) : Abreast x g (p.note ds) (q.note ds') :=
  { h with diagnostics := by simp [Pass.note, h.diagnostics, hds] }

theorem send (h : Abreast x g p q) {es es' : List Event}
    (hes : es' = es.map (·.relocate x.position)) (hclear : ∀ e ∈ es, e.Clear x.clear) :
    Abreast x g (p.send es) (q.send es') := by
  obtain ⟨hreplay, hwaiting⟩ := Assembly.replay_relocate x h.source_eq h.waiting hclear
  exact { h with
    assembly := by
      rw [hes, Pass.send, h.assembly]
      exact hreplay
    source_eq := (p.assembly.replay_source es).1.trans h.source_eq
    waiting := hwaiting }

theorem setBody (h : Abreast x g p q) (body : Option PendingBody) :
    Abreast x g { p with pendingBody := body } { q with pendingBody := body } :=
  { h with pendingBody := rfl }

theorem cancelBody (h : Abreast x g p q) : Abreast x g p.cancelBody q.cancelBody := by
  rw [cancelBody_eq, cancelBody_eq, h.awaitsBody, h.pendingBody]
  exact h.setBody _

theorem dropStaleBody (h : Abreast x g p q) : Abreast x g p.dropStaleBody q.dropStaleBody := by
  rw [dropStaleBody_eq, dropStaleBody_eq, h.depth, h.pendingBody]
  exact h.setBody _

theorem setContexts (h : Abreast x g p q) (cs : List Context) :
    Abreast x g { p with nesting := { p.nesting with contexts := cs } }
      { q with nesting := { q.nesting with contexts := cs.map (·.relocate x.position) } } :=
  { h with nesting := by rw [h.nesting]; rfl }

theorem afterNewline (h : Abreast x g p q) : Abreast x g (p.afterNewline g) (q.afterNewline g) := by
  have hstart : Abreast x g
      { p with lineStart := true, statementStart := p.statementStart || p.inStatements g }
      { q with lineStart := true, statementStart := q.statementStart || q.inStatements g } :=
    { h with
      lineStart := rfl
      statementStart := by simp only [h.statementStart, h.inStatements] }
  unfold Pass.afterNewline
  dsimp only
  split
  · exact hstart.cancelBody
  · exact hstart

theorem markEnd (h : Abreast x g p q) (hat : q.cursor.position = x.position p.cursor.position) :
    Abreast x g p.markEnd q.markEnd :=
  { h with lastEnd := fun _ ↦ hat }

/-! ### Literals and brackets -/

/-- A literal may hold other text if it has the same length and ends in the same way. -/
theorem literal (h : Abreast x g p q) {i : Nat}
    (hat : q.cursor.position = x.position p.cursor.position)
    (htail : (g.delimiter i).tail (q.cursor.ahead.drop (g.delimiter i).opener.length) =
      (g.delimiter i).tail (p.cursor.ahead.drop (g.delimiter i).opener.length))
    (hend : (q.cursor.consume (p.literalLength (g.delimiter i))).position =
      x.position (p.cursor.consume (p.literalLength (g.delimiter i))).position) :
    Abreast x g (p.literal g i) (q.literal g i) := by
  rw [literal_eq, literal_eq]
  generalize g.delimiter i = d at htail hend
  have hlength : q.literalLength d = p.literalLength d := by
    rw [literalLength, literalLength, htail]
  refine (h.consume _ _).note ?_
  unfold literalNotes
  rw [htail, hlength]
  have hspan : (q.consume (p.literalLength d)).cursor.spanFrom q.cursor.position =
      ((p.consume (p.literalLength d)).cursor.spanFrom p.cursor.position).relocate x.position := by
    unfold Cursor.spanFrom Span.relocate
    rw [hat]
    exact congrArg _ hend
  rw [hspan]
  cases (d.tail (p.cursor.ahead.drop d.opener.length)).2 <;> rfl

theorem closeThrough (h : Abreast x g p q) (husual : ∀ c ∈ p.nesting.contexts, c.Usual g)
    {i : Nat} (hat : q.cursor.position = x.position p.cursor.position)
    (hend : (q.cursor.consume (g.pair i).closer.length).position =
      x.position (p.cursor.consume (g.pair i).closer.length).position) (n : Nat)
    (closed : Context) :
    Abreast x g (p.closeThrough g i n closed)
      (q.closeThrough g i n (closed.relocate x.position)) := by
  have hevents : q.closeEvents g i n (closed.relocate x.position) =
      (p.closeEvents g i n closed).map (·.relocate x.position) := by
    have hleaving : ∀ c ∈ p.nesting.contexts.take n,
        (c.relocate x.position).leaving (x.position p.cursor.position) q.lastEnd =
          (c.leaving p.cursor.position p.lastEnd).map (·.relocate x.position) :=
      fun c hc ↦ Context.leaving_relocate (husual c (List.mem_of_mem_take hc)) h.lastEnd
    unfold closeEvents
    rw [h.contexts, hat, hend, Context.isBody_relocate, ← List.map_take,
      ← List.map_drop, List.flatMap_map, List.length_map, List.map_append, List.map_append,
      List.map_flatMap]
    congr 2
    · exact List.flatMap_congr hleaving
    · split <;> rfl
  have hnotes : q.closeNotes g i n = (p.closeNotes g i n).map (·.relocate x.position) := by
    unfold closeNotes
    rw [h.contexts, hat, ← List.map_take, List.flatMap_map, List.map_flatMap]
    exact List.flatMap_congr fun c _ ↦ Context.unwindNotes_relocate _ _ c
  have hclear : ∀ e ∈ p.closeEvents g i n closed, e.Clear x.clear := by
    intro e he
    obtain rfl | rfl | rfl | rfl := of_mem_closeEvents he
    all_goals trivial
  have hclosed := ((h.setContexts (p.nesting.contexts.drop (n + 1))).setBody
    (p.pendingBody.filter (·.depth ≤ (p.nesting.contexts.drop (n + 1)).length))).consume
      (g.pair i).closer.length (g.pair i).closer.length
  have hsend := (hclosed.send hevents hclear).note hnotes
  rw [closeThrough_eq, closeThrough_eq, h.contexts, ← List.map_drop, List.length_map, h.pendingBody]
  exact { hsend with
    statementStart := by
      simp only [Context.isBody_relocate]
      exact congrArg _ hclosed.inStatements }

theorem closeBlock (h : Abreast x g p q) (husual : ∀ c ∈ p.nesting.contexts, c.Usual g)
    {i : Nat} (hat : q.cursor.position = x.position p.cursor.position)
    (hend : (q.cursor.consume (g.pair i).closer.length).position =
      x.position (p.cursor.consume (g.pair i).closer.length).position) :
    Abreast x g (p.closeBlock g i) (q.closeBlock g i) := by
  have hemit : Abreast x g (p.send [.bracketClosed i p.cursor.position])
      (q.send [.bracketClosed i q.cursor.position]) :=
    h.send (by rw [hat]; rfl) (by simp [Event.Clear])
  have hstray : Abreast x g
      ((p.send [.bracketClosed i p.cursor.position]).strayClose (g.pair i).closer)
      ((q.send [.bracketClosed i q.cursor.position]).strayClose (g.pair i).closer) := by
    rw [strayClose_eq, strayClose_eq]
    refine (hemit.consume _ _).note (List.singleton_inj.mpr ?_)
    change Diagnostic.mk _ ⟨q.cursor.position, (q.cursor.consume _).position⟩ _ _ = _
    rw [hat, hend]
    rfl
  have hfind : q.nesting.contexts.findIdx? (closes g i) =
      p.nesting.contexts.findIdx? (closes g i) := by
    rw [h.contexts, List.findIdx?_map]
    exact Cursor.findIdx?_congr fun c _ ↦ Context.closes_relocate i c
  rw [closeBlock_eq, closeBlock_eq, show q.nesting.overflow = p.nesting.overflow by
    rw [h.nesting]; rfl]
  split
  · have habsorb : Abreast x g
        { p.send [.bracketClosed i p.cursor.position] with nesting := p.nesting.absorb }
        { q.send [.bracketClosed i q.cursor.position] with nesting := q.nesting.absorb } :=
      { hemit with nesting := by rw [h.nesting]; rfl }
    exact habsorb.consume _ _
  · unfold closeAmong
    rw [hfind]
    cases p.nesting.contexts.findIdx? (closes g i) with
    | none => exact hstray
    | some n =>
      dsimp only
      rw [h.contexts, List.getElem?_map]
      cases p.nesting.contexts[n]? with
      | none => exact hstray
      | some closed => exact hemit.closeThrough husual hat hend n closed

theorem tooDeepNotes (h : Abreast x g p q)
    (hat : q.cursor.position = x.position p.cursor.position) (first : Bool) :
    q.tooDeepNotes first q.cursor.position =
      (p.tooDeepNotes first p.cursor.position).map (·.relocate x.position) := by
  unfold Pass.tooDeepNotes
  rw [h.nesting, hat]
  split <;> rfl

theorem openBlock (h : Abreast x g p q) (i : Nat)
    (hat : q.cursor.position = x.position p.cursor.position) :
    Abreast x g (p.openBlock g i) (q.openBlock g i) := by
  have hlater := h.consume (g.pair i).opener.length (g.pair i).opener.length
  have hopened : [Event.bracketOpened i q.cursor.position] =
      [Event.bracketOpened i p.cursor.position].map (·.relocate x.position) := by
    rw [hat]
    rfl
  cases ho : p.nesting.opening with
  | overflowed first =>
    have hsend := ((hlater.send hopened (by simp [Event.Clear])).note
      (h.tooDeepNotes hat first)).setBody (if p.opensBody g i then none else p.pendingBody)
    rw [openBlock_of_overflowed (h.opening.trans ho), openBlock_of_overflowed ho, h.opensBody,
      h.pendingBody]
    exact { hsend with
      nesting := by rw [h.nesting]; rfl
      statementStart := rfl }
  | entered =>
    cases hb : p.opensBody g i with
    | false =>
      have hsend := hlater.send hopened (by simp [Event.Clear])
      rw [openBlock_of_block (h.opening.trans ho) i (h.opensBody i |>.trans hb),
        openBlock_of_block ho i hb]
      exact { hsend with
        nesting := by rw [h.nesting, hat]; rfl
        statementStart := rfl }
    | true =>
      have hentered : [Event.bracketOpened i q.cursor.position, .bodyEntered q.cursor.position] =
          [Event.bracketOpened i p.cursor.position, .bodyEntered p.cursor.position].map
            (·.relocate x.position) := by
        rw [hat]
        rfl
      have hsend := (hlater.send hentered (by simp [Event.Clear])).setBody none
      rw [openBlock_of_body (h.opening.trans ho) i (h.opensBody i |>.trans hb),
        openBlock_of_body ho i hb]
      exact { hsend with
        nesting := by rw [h.nesting, hat]; rfl
        statementStart := rfl }

/-! ### Indentation bodies -/

theorem openIndentBody (h : Abreast x g p q) (opener : List Char)
    (hat : q.cursor.position = x.position p.cursor.position) :
    Abreast x g (p.openIndentBody opener) (q.openIndentBody opener) := by
  have hopening : q.nesting.opening = p.nesting.opening := h.opening
  unfold Pass.openIndentBody
  rw [h.pendingBody]
  cases hpending : p.pendingBody with
  | none => exact h.consume _ _
  | some pending =>
    have hbody := h.setBody none
    dsimp only
    rw [h.canEnterBody, hopening]
    split
    · cases ho : p.nesting.opening with
      | entered =>
        refine Abreast.consume ?_ _ _
        have hentered : [Event.bodyEntered q.cursor.position] =
            [Event.bodyEntered p.cursor.position].map (·.relocate x.position) := by
          rw [hat]
          rfl
        have hsend := hbody.send hentered (by simp [Event.Clear])
        simp only [Nesting.push, hopening.trans ho, ho]
        exact { hsend with nesting := by rw [h.nesting, hat]; rfl }
      | overflowed first =>
        refine Abreast.consume ?_ _ _
        simp only [tooDeep_eq, Nesting.absorb_push ho, Nesting.absorb_push (hopening.trans ho)]
        exact hbody.note (h.tooDeepNotes hat first)
    · exact hbody.consume _ _

theorem leaveBodies (h : Abreast x g p q) (hlast : q.lastEnd = x.position p.lastEnd) (indent : Nat)
    (cs : List Context) :
    Abreast x g (Pass.leaveBodies indent cs p)
      (Pass.leaveBodies indent (cs.map (·.relocate x.position)) q) := by
  induction cs generalizing p q with
  | nil => exact h
  | cons c cs ih =>
    rcases c with ⟨j, o⟩ | ⟨o, - | level⟩ | ⟨j, o⟩ | o
    · exact h
    · exact h
    · simp only [List.map_cons, Context.relocate, Pass.leaveBodies]
      split
      · exact h
      · have hevents :
            [Event.bodyLeft q.lastEnd, .blockClosed (cs.map (·.relocate x.position)).length] =
            [Event.bodyLeft p.lastEnd, .blockClosed cs.length].map (·.relocate x.position) := by
          rw [hlast, List.length_map]
          rfl
        exact ih ((h.setContexts cs).send hevents (by simp [Event.Clear])) hlast
    · exact h
    · exact h

theorem dedent (h : Abreast x g p q) (hindent : q.cursor.lineIndent = p.cursor.lineIndent) :
    Abreast x g (p.dedent g) (q.dedent g) := by
  unfold Pass.dedent
  split
  · rename_i hindents
    rw [hindent, h.contexts]
    exact (h.leaveBodies (h.lastEnd hindents) _ _).dropStaleBody
  · exact h

theorem atToken (h : Abreast x g p q) (hindent : q.cursor.lineIndent = p.cursor.lineIndent) :
    Abreast x g (p.atToken g) (q.atToken g) := by
  have hline : Abreast x g { p with lineStart := false } { q with lineStart := false } :=
    { h with lineStart := rfl }
  unfold Pass.atToken
  rw [h.lineStart]
  split
  · exact hline.dedent hindent
  · exact h

/-! ### Tokens -/

theorem addAnchor (h : Abreast x g p q) {r r' : Recognition} (hkind : r'.kind = r.kind)
    (hname : r'.name = r.name)
    (hlength : r'.headerLength q.cursor.ahead = r.headerLength p.cursor.ahead)
    (hat : q.cursor.position = x.position p.cursor.position)
    (hend : (q.cursor.consume (r.headerLength p.cursor.ahead)).position =
      x.position (p.cursor.consume (r.headerLength p.cursor.ahead)).position)
    (hclear : x.clear p.cursor.position.offset)
    (hindent : q.cursor.lineIndent = p.cursor.lineIndent) :
    Abreast x g (p.addAnchor r) (q.addAnchor r') := by
  have hanchor : [Event.anchor
      ⟨r'.kind, String.ofList r'.name,
        (q.cursor.consume (r'.headerLength q.cursor.ahead)).spanFrom q.cursor.position⟩
      q.nesting.depth] =
      [Event.anchor
        ⟨r.kind, String.ofList r.name,
          (p.cursor.consume (r.headerLength p.cursor.ahead)).spanFrom p.cursor.position⟩
        p.nesting.depth].map (·.relocate x.position) := by
    rw [hkind, hname, hlength, h.depth]
    unfold Cursor.spanFrom
    rw [hat, hend]
    rfl
  have hsend := (h.consume (r.headerLength p.cursor.ahead) (r'.headerLength q.cursor.ahead)).send
    hanchor fun e he ↦ by rw [List.mem_singleton.mp he]; exact hclear
  have hpending : (some ⟨q.nesting.depth, q.cursor.lineIndent⟩ : Option PendingBody) =
      some ⟨p.nesting.depth, p.cursor.lineIndent⟩ := by rw [h.depth, hindent]
  exact { hsend with pendingBody := hpending }

/-- Tokens that are dealt with alike keep two passes abreast, if the cursors agree on them. -/
theorem take (h : Abreast x g p q) (husual : ∀ c ∈ p.nesting.contexts, c.Usual g) {t t' : Token}
    (ht : Token.Alike g p.cursor.ahead q.cursor.ahead t t')
    (hlevel : Cursor.Level x.position (p.tokenLength g t) p.cursor q.cursor)
    (hclear : x.clear p.cursor.position.offset)
    (hindent : q.cursor.lineIndent = p.cursor.lineIndent) :
    Abreast x g (p.take g t) (q.take g t') ∧ q.tokenLength g t' = p.tokenLength g t := by
  have hat := hlevel.position
  have hend := hlevel.consume_position (Nat.le_refl _)
  have hstatement :
      Abreast x g { p with statementStart := false } { q with statementStart := false } :=
    { h with statementStart := rfl }
  cases ht with
  | anchor hkind hname hlength =>
    exact ⟨hstatement.addAnchor hkind hname hlength hat hend hclear hindent, hlength⟩
  | literal htail =>
    exact ⟨hstatement.literal hat htail hend, congrArg (_ + ·.1) htail⟩
  | same hanchor hliteral =>
    refine ⟨?_, ?_⟩
    · cases t with
      | newline => exact (h.consume 1 1).afterNewline
      | blank => exact h.consume 1 1
      | comment form => exact { h with mode := rfl, comment := fun c hc ↦ by cases hc }
      | literal i => exact absurd rfl (hliteral i)
      | regex text => exact hstatement.consume _ _
      | closer i => exact h.closeBlock husual hat hend
      | opener i => exact h.openBlock i hat
      | indentation opener => exact h.openIndentBody opener hat
      | separator text =>
        have hcancel := (h.consume text.length text.length).cancelBody
        exact { hcancel with statementStart := hcancel.inStatements }
      | anchor r => exact absurd rfl (hanchor r)
      | plain => exact { hstatement.cancelBody with mode := rfl, comment := fun c hc ↦ by cases hc }
      | inner => exact { h with mode := rfl, comment := fun c hc ↦ by cases hc }
    · cases t with
      | literal i => exact absurd rfl (hliteral i)
      | anchor r => exact absurd rfl (hanchor r)
      | _ => rfl

/-- Passes that are abreast look up what their grammar sees. -/
theorem looksAlike (h : Abreast x g p q) (hsees : Cursor.Sees g p.cursor q.cursor) :
    LooksAlike g p q where
  comment := hsees.commentStart?
  string := hsees.stringStart?
  regex := hsees.regexLiteral?
  closer := hsees.blockClose?
  opener := hsees.blockOpen?
  body := by rw [Pass.bodyOpener?, Pass.bodyOpener?, h.awaitsBody, hsees.bodyOpener?]
  separator := hsees.statementEnd?
  starts := h.statementStart

/-- The same token comes next, if the header of an anchor and a literal are read alike. -/
theorem tokenAhead (h : Abreast x g p q) (hsees : Cursor.Sees g p.cursor q.cursor)
    (hliteral : ∀ i, p.tokenAhead g = .literal i →
      (g.delimiter i).tail (q.cursor.ahead.drop (g.delimiter i).opener.length) =
        (g.delimiter i).tail (p.cursor.ahead.drop (g.delimiter i).opener.length))
    (hanchor : ∀ r, p.tokenAhead g = .anchor r →
      ∃ r', g.recognise? q.cursor.ahead p.assembly.enclosingKind? = some r' ∧ r'.kind = r.kind ∧
        r'.name = r.name ∧ r'.headerLength q.cursor.ahead = r.headerLength p.cursor.ahead)
    (hplain : p.tokenAhead g = .plain →
      g.recognise? q.cursor.ahead p.assembly.enclosingKind? = none) :
    Token.Alike g p.cursor.ahead q.cursor.ahead (p.tokenAhead g) (q.tokenAhead g) := by
  rcases (h.looksAlike hsees).tokenAhead with ⟨heq, hother⟩ | ⟨hp, hq⟩
  · rw [heq]
    generalize p.tokenAhead g = t at hliteral hother
    cases t with
    | literal i => exact .literal (hliteral i rfl)
    | anchor r => exact absurd rfl (hother (some r))
    | _ => exact .same (by simp) (by simp)
  · rw [hp] at hanchor hplain ⊢
    rw [hq, h.enclosingKind?]
    cases hr : g.recognise? p.cursor.ahead p.assembly.enclosingKind? with
    | some r =>
      obtain ⟨r', hr', hkind, hname, hlength⟩ := hanchor r (by rw [hr]; rfl)
      rw [hr']
      exact .anchor hkind hname hlength
    | none =>
      rw [hplain (by rw [hr]; rfl)]
      exact .same (by simp [Token.ofHeader]) (by simp [Token.ofHeader])

/-- Tokens that are dealt with alike on the same line keep two passes abreast. -/
theorem token (h : Abreast x g p q) (husual : ∀ c ∈ (p.atToken g).nesting.contexts, c.Usual g)
    (hindent : q.cursor.lineIndent = p.cursor.lineIndent) {t t' : Token}
    (ht : Token.Alike g p.cursor.ahead q.cursor.ahead t t')
    (hlevel : Cursor.Level x.position ((p.atToken g).tokenLength g t) p.cursor q.cursor)
    (hclear : x.clear p.cursor.position.offset) :
    Abreast x g ((p.atToken g).take g t).markEnd ((q.atToken g).take g t').markEnd ∧
      (q.atToken g).tokenLength g t' = (p.atToken g).tokenLength g t := by
  have halike : Token.Alike g (p.atToken g).cursor.ahead (q.atToken g).cursor.ahead t t' := by
    rwa [atToken_cursor, atToken_cursor]
  obtain ⟨htake, hlength⟩ := (h.atToken hindent).take husual halike
    (by rwa [atToken_cursor, atToken_cursor]) (by rwa [atToken_cursor])
    (by rwa [atToken_cursor, atToken_cursor])
  refine ⟨htake.markEnd ?_, hlength⟩
  rw [take_atToken_cursor, take_atToken_cursor, hlength]
  exact hlevel.consume_position (Nat.le_refl _)

/-! ### Skipped code -/

theorem skipStep_none (h : Abreast x s.grammar p q)
    (hsees : Cursor.Sees s.grammar p.cursor q.cursor) (hend : skipStep s p = none) :
    skipStep s q = none :=
  skipStep_eq_none_iff.mpr fun c hc ↦
    ((h.looksAlike hsees).skipEnds c).trans
      (skipStep_eq_none_iff.mp hend c (hsees.peek?.symm.trans hc))

theorem skipStep (h : Abreast x s.grammar p q) (hsees : Cursor.Sees s.grammar p.cursor q.cursor)
    {p' : Pass} (hstep : Pass.skipStep s p = some p')
    (hliteral : ∀ i, s.grammar.stringStart? p.cursor = some i →
      (s.grammar.delimiter i).tail (q.cursor.ahead.drop (s.grammar.delimiter i).opener.length) =
        (s.grammar.delimiter i).tail (p.cursor.ahead.drop (s.grammar.delimiter i).opener.length))
    (hlevel : ∀ k, p'.cursor = p.cursor.consume k → Cursor.Level x.position k p.cursor q.cursor) :
    ∃ q', Pass.skipStep s q = some q' ∧ Abreast x s.grammar p' q' ∧
      ∃ k, p'.cursor = p.cursor.consume k ∧ q'.cursor = q.cursor.consume k := by
  have hlooks := h.looksAlike hsees
  cases skipStep_eq_some_iff.mp hstep with
  | literal peek goesOn found =>
    rename_i c i
    have htail := hliteral i found
    have hcursor : (p.literal s.grammar i).markEnd.cursor =
        p.cursor.consume (p.literalLength (s.grammar.delimiter i)) := by
      rw [literal_eq]
      rfl
    have hcursor' : (q.literal s.grammar i).markEnd.cursor =
        q.cursor.consume (p.literalLength (s.grammar.delimiter i)) := by
      rw [literal_eq, literalLength, htail]
      rfl
    have hlevel' := hlevel _ hcursor
    have hend := hlevel'.consume_position (Nat.le_refl _)
    refine ⟨_, skipStep_eq_some_iff.mpr (.literal (hsees.peek?.trans peek)
      ((hlooks.skipEnds c).trans goesOn) (hlooks.string.trans found)),
      (h.literal hlevel'.position htail hend).markEnd ?_, _, hcursor, hcursor'⟩
    rw [← hcursor, ← hcursor'] at hend
    exact hend
  | regex peek goesOn string found =>
    exact ⟨_, skipStep_eq_some_iff.mpr (.regex (hsees.peek?.trans peek)
      ((hlooks.skipEnds _).trans goesOn) (hlooks.string.trans string) (hlooks.regex.trans found)),
      (h.consume _ _).markEnd ((hlevel _ rfl).consume_position (Nat.le_refl _)), _, rfl, rfl⟩
  | blank peek goesOn string regex blank =>
    exact ⟨_, skipStep_eq_some_iff.mpr (.blank (hsees.peek?.trans peek)
      ((hlooks.skipEnds _).trans goesOn) (hlooks.string.trans string) (hlooks.regex.trans regex)
      blank), h.consume 1 1, 1, rfl, rfl⟩
  | char peek goesOn string regex blank =>
    exact ⟨_, skipStep_eq_some_iff.mpr (.char (hsees.peek?.trans peek)
      ((hlooks.skipEnds _).trans goesOn) (hlooks.string.trans string) (hlooks.regex.trans regex)
      blank), (h.consume 1 1).markEnd ((hlevel 1 rfl).consume_position (Nat.le_refl _)), 1, rfl,
      rfl⟩

/-! ### Comments -/

theorem lineComment (h : Abreast x g p q) {marker : List Char} {lines : List CommentLine}
    {c c' : Cursor} (hp : p.cursor.lineComments marker = (lines, c))
    (hq : q.cursor.lineComments marker = (lines.map (·.relocate x.position), c'))
    (hat : q.cursor.position = x.position p.cursor.position)
    (hstop : c'.position = x.position c.position) (hclear : x.clear c.position.offset)
    (hsteady : ∀ l ∈ lines, l.Steady x.position) :
    Abreast x g (p.lineComment g marker) (q.lineComment g marker) := by
  have hspan : c'.spanFrom q.cursor.position =
      (c.spanFrom p.cursor.position).relocate x.position := by
    unfold Cursor.spanFrom Span.relocate
    rw [hat, hstop]
  have hcursor : Abreast x g { p with cursor := c } { q with cursor := c' } := { h with }
  have hcomment : ∀ d, Mode.tags ⟨lines, c.spanFrom p.cursor.position⟩ = .tags d →
      x.clear d.span.stop.offset ∧ ∀ l ∈ d.lines, l.Steady x.position := by
    intro d hd
    cases hd
    exact ⟨hclear, hsteady⟩
  rw [lineComment_eq, lineComment_eq, hp, hq]
  simp only [List.length_map, hspan]
  split
  · exact { hcursor with mode := rfl, comment := hcomment, lastEnd := fun _ ↦ hstop }
  · exact { hcursor.afterNewline with mode := rfl, comment := hcomment, lastEnd := fun _ ↦ hstop }

theorem blockComment (h : Abreast x g p q) {opener closer : List Char}
    (hfound : q.blockFound opener closer = p.blockFound opener closer)
    (hlevel : Cursor.Level x.position (p.blockLength opener closer) p.cursor q.cursor)
    (hclear : x.clear (p.cursor.consume (p.blockLength opener closer)).position.offset) :
    Abreast x g (p.blockComment opener closer) (q.blockComment opener closer) := by
  have hlength : q.blockLength opener closer = p.blockLength opener closer := by
    rw [blockLength, blockLength, hfound]
  have hopener : opener.length ≤ p.blockLength opener closer := Nat.le_add_right _ _
  have hstop := hlevel.consume_position (Nat.le_refl _)
  have hspan : q.blockSpan opener closer = (p.blockSpan opener closer).relocate x.position := by
    unfold blockSpan Cursor.spanFrom Span.relocate
    rw [hlength, hlevel.position, hstop]
  have hnotes : q.blockNotes opener closer =
      (p.blockNotes opener closer).map (·.relocate x.position) := by
    unfold blockNotes
    rw [hfound, hspan]
    split <;> rfl
  have hcontent : (p.cursor.consume opener.length).position.Steady x.position
      (p.blockFound opener closer).1 := by
    have htake : p.cursor.ahead.take opener.length ++
        (p.cursor.ahead.drop opener.length).take (p.blockFound opener closer).1.length =
          p.cursor.ahead.take (opener.length + (p.blockFound opener closer).1.length) :=
      (List.take_add ..).symm
    have hfront : (p.blockFound opener closer).1 <+: p.cursor.ahead.drop opener.length :=
      blockContent_prefix closer _
    rw [← List.prefix_iff_eq_take.mp hfront] at htake
    refine Position.Steady.append (s := p.cursor.ahead.take opener.length) ?_
    rw [htake]
    refine hlevel.steady.mono (List.take_prefix_take_left ?_)
    unfold blockLength
    omega
  obtain ⟨hlines, hsteady⟩ := Comment.relocate_blockLines hcontent
  rw [← hlevel.consume_position hopener] at hlines
  have hcomment : ∀ d, Mode.tags ⟨Comment.blockLines (p.blockFound opener closer).1
      (p.cursor.consume opener.length).position, p.blockSpan opener closer⟩ = .tags d →
        x.clear d.span.stop.offset ∧ ∀ l ∈ d.lines, l.Steady x.position := by
    intro d hd
    cases hd
    exact ⟨hclear, hsteady⟩
  have hlater := (h.consume (p.blockLength opener closer) (p.blockLength opener closer)).note hnotes
  rw [blockComment_eq, blockComment_eq, hlength, hspan, hfound, hlines]
  exact { hlater with mode := rfl, comment := hcomment, lastEnd := fun _ ↦ hstop }

theorem placeTags (h : Abreast x g p q) {c : Comment} (hmode : p.mode = .tags c)
    (registry : Registry) :
    Abreast x g (p.placeTags registry c) (q.placeTags registry (c.relocate x.position)) := by
  obtain ⟨hclear, hsteady⟩ := h.comment c hmode
  have htags := Comment.tags_relocate registry hsteady
  have hevents : q.commentEvents registry (c.relocate x.position) =
      (p.commentEvents registry c).map (·.relocate x.position) := by
    unfold commentEvents
    rw [htags, h.depth, List.isEmpty_map]
    split
    · rfl
    · simp [Event.relocate, ParsedTag.relocate, Comment.relocate, Function.comp_def]
  have hnotes : ((c.relocate x.position).tags registry).flatMap (·.diagnostics) =
      ((c.tags registry).flatMap (·.diagnostics)).map (·.relocate x.position) := by
    rw [htags, List.flatMap_map, List.map_flatMap]
    rfl
  have hevent : ∀ e ∈ p.commentEvents registry c, e.Clear x.clear := by
    intro e he
    rw [eq_of_mem_commentEvents he]
    exact hclear
  have hsend := (h.send hevents hevent).note hnotes
  rw [placeTags_eq, placeTags_eq]
  exact { hsend with mode := rfl, comment := fun d hd ↦ by cases hd }

/-! ### The end of the text -/

/-- Passes that are abreast at the end of their texts have the same findings. -/
theorem findings (h : Abreast x g p q) (husual : ∀ c ∈ p.nesting.contexts, c.Usual g)
    (hat : q.cursor.position = x.position p.cursor.position) :
    q.findings g = (p.findings g).relocate x.position := by
  have hevents : q.nesting.contexts.flatMap (Context.leaving q.cursor.position q.lastEnd) =
      (p.nesting.contexts.flatMap (Context.leaving p.cursor.position p.lastEnd)).map
        (·.relocate x.position) := by
    rw [h.contexts, hat, List.flatMap_map, List.map_flatMap]
    exact List.flatMap_congr fun c hc ↦ Context.leaving_relocate (husual c hc) h.lastEnd
  have hnotes : q.nesting.contexts.flatMap (Context.unwindNotes g q.cursor.position none) =
      (p.nesting.contexts.flatMap (Context.unwindNotes g p.cursor.position none)).map
        (·.relocate x.position) := by
    rw [h.contexts, hat, List.flatMap_map, List.map_flatMap]
    exact List.flatMap_congr fun c _ ↦ Context.unwindNotes_relocate _ _ c
  have hclear : ∀ e ∈ p.nesting.contexts.flatMap (Context.leaving p.cursor.position p.lastEnd),
      e.Clear x.clear := by
    intro e he
    obtain ⟨c, -, hc⟩ := List.mem_flatMap.mp he
    exact clear_leaving c hc
  have hclosed := (h.send hevents hclear).note hnotes
  have hassembly : (q.closeAll g).assembly =
      (p.closeAll g).assembly.relocate x.position source' := by
    rw [closeAll_eq, closeAll_eq]
    exact hclosed.assembly
  have hdiagnostics : (q.closeAll g).diagnostics =
      (p.closeAll g).diagnostics.map (·.relocate x.position) := by
    rw [closeAll_eq, closeAll_eq]
    exact hclosed.diagnostics
  have hsorted : ∀ ds : List Diagnostic, (sortDiagnostics ds).map (·.relocate x.position) =
      sortDiagnostics (ds.map (·.relocate x.position)) :=
    map_sortDiagnostics x.moves.mono fun d ↦ x.moves.offset _
  unfold Pass.findings Findings.relocate
  dsimp only
  rw [hassembly, hdiagnostics, closeAll_cursor, closeAll_cursor, hat,
    Assembly.finish_relocate x.moves, hsorted, List.map_append]
  rfl

end Abreast

end Pass

end Marginalia
