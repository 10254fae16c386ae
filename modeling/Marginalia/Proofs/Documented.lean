import Marginalia.Proofs.Enclosure
import Marginalia.Proofs.TagOrder
import Marginalia.Proofs.Undisturbed

/-!
# Comments right above a definition

Tags for the next anchor go to the definition under their comment if both are at one depth. A
definition at the margin is at depth 0, for its line ends all indentation bodies. So does the line
of a comment at the margin, unless the comment goes on with a run of comments that starts further
up, in a body.
-/

namespace Marginalia

/-! ## Tags that are handed over -/

/-- An anchor right after a comment takes the tags of the comment that are for the next anchor. -/
theorem Assembly.exists_child_of_comment {a : Assembly} {tags : List Tag} {span : Span}
    {depth : Nat} {x : Anchor} {t : Tag} (ht : t ∈ tags) (hplace : t.placement = .nextAnchor)
    (hgap : a.blankLinesBetween span x.span.start ≤ a.maxBlankLines) :
    ∃ n ∈ ((a.comment tags span depth).anchor x depth).top.children,
      n.anchor = some x ∧ t.resolve ∈ n.tags := by
  have hmem : t ∈ tags.filter (·.placement = .nextAnchor) :=
    List.mem_filter.mpr ⟨ht, by simpa using hplace⟩
  have hwaiting : (a.comment tags span depth).waitingAt? depth =
      some ⟨tags.filter (·.placement = .nextAnchor), span, depth⟩ := by
    have hne : ¬(tags.filter (·.placement = .nextAnchor)).isEmpty = true := by
      simpa [List.isEmpty_iff] using List.ne_nil_of_mem hmem
    rw [waitingAt?, comment_waiting, if_neg hne, List.head?_cons]
    simp
  obtain ⟨hsource, hmax⟩ := a.comment_source tags span depth
  have hclose : ¬(a.comment tags span depth).maxBlankLines <
      (a.comment tags span depth).blankLinesBetween span x.span.start := by
    rw [blankLinesBetween, hsource, hmax]
    exact Nat.not_lt.mpr hgap
  have htop : ∀ (b : Assembly) (n : Node), (b.addAnchor n).top = b.top.insert n :=
    fun b n ↦ b.top_mapTop _
  rw [Assembly.anchor, hwaiting]
  dsimp only
  rw [if_neg hclose, htop]
  exact ⟨_, (Node.insert_children_perm _ _).mem_iff.mpr List.mem_cons_self, rfl,
    List.mem_map_of_mem hmem⟩

/-! ## The end of a text in which nothing is mended -/

/-- A scan that reports no mending has mended nothing, and no context that has a closer is open at
its end. -/
theorem Setup.unmended_run {s : Setup} {source : List Char}
    (h : ∀ d ∈ (s.scan source).diagnostics, d.kind.isRecovery = false) :
    let p := Pass.run s (Pass.start s source)
    p.Unmended ∧ ∀ c ∈ p.nesting.contexts, c.opener? s.grammar = none := by
  intro p
  rw [scan_eq] at h
  simp only [sortDiagnostics, List.mem_mergeSort, List.mem_append, List.mem_flatMap] at h
  refine ⟨fun d hd ↦ h d (.inr (.inl hd)), fun c hc ↦ ?_⟩
  have hnotes : ∀ d ∈ c.unwindNotes s.grammar (Position.start.after source) none,
      d.kind.isRecovery = false := fun d hd ↦ h d (.inr (.inr ⟨c, hc, hd⟩))
  unfold Context.unwindNotes at hnotes
  cases hopener : c.opener? s.grammar with
  | none => rfl
  | some opener =>
    rw [hopener] at hnotes
    cases hnotes _ (List.mem_singleton_self _)

/-- An indentation body. -/
def Context.IsIndented (c : Context) : Prop := ∃ opened level, c = .body opened (some level)

theorem Context.Usual.isIndented {g : Grammar} {c : Context} (h : c.Usual g)
    (hindents : g.indents = true) (hopener : c.opener? g = none) : c.IsIndented := by
  rcases c with ⟨i, opened⟩ | ⟨opened, - | level⟩ | ⟨i, opened⟩ | opened
  · cases hopener
  · rw [Usual, hindents] at h
    cases h
  · exact ⟨opened, level, rfl⟩
  · exact h.elim
  · exact h.elim

namespace Pass

variable {s : Setup} {g : Grammar} {p : Pass} {ls : List CommentLine} {c : Cursor}
  {rest : List Char}

/-- A line at the margin leaves all indentation bodies. -/
theorem leaveBodies_margin (cs : List Context) (p : Pass) (hcs : ∀ c ∈ cs, c.IsIndented)
    (h : p.nesting.contexts = cs) : (leaveBodies 0 cs p).nesting.contexts = [] := by
  induction cs generalizing p with
  | nil => exact h
  | cons c cs ih =>
    obtain ⟨opened, level, rfl⟩ := hcs c List.mem_cons_self
    rw [leaveBodies, if_neg (Nat.not_lt_zero _)]
    exact ih _ (fun c hc ↦ hcs c (List.mem_cons_of_mem _ hc)) rfl

theorem dedent_margin (hindents : g.indents = true) (hmargin : p.cursor.lineIndent = 0)
    (h : ∀ c ∈ p.nesting.contexts, c.IsIndented) : (p.dedent g).nesting.contexts = [] := by
  rw [dedent, if_pos hindents, hmargin, dropStaleBody_eq]
  exact leaveBodies_margin _ p h rfl

/-- A comment at the margin ends all indentation bodies before it is read. -/
theorem exists_step_margin {form : CommentForm} (hindents : s.grammar.indents = true)
    (hmode : p.mode = .code) (hline : p.lineStart = true) (hmargin : p.cursor.lineIndent = 0)
    (h : ∀ c ∈ p.nesting.contexts, c.IsIndented)
    (hform : s.grammar.commentStart? p.cursor = some form)
    (hblank : ∀ c, p.cursor.peek? = some c → Text.isBlank c = false) :
    ∃ q, step s p = some q ∧ q.mode = .comment form ∧ q.cursor = p.cursor ∧
      q.nesting.contexts = [] := by
  have hlen := Cursor.length_pos_of_startsWith (Grammar.startsWith_of_commentStart? hform)
  have hne : p.cursor.ahead ≠ [] := List.length_pos_iff.mp (by omega)
  obtain ⟨c, hc⟩ := Cursor.exists_peek?_of_ne_nil hne
  refine ⟨_, step_of_commentStart? hmode hc (hblank c hc) hform, rfl,
    p.atToken_cursor s.grammar, ?_⟩
  change (p.atToken s.grammar).nesting.contexts = []
  rw [atToken, if_pos hline]
  exact dedent_margin (p := { p with lineStart := false }) hindents hmargin h

end Pass

/-! ## A comment and the definition under it -/

namespace Cursor

variable {c : Cursor} {ls : List CommentLine} {rest : List Char}

theorem commentLine_eq {text : List Char} (marker : List Char) (h : c.ahead = text ++ '\n' :: rest)
    (hline : '\n' ∉ text) :
    c.commentLine marker =
      (.strip c.position text (Comment.lineDecoration marker text), c.consume text.length) := by
  have hrest : c.restOfLine = text := by
    have hall : ∀ d ∈ text, d ≠ '\n' := fun d hd hnl ↦ hline (hnl ▸ hd)
    rw [restOfLine, Text.firstLine, h, List.takeWhile_append_of_pos (by simpa using hall)]
    simp
  rw [commentLine, hrest]

/-- The line of a comment that holds a tag for a function, after its marker. -/
theorem commentLine_function (h : c.ahead = " @function".toList ++ '\n' :: rest) :
    c.commentLine ['#'] = (⟨"@function".toList, c.position.after [' ']⟩, c.consume 10) :=
  commentLine_eq ['#'] h (by decide)

theorem firstCommentLine_function (h : c.ahead = '#' :: (" @function".toList ++ '\n' :: rest)) :
    c.firstCommentLine ['#'] =
      ([⟨"@function".toList, (c.consume 1).position.after [' ']⟩], c.consume 11) := by
  have hahead : (c.consume 1).ahead = " @function".toList ++ '\n' :: rest := by
    rw [consume_ahead, h, List.drop_one, List.tail_cons]
  rw [firstCommentLine, show (['#'] : List Char).length = 1 from rfl, commentLine_function hahead,
    consume_consume]

theorem nextCommentLine?_function
    (h : c.ahead = '\n' :: '#' :: (" @function".toList ++ '\n' :: rest)) :
    nextCommentLine? ['#'] (ls, c) =
      some (ls ++ [⟨"@function".toList, (c.consume 2).position.after [' ']⟩], c.consume 12) := by
  have hahead : (c.consume 2).ahead = " @function".toList ++ '\n' :: rest := by
    rw [consume_ahead, h]
    rfl
  rw [nextCommentLine?_of_newline h]
  simp [commentLine_function hahead, consume_consume, Text.isInlineBlank]

theorem nextCommentLine?_definition (h : c.ahead = '\n' :: 'd' :: rest) :
    nextCommentLine? ['#'] (ls, c) = none := by
  rw [nextCommentLine?_of_newline h]
  simp [Text.isInlineBlank]

/-- A comment above a definition ends on its line. -/
theorem nextCommentLine?_above_definition
    (h : c.ahead = '#' :: (" @function".toList ++ '
' :: 'd' :: rest)) :
    nextCommentLine? ['#'] (ls, c.consume 11) = none := by
  have hahead : (c.consume 11).ahead = '\n' :: 'd' :: rest := by
    rw [consume_ahead, h]
    rfl
  exact nextCommentLine?_definition hahead

theorem lineComments_function
    (h : c.ahead = '#' :: (" @function".toList ++ '
' :: 'd' :: rest)) :
    c.lineComments ['#'] =
      ([⟨"@function".toList, (c.consume 1).position.after [' ']⟩], c.consume 11) := by
  refine lineComments_eq_of_runsTo ⟨?_, nextCommentLine?_above_definition h⟩
  rw [firstCommentLine_function h]
  exact .refl _

/-- A comment on the last line of a text goes on with the one on the next line. -/
theorem lineComments_extend_function {more : List Char} {d : Cursor}
    (hopener : c.startsWith ['#'] = true) (hends : Text.EndsLine c.ahead)
    (hlast : (c.lineComments ['#']).2.ahead = ['\n'])
    (hmore : more = '#' :: (" @function".toList ++ '\n' :: 'd' :: rest))
    (hd : d = ((c.lineComments ['#']).2.extend more).consume 1) :
    d.ahead = more ∧ (c.extend more).lineComments ['#'] =
      ((c.lineComments ['#']).1 ++ [⟨"@function".toList, (d.consume 1).position.after [' ']⟩],
        d.consume 11) := by
  obtain ⟨hreach, -⟩ := reaches_extend_lineComments hopener (by decide) hends more
  generalize (c.lineComments ['#']).1 = ls at hreach
  generalize (c.lineComments ['#']).2 = e at hreach hlast hd
  have hnext : (e.extend more).ahead =
      '\n' :: '#' :: (" @function".toList ++ '\n' :: 'd' :: rest) := by
    rw [extend, hlast, hmore]
    rfl
  have hahead : d.ahead = more := by
    rw [hd, consume_ahead, hnext, hmore]
    rfl
  refine ⟨hahead, lineComments_eq_of_runsTo ⟨hreach.trans (.head ?_ (.refl _)),
    nextCommentLine?_above_definition (hahead.trans hmore)⟩⟩
  rw [nextCommentLine?_function hnext, hd, consume_consume, consume_consume]

end Cursor

/-- A line that starts a tag is the first line of one. -/
theorem TagLines.exists_mem_ofLines (i : Nat) (ls : List CommentLine) {l : CommentLine}
    (hl : l.startsTag = true) : ∃ n, ⟨l, [], n⟩ ∈ ofLines i (ls ++ [l]) := by
  induction ls generalizing i with
  | nil =>
    refine ⟨i + 1, ?_⟩
    rw [List.nil_append, ofLines, if_pos hl]
    exact List.mem_cons_self
  | cons m ls ih =>
    obtain ⟨n, hn⟩ := ih (i + 1)
    refine ⟨n, ?_⟩
    rw [List.cons_append, ofLines]
    split
    · exact List.mem_cons_of_mem _ hn
    · exact hn

/-- A comment whose last line is a tag for a function has that tag. -/
theorem Comment.exists_tag_function (ls : List CommentLine) (start : Position) (span : Span) :
    ∃ t ∈ (Comment.tags .standard ⟨ls ++ [⟨"@function".toList, start⟩], span⟩).map (·.tag),
      t.name = "function" ∧ t.placement = .nextAnchor ∧
        t.span = ⟨start, start.after "@function".toList⟩ := by
  obtain ⟨n, hn⟩ :=
    TagLines.exists_mem_ofLines 0 ls (show CommentLine.startsTag ⟨"@function".toList, start⟩ = true
      from rfl)
  rw [tags, map_tag_tagsAfter]
  exact ⟨_, List.mem_map_of_mem hn, rfl, rfl, rfl⟩

namespace Pass

variable {s : Setup} {p : Pass} {c : Comment} {lines : List CommentLine} {cursor : Cursor}
  {rest : List Char}

theorem exists_step_comment {i : Nat} (hmode : p.mode = .comment (.line i))
    (hlines : p.cursor.lineComments (s.grammar.lineComment i) = (lines, cursor)) :
    ∃ q, step s p = some q ∧ q.mode = .tags ⟨lines, cursor.spanFrom p.cursor.position⟩ ∧
      q.cursor = cursor ∧ q.nesting = p.nesting ∧ q.assembly = p.assembly ∧
      q.diagnostics = p.diagnostics := by
  refine ⟨p.readComment s.grammar (.line i), step_comment hmode, ?_⟩
  obtain ⟨_, _, _, hread, -⟩ := p.readComment_line_eq s.grammar i
  rw [hread, hlines]
  exact ⟨rfl, rfl, rfl, rfl, rfl⟩

theorem exists_step_tags (hmode : p.mode = .tags c) (htags : c.tags s.registry ≠ []) :
    ∃ q, step s p = some q ∧ q.mode = .code ∧ q.cursor = p.cursor ∧ q.nesting = p.nesting ∧
      q.assembly =
        p.assembly.comment ((c.tags s.registry).map (·.tag)) c.span p.nesting.depth := by
  refine ⟨p.placeTags s.registry c, step_tags hmode, ?_⟩
  rw [placeTags_eq, commentEvents, if_neg (by simpa [List.isEmpty_iff] using htags)]
  exact ⟨rfl, rfl, rfl, rfl⟩

theorem exists_step_newline (hmode : p.mode = .code) (hahead : p.cursor.ahead = '\n' :: rest)
    (hcontexts : p.nesting.contexts = []) :
    ∃ q, step s p = some q ∧ q.mode = .code ∧ q.cursor = p.cursor.consume 1 ∧
      q.nesting = p.nesting ∧ q.assembly = p.assembly ∧ q.statementStart = true := by
  refine ⟨_, step_newline hmode hahead, ?_⟩
  have hin : (p.consume 1).inStatements s.grammar = true := by
    simp [inStatements, Nesting.top?, consume, hcontexts]
  rw [afterNewline_eq, hin]
  exact ⟨hmode, rfl, rfl, rfl, Bool.or_true _⟩

/-- Outside of all contexts there is no body that a line could leave. -/
theorem atToken_of_contexts (g : Grammar) (h : p.nesting.contexts = []) :
    (p.atToken g).nesting = p.nesting ∧ (p.atToken g).assembly = p.assembly := by
  unfold atToken dedent
  split
  · split
    · rw [show ({ p with lineStart := false } : Pass).nesting.contexts = [] from h,
        dropStaleBody_eq]
      exact ⟨rfl, rfl⟩
    · exact ⟨rfl, rfl⟩
  · exact ⟨rfl, rfl⟩

/-- The token of a definition at the margin. -/
theorem ahead_definition (hahead : p.cursor.ahead = "def f".toList ++ '(' :: rest)
    (hstart : p.statementStart = true) (henclosing : p.assembly.enclosingKind? = none) :
    p.Ahead .python (.anchor ⟨.functionDecl, ['f'], '(' :: rest⟩) := by
  obtain ⟨hunmarked, hbody, hend⟩ : Grammar.python.Unmarked p.cursor ∧
      Grammar.python.bodyOpener? p.cursor = none ∧
        Grammar.python.statementEnd? p.cursor = none := by
    generalize p.cursor = c at hahead ⊢
    obtain ⟨position, behind, ahead⟩ := c
    subst hahead
    exact ⟨⟨rfl, rfl, rfl, rfl, rfl⟩, rfl, rfl⟩
  refine .anchor hunmarked ?_ hend hstart ?_
  · rw [bodyOpener?, hbody, ite_self]
  · rw [hahead, henclosing]
    rfl

theorem exists_step_definition (hgrammar : s.grammar = .python) (hmode : p.mode = .code)
    (hahead : p.cursor.ahead = "def f".toList ++ '(' :: rest) (hstart : p.statementStart = true)
    (hcontexts : p.nesting.contexts = []) (hframes : p.assembly.frames = []) :
    ∃ q, step s p = some q ∧ q.nesting.contexts = [] ∧
      q.assembly = p.assembly.anchor
        ⟨.functionDecl, "f", (p.cursor.consume 5).spanFrom p.cursor.position⟩ 0 := by
  obtain ⟨hnesting, hassembly⟩ := atToken_of_contexts (p := p) .python hcontexts
  have htoken : (p.atToken .python).Ahead .python
      (.anchor ⟨.functionDecl, ['f'], '(' :: rest⟩) := by
    refine ahead_definition (by rwa [atToken_cursor]) (by rwa [atToken_statementStart]) ?_
    rw [hassembly, Assembly.enclosingKind?, hframes]
  have hpeek : p.cursor.peek? = some 'd' := by
    rw [Cursor.peek?, hahead]
    rfl
  rw [← hgrammar] at htoken
  refine ⟨_, step_eq_some_iff.mpr (.token hmode hpeek rfl htoken), ?_, ?_⟩
  · rw [hgrammar]
    exact hnesting ▸ hcontexts
  · have hlength : Recognition.headerLength ⟨.functionDecl, ['f'], '(' :: rest⟩
        (p.atToken .python).cursor.ahead = 5 := by
      rw [atToken_cursor, hahead, Recognition.headerLength]
      simp
    rw [hgrammar]
    change Assembly.anchor (p.atToken .python).assembly ⟨.functionDecl, "f",
      ((p.atToken .python).cursor.consume (Recognition.headerLength _ _)).spanFrom
        (p.atToken .python).cursor.position⟩ (p.atToken .python).nesting.contexts.length = _
    rw [hlength, atToken_cursor, hassembly, hnesting, hcontexts]
    rfl

/-- A comment outside of all contexts and the definition under it are two events, one after the
other. -/
theorem exists_reaches_definition {source : List Char} (hgrammar : s.grammar = .python)
    (hreach : Reaches (step s) (start s source) p) (hmode : p.mode = .comment (.line 0))
    (hcontexts : p.nesting.contexts = []) (hlines : p.cursor.lineComments ['#'] = (lines, cursor))
    (hahead : cursor.ahead = '\n' :: ("def f".toList ++ '(' :: rest)) {span : Span}
    (hspan : cursor.spanFrom p.cursor.position = span)
    (htags : Comment.tags s.registry ⟨lines, span⟩ ≠ []) :
    ∃ q, Reaches (step s) (start s source) q ∧ q.nesting.contexts = [] ∧
      q.assembly = (p.assembly.comment ((Comment.tags s.registry ⟨lines, span⟩).map (·.tag))
        span 0).anchor
          ⟨.functionDecl, "f", (cursor.consume 6).spanFrom (cursor.consume 1).position⟩ 0 := by
  subst hspan
  have hlines' : p.cursor.lineComments (s.grammar.lineComment 0) = (lines, cursor) := by
    rw [hgrammar]
    exact hlines
  obtain ⟨p₁, hstep₁, hmode₁, hcursor₁, hnesting₁, hassembly₁, -⟩ :=
    exists_step_comment hmode hlines'
  obtain ⟨p₂, hstep₂, hmode₂, hcursor₂, hnesting₂, hassembly₂⟩ := exists_step_tags hmode₁ htags
  rw [hcursor₁] at hcursor₂
  rw [hnesting₁] at hnesting₂
  rw [hassembly₁, hnesting₁, Nesting.depth, hcontexts] at hassembly₂
  obtain ⟨p₃, hstep₃, hmode₃, hcursor₃, hnesting₃, hassembly₃, hstart₃⟩ :=
    exists_step_newline (s := s) hmode₂ (hcursor₂ ▸ hahead) (hnesting₂ ▸ hcontexts)
  rw [hcursor₂] at hcursor₃
  rw [hnesting₂] at hnesting₃
  have hreach₃ : Reaches (step s) (start s source) p₃ :=
    hreach.trans (.head hstep₁ (.head hstep₂ (.head hstep₃ (.refl p₃))))
  have hcontexts₃ : p₃.nesting.contexts = [] := by rw [hnesting₃, hcontexts]
  have hahead₃ : p₃.cursor.ahead = "def f".toList ++ '(' :: rest := by
    rw [hcursor₃, Cursor.consume_ahead, hahead, List.drop_one, List.tail_cons]
  obtain ⟨q, hstep, hq, hassembly⟩ := exists_step_definition hgrammar hmode₃ hahead₃ hstart₃
    hcontexts₃ (frames_of_contexts hreach₃ hcontexts₃)
  refine ⟨q, hreach₃.trans (.head hstep (.refl q)), hq, ?_⟩
  rw [hassembly, hassembly₃, hassembly₂, hcursor₃, Cursor.consume_consume]
  rfl

end Pass

/-! ## Comments above a definition -/

/-- A comment that lasts up to the last line of a text, if there is one, stands outside of all
contexts. -/
def Setup.LastCommentOutside (s : Setup) (source : List Char) : Prop :=
  ∀ p, Reaches (Pass.step s) (Pass.start s source) p → p.read?.isSome = true →
    p.cursor.ahead = ['\n'] → p.nesting.contexts = []

instance (s : Setup) (source : List Char) : Decidable (s.LastCommentOutside source) :=
  decidable_of_iff
    (∀ p ∈ visited (Pass.step s) (4 * (source.length + 1)) (Pass.start s source),
      p.read?.isSome = true → p.cursor.ahead = ['\n'] → p.nesting.contexts = [])
    ⟨fun h p hp ↦ h p (Pass.mem_visited_iff.mpr hp), fun h p hp ↦ h p (Pass.mem_visited_iff.mp hp)⟩

theorem Cursor.In.extend {source : List Char} {c : Cursor} (h : c.In source) (more : List Char) :
    (c.extend more).In (source ++ more) := by
  refine ⟨?_, h.2⟩
  rw [← h.1]
  exact (List.append_assoc _ _ _).symm

/-- A cursor with the rest of a text ahead stands where the rest starts. -/
theorem Cursor.In.position_eq {pre post : List Char} {c : Cursor} (h : c.In (pre ++ post))
    (hahead : c.ahead = post) : c.position = Position.start.after pre := by
  have htext := h.1
  rw [Cursor.text, hahead] at htext
  rw [h.2, List.append_cancel_right htext]

/-- Comments in Python start with a hash sign. -/
theorem Grammar.commentStart?_python {c : Cursor} {form : CommentForm}
    (h : python.commentStart? c = some form) : form = .line 0 := by
  change (List.findIdx? c.startsWith [['#']]).map .line = some form at h
  rw [List.findIdx?_cons] at h
  cases hstart : c.startsWith ['#'] with
  | true =>
    rw [hstart] at h
    exact (Option.some.inj h).symm
  | false =>
    rw [hstart] at h
    cases h

namespace Pass

variable {s : Setup} {before after : List Char} {p : Pass}

/-- Where a text ends in code, a comment on the next line is the next token, and ends all
indentation bodies. -/
theorem exists_step_after_end {more rest : List Char} (hgrammar : s.grammar = .python)
    (hline : before = [] ∨ Text.EndsLine before) (hreach : Reaches (step s) (start s before) p)
    (hnil : p.cursor.ahead = []) (hmode : p.mode = .code) (hstart : p.lineStart = true)
    (hopener : ∀ c ∈ p.nesting.contexts, c.opener? s.grammar = none) (hmore : more = '#' :: rest) :
    ∃ q, step s (p.extend before more) = some q ∧ q.mode = .comment (.line 0) ∧
      q.cursor = (p.extend before more).cursor ∧ q.nesting.contexts = [] := by
  have hindents : s.grammar.indents = true := by rw [hgrammar]; rfl
  have hreg := (reaches_moves hreach).2
  have hahead : (p.extend before more).cursor.ahead = more := by
    rw [extend, Cursor.extend, hnil, List.nil_append]
  have hbehind : p.cursor.behind = before.reverse := by
    have htext := hreg.cursor.1
    rw [Cursor.text, hnil, List.append_nil] at htext
    rw [← htext, List.reverse_reverse]
  have hlineBehind : (p.extend before more).cursor.lineBehind = [] := by
    rw [Cursor.lineBehind, show (p.extend before more).cursor.behind = p.cursor.behind from rfl,
      hbehind]
    rcases hline with rfl | hline
    · rfl
    · obtain ⟨init, rfl⟩ := List.getLast?_eq_some_iff.mp hline
      simp
  have hmargin : (p.extend before more).cursor.lineIndent = 0 := by
    rw [Cursor.lineIndent, hlineBehind, hahead, hmore]
    rfl
  have hform : s.grammar.commentStart? (p.extend before more).cursor = some (.line 0) := by
    rw [hgrammar]
    generalize (p.extend before more).cursor = c at hahead
    obtain ⟨position, behind, ahead⟩ := c
    rw [hmore] at hahead
    subst hahead
    rfl
  have hblank : ∀ c, (p.extend before more).cursor.peek? = some c → Text.isBlank c = false := by
    intro c hc
    rw [Cursor.peek?, hahead, hmore, List.head?_cons, Option.some.injEq] at hc
    subst hc
    decide
  exact exists_step_margin (p := p.extend before more) hindents hmode hstart hmargin
    (fun c hc ↦ (hreg.contexts c hc).isIndented hindents (hopener c hc)) hform hblank

/-- A comment that lasts up to the last line of a text is read where it stands. -/
theorem contexts_of_last_comment (hgrammar : s.grammar = .python)
    (houtside : s.LastCommentOutside before) (hreach : Reaches (step s) (start s before) p)
    (hmode : p.mode = .comment (.line 0)) (hlast : (p.cursor.lineComments ['#']).2.ahead = ['\n']) :
    p.nesting.contexts = [] := by
  have hlines : p.cursor.lineComments (s.grammar.lineComment 0) =
      ((p.cursor.lineComments ['#']).1, (p.cursor.lineComments ['#']).2) := by
    rw [hgrammar]
    rfl
  obtain ⟨q, hstep, hqmode, hqcursor, hqnesting, -⟩ := exists_step_comment hmode hlines
  rw [← hqnesting]
  refine houtside q (hreach.trans (.head hstep (.refl q))) ?_ (by rw [hqcursor, hlast])
  rw [read?, hqmode]
  rfl

/-- The comment after a text, or the one that it goes on with, is read outside of all contexts, and
ends with a tag for a function. -/
theorem exists_reaches_comment (hgrammar : s.grammar = .python)
    (hline : before = [] ∨ Text.EndsLine before)
    (hunmended : ∀ d ∈ (s.scan before).diagnostics, d.kind.isRecovery = false)
    (houtside : s.LastCommentOutside before) {more : List Char}
    (hmore : more = '#' :: (" @function".toList ++ '\n' :: 'd' :: after)) :
    ∃ p lines, ∃ c : Cursor, Reaches (step s) (start s (before ++ more)) p ∧
      p.mode = .comment (.line 0) ∧ p.nesting.contexts = [] ∧ c.In (before ++ more) ∧
      c.ahead = more ∧ p.cursor.lineComments ['#'] =
        (lines ++ [⟨"@function".toList, (c.consume 1).position.after [' ']⟩], c.consume 11) := by
  have hplain : s.grammar.Plain := hgrammar ▸ Grammar.plain_python
  have hne : more ≠ [] := by rw [hmore]; exact List.cons_ne_nil _ _
  obtain ⟨hquiet, hopener⟩ := s.unmended_run hunmended
  have hrun := reaches_run s (start s before)
  have hend := step_run (atComment_start s before)
  generalize run s (start s before) = e at hquiet hopener hrun hend
  obtain ⟨p, hp, hlanded, hlong, rfl | ⟨form, hmode, hlast⟩⟩ :=
    exists_reaches_extend hplain hline hne hrun hquiet
  · -- the text ends in code, and the comment is the first token of the next line
    obtain ⟨hnil, -⟩ := ahead_eq_nil_of_step_eq_none hend
    obtain ⟨-, hmode, hstart⟩ := hlanded.resolve_left fun h ↦ h.1.ne_nil hnil
    have hahead : (p.extend before more).cursor.ahead = more := by
      rw [extend, Cursor.extend, hnil, List.nil_append]
    obtain ⟨q, hstep, hqmode, hcursor, hcontexts⟩ :=
      exists_step_after_end hgrammar hline hp hnil hmode hstart hopener hmore
    refine ⟨q, [], (p.extend before more).cursor, hlong.trans (.head hstep (.refl q)), hqmode,
      hcontexts, (reaches_moves hp).2.cursor.extend more, hahead, ?_⟩
    rw [hcursor, Cursor.lineComments_function (hahead.trans hmore), List.nil_append]
  · -- a comment on the last line of the text goes on with the one on the next line
    have hform := atComment_of_reaches hp form hmode
    rw [hgrammar] at hform
    obtain rfl := Grammar.commentStart?_python hform
    have hopener : p.cursor.startsWith ['#'] = true := Grammar.startsWith_of_commentStart? hform
    have hends : Text.EndsLine p.cursor.ahead := by
      refine (hlanded.resolve_right ?_).1
      rintro ⟨-, hcode, -⟩
      cases hcode.symm.trans hmode
    rw [readComment_line_cursor, hgrammar] at hlast
    change (p.cursor.lineComments ['#']).2.ahead = ['\n'] at hlast
    have hcontexts := contexts_of_last_comment hgrammar houtside hp hmode hlast
    obtain ⟨⟨k, hk⟩, -⟩ := p.cursor.lineComments_spec ['#']
    have hin : (p.cursor.lineComments ['#']).2.In before :=
      hk ▸ (reaches_moves hp).2.cursor.consume k
    obtain ⟨hahead, hlines⟩ := Cursor.lineComments_extend_function hopener hends hlast hmore rfl
    exact ⟨p.extend before more, _, _, hlong, hmode, hcontexts, (hin.extend more).consume 1,
      hahead, hlines⟩

end Pass

/-- A comment outside of all contexts hands its tags for the next anchor to the definition under it.
-/
theorem Pass.exists_child_of_reaches {s : Setup} {source rest : List Char} {p : Pass}
    {lines : List CommentLine} {cursor : Cursor} {t : Tag} (hgrammar : s.grammar = .python)
    (hreach : Reaches (step s) (start s source) p) (hmode : p.mode = .comment (.line 0))
    (hcontexts : p.nesting.contexts = []) (hlines : p.cursor.lineComments ['#'] = (lines, cursor))
    (hin : cursor.In source) (hahead : cursor.ahead = '\n' :: ("def f".toList ++ '(' :: rest))
    (ht : t ∈ (Comment.tags s.registry ⟨lines, cursor.spanFrom p.cursor.position⟩).map (·.tag))
    (hplace : t.placement = .nextAnchor) :
    ∃ n ∈ (s.scan source).outline.root.children,
      n.anchor = some
        ⟨.functionDecl, "f", (cursor.consume 6).spanFrom (cursor.consume 1).position⟩ ∧
      t.resolve ∈ n.tags := by
  have htags : Comment.tags s.registry ⟨lines, cursor.spanFrom p.cursor.position⟩ ≠ [] := by
    intro hnil
    rw [hnil] at ht
    cases ht
  obtain ⟨q, hq, hqcontexts, hassembly⟩ :=
    exists_reaches_definition hgrammar hreach hmode hcontexts hlines hahead rfl htags
  have hframes := frames_of_contexts hq hqcontexts
  have hgap : p.assembly.blankLinesBetween (cursor.spanFrom p.cursor.position)
      (cursor.consume 1).position ≤ p.assembly.maxBlankLines := by
    rw [Assembly.blankLinesBetween, source_of_reaches hreach]
    change blankLines ((Text.slice? source cursor.position.offset _).getD []) ≤ _
    rw [hin.slice_consume 1, hahead]
    exact Nat.zero_le _
  obtain ⟨n, hn, hanchor, hattached⟩ := Assembly.exists_child_of_comment
    (x := ⟨.functionDecl, "f", (cursor.consume 6).spanFrom (cursor.consume 1).position⟩) ht hplace
    hgap
  rw [← hassembly, Assembly.top, hframes] at hn
  have hgrows := grows_scan hq
  rw [Assembly.tree, Assembly.top, Assembly.openNodes, hframes] at hgrows
  obtain ⟨m, hm, hsame, hkept⟩ := hgrows.children n hn
  exact ⟨m, hm, hsame.trans hanchor, hkept hattached⟩

/-- A comment with a tag for a function right above a definition at the margin is attached to it,
whatever comes after, if the code before it is in order and no comment goes on into it from the body
of another definition. -/
theorem scan_attaches_comment_above_definition (options : ScanOptions) (before after : List Char)
    (hline : before = [] ∨ Text.EndsLine before)
    (hunmended : ∀ d ∈ (Setup.scan ⟨.python, .standard, options⟩ before).diagnostics,
      d.kind.isRecovery = false)
    (houtside : Setup.LastCommentOutside ⟨.python, .standard, options⟩ before) :
    let here := Position.start.after before
    let source := before ++ ("# @function\ndef f():\n    pass\n".toList ++ after)
    ∃ n ∈ (Setup.scan ⟨.python, .standard, options⟩ source).outline.root.children,
      n.anchor = some ⟨.functionDecl, "f",
        here.after "# @function\n".toList, here.after "# @function\ndef f".toList⟩ ∧
      ∃ t ∈ n.tags, t.name = "function" ∧ t.resolved = true ∧
        t.span = ⟨here.after "# ".toList, here.after "# @function".toList⟩ := by
  intro here source
  let s : Setup := ⟨.python, .standard, options⟩
  obtain ⟨p, lines, c, hp, hmode, hcontexts, hin, hahead, hlines⟩ :=
    Pass.exists_reaches_comment (s := s) rfl hline hunmended houtside
      (show "# @function\ndef f():\n    pass\n".toList ++ after =
        '#' :: (" @function".toList ++ '\n' :: 'd' :: ("ef f():\n    pass\n".toList ++ after)) from
          rfl)
  have hposition (k : Nat) : (c.consume k).position =
      here.after (("# @function\ndef f():\n    pass\n".toList ++ after).take k) := by
    rw [Cursor.consume_position, hin.position_eq hahead, hahead]
  have hnext : (c.consume 11).ahead =
      '\n' :: ("def f".toList ++ '(' :: ("):\n    pass\n".toList ++ after)) := by
    rw [Cursor.consume_ahead, hahead]
    rfl
  obtain ⟨t, ht, hname, hplace, hspan⟩ := Comment.exists_tag_function lines
    ((c.consume 1).position.after [' ']) ((c.consume 11).spanFrom p.cursor.position)
  obtain ⟨n, hn, hanchor, hattached⟩ := Pass.exists_child_of_reaches rfl hp hmode hcontexts hlines
    (hin.consume 11) hnext ht hplace
  clear_value here
  refine ⟨n, hn, ?_, t.resolve, hattached, hname, rfl, ?_⟩
  · rw [hanchor, Cursor.spanFrom, Cursor.consume_consume, Cursor.consume_consume, hposition,
      hposition]
    rfl
  · change t.span = _
    rw [hspan, hposition, ← Position.after_append, ← Position.after_append]
    rfl

/-- A comment may go on with one at the margin, whose line has ended the body above it. -/
theorem scan_attaches_comment_after_margin :
    let s : Setup := ⟨.python, .standard, {}⟩
    let before := "def g():\n    pass\n# x\n".toList
    let source := before ++ ("# @function\ndef f():\n    pass\n".toList ++ [])
    Text.EndsLine before ∧ s.LastCommentOutside before ∧
      ∃ n ∈ (s.scan source).outline.root.children,
        n.anchor = some ⟨.functionDecl, "f", ⟨34, 5, 1⟩, ⟨39, 5, 6⟩⟩ ∧
        ∃ t ∈ n.tags, t.name = "function" ∧ t.resolved = true ∧
          t.span = ⟨⟨24, 4, 3⟩, ⟨33, 4, 12⟩⟩ := by
  intro s before source
  have hline : Text.EndsLine before := by rw [Text.EndsLine]; decide
  have houtside : s.LastCommentOutside before := by decide +kernel
  obtain ⟨n, hn, hanchor, t, ht, hname, hresolved, hspan⟩ :=
    scan_attaches_comment_above_definition {} before [] (.inr hline) (by decide +kernel) houtside
  refine ⟨hline, houtside, n, by simpa only [s, source] using hn, ?_, t, ht, hname, hresolved, ?_⟩
  · rw [hanchor]
    decide +kernel
  · rw [hspan]
    decide +kernel

/-- A comment that goes on with one in a body is in that body, and its tags wait for an anchor
there. -/
theorem scan_withholds_comment_in_body :
    let s : Setup := ⟨.python, .standard, {}⟩
    let before := "def g():\n    pass\n    # x\n".toList
    let source := before ++ ("# @function\ndef f():\n    pass\n".toList ++ [])
    Text.EndsLine before ∧ (∀ d ∈ (s.scan before).diagnostics, d.kind.isRecovery = false) ∧
      (∀ n ∈ (s.scan source).outline.root.nodes, n.tags = []) ∧
      (s.scan source).outline.unresolved.map (·.span) = [⟨⟨28, 4, 3⟩, ⟨37, 4, 12⟩⟩] := by
  intro s before source
  refine ⟨?_, ?_, ?_, ?_⟩
  · rw [Text.EndsLine]
    decide
  all_goals decide +kernel

end Marginalia
