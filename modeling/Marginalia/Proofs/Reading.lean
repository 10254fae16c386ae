import Marginalia.Proofs.Lookahead
import Marginalia.Proofs.Transitions

/-!
# What a step does

A step reads a comment, places its tags, consumes a blank, deals with a token of code, or skips
code. The transition function looks for these in a fixed order, and a token is looked for in ten
places. Both orders are taken apart here and nowhere else: a token, a step and a step of skipping
have one case for each thing that they can be, with all that has been found out on the way.

What a pass reads is told apart from what it does about it, so that two scans can be compared token
by token.
-/

namespace Marginalia

/-- What a pass reads in one step in code. -/
inductive Token where
  | newline
  | blank
  | comment (form : CommentForm)
  | literal (delimiter : Nat)
  | regex (text : List Char)
  | closer (pair : Nat)
  | opener (pair : Nat)
  /-- The opener of an indentation body. -/
  | indentation (opener : List Char)
  | separator (text : List Char)
  /-- The header of an anchor. -/
  | anchor (header : Recognition)
  /-- The start of a statement that is no anchor. -/
  | plain
  /-- Code inside of a statement. -/
  | inner
deriving DecidableEq, Repr

/-- The start of a statement, by the header that is recognised there. -/
def Token.ofHeader : Option Recognition → Token
  | some r => .anchor r
  | none => .plain

/-- No comment, literal or bracket starts at a cursor. -/
structure Grammar.Unmarked (g : Grammar) (c : Cursor) : Prop where
  comment : g.commentStart? c = none
  string : g.stringStart? c = none
  regex : g.regexLiteral? c = none
  closer : g.blockClose? c = none
  opener : g.blockOpen? c = none

namespace Pass

variable {s : Setup} {g : Grammar} {p q : Pass} {t : Token}

/-! ## Tokens -/

/-- The pass at the first token of its line, which may end indentation bodies. -/
def atToken (p : Pass) (g : Grammar) : Pass :=
  if p.lineStart then { p with lineStart := false }.dedent g else p

/-- The token at the cursor. -/
def tokenAhead (p : Pass) (g : Grammar) : Token :=
  if let some form := g.commentStart? p.cursor then .comment form
  else if let some i := g.stringStart? p.cursor then .literal i
  else if let some text := g.regexLiteral? p.cursor then .regex text
  else if let some i := g.blockClose? p.cursor then .closer i
  else if let some i := g.blockOpen? p.cursor then .opener i
  else if let some opener := p.bodyOpener? g then .indentation opener
  else if let some text := g.statementEnd? p.cursor then .separator text
  else if p.statementStart then
    match g.recognise? p.cursor.ahead p.assembly.enclosingKind? with
    | some r => .anchor r
    | none => .plain
  else .inner

/-- Deal with a token. -/
def take (p : Pass) (g : Grammar) : Token → Pass
  | .newline => (p.consume 1).afterNewline g
  | .blank => p.consume 1
  | .comment form => { p with mode := .comment form }
  | .literal i => { p with statementStart := false }.literal g i
  | .regex text => { p with statementStart := false }.consume text.length
  | .closer i => p.closeBlock g i
  | .opener i => p.openBlock g i
  | .indentation opener => p.openIndentBody opener
  | .separator text => p.separator g text
  | .anchor r => { p with statementStart := false }.addAnchor r
  | .plain => { { p with statementStart := false }.cancelBody with mode := .skip }
  | .inner => { p with mode := .skip }

/-- A token is ahead: what has been found, after what has been looked for in vain. -/
inductive Ahead (g : Grammar) (p : Pass) : Token → Prop where
  | comment {form : CommentForm} (found : g.commentStart? p.cursor = some form) :
      Ahead g p (.comment form)
  | literal {i : Nat} (comment : g.commentStart? p.cursor = none)
      (found : g.stringStart? p.cursor = some i) : Ahead g p (.literal i)
  | regex {text : List Char} (comment : g.commentStart? p.cursor = none)
      (string : g.stringStart? p.cursor = none) (found : g.regexLiteral? p.cursor = some text) :
      Ahead g p (.regex text)
  | closer {i : Nat} (comment : g.commentStart? p.cursor = none)
      (string : g.stringStart? p.cursor = none) (regex : g.regexLiteral? p.cursor = none)
      (found : g.blockClose? p.cursor = some i) : Ahead g p (.closer i)
  | opener {i : Nat} (comment : g.commentStart? p.cursor = none)
      (string : g.stringStart? p.cursor = none) (regex : g.regexLiteral? p.cursor = none)
      (closer : g.blockClose? p.cursor = none) (found : g.blockOpen? p.cursor = some i) :
      Ahead g p (.opener i)
  | indentation {opener : List Char} (unmarked : g.Unmarked p.cursor)
      (found : p.bodyOpener? g = some opener) : Ahead g p (.indentation opener)
  | separator {text : List Char} (unmarked : g.Unmarked p.cursor) (body : p.bodyOpener? g = none)
      (found : g.statementEnd? p.cursor = some text) : Ahead g p (.separator text)
  | anchor {r : Recognition} (unmarked : g.Unmarked p.cursor) (body : p.bodyOpener? g = none)
      (separator : g.statementEnd? p.cursor = none) (starts : p.statementStart = true)
      (found : g.recognise? p.cursor.ahead p.assembly.enclosingKind? = some r) :
      Ahead g p (.anchor r)
  | plain (unmarked : g.Unmarked p.cursor) (body : p.bodyOpener? g = none)
      (separator : g.statementEnd? p.cursor = none) (starts : p.statementStart = true)
      (header : g.recognise? p.cursor.ahead p.assembly.enclosingKind? = none) : Ahead g p .plain
  | inner (unmarked : g.Unmarked p.cursor) (body : p.bodyOpener? g = none)
      (separator : g.statementEnd? p.cursor = none) (goesOn : p.statementStart = false) :
      Ahead g p .inner

theorem ahead_tokenAhead (p : Pass) (g : Grammar) : p.Ahead g (p.tokenAhead g) := by
  unfold tokenAhead
  cases hcomment : g.commentStart? p.cursor with
  | some form => exact .comment hcomment
  | none =>
  cases hstring : g.stringStart? p.cursor with
  | some i => exact .literal hcomment hstring
  | none =>
  cases hregex : g.regexLiteral? p.cursor with
  | some text => exact .regex hcomment hstring hregex
  | none =>
  cases hcloser : g.blockClose? p.cursor with
  | some i => exact .closer hcomment hstring hregex hcloser
  | none =>
  cases hopener : g.blockOpen? p.cursor with
  | some i => exact .opener hcomment hstring hregex hcloser hopener
  | none =>
  have hunmarked : g.Unmarked p.cursor := ⟨hcomment, hstring, hregex, hcloser, hopener⟩
  cases hbody : p.bodyOpener? g with
  | some opener => exact .indentation hunmarked hbody
  | none =>
  cases hend : g.statementEnd? p.cursor with
  | some text => exact .separator hunmarked hbody hend
  | none =>
  cases hstart : p.statementStart with
  | false => exact .inner hunmarked hbody hend hstart
  | true =>
  cases hheader : g.recognise? p.cursor.ahead p.assembly.enclosingKind? with
  | some r => exact .anchor hunmarked hbody hend hstart hheader
  | none => exact .plain hunmarked hbody hend hstart hheader

/-- What has been found decides which token is ahead. -/
theorem ahead_iff : p.Ahead g t ↔ p.tokenAhead g = t := by
  refine ⟨fun h ↦ ?_, fun h ↦ h ▸ p.ahead_tokenAhead g⟩
  unfold tokenAhead
  cases h with
  | comment found => rw [found]
  | literal comment found => rw [comment, found]
  | regex comment string found => rw [comment, string, found]
  | closer comment string regex found => rw [comment, string, regex, found]
  | opener comment string regex closer found => rw [comment, string, regex, closer, found]
  | indentation unmarked found =>
    obtain ⟨comment, string, regex, closer, opener⟩ := unmarked
    rw [comment, string, regex, closer, opener, found]
  | separator unmarked body found =>
    obtain ⟨comment, string, regex, closer, opener⟩ := unmarked
    rw [comment, string, regex, closer, opener, body, found]
  | anchor unmarked body separator starts found =>
    obtain ⟨comment, string, regex, closer, opener⟩ := unmarked
    rw [comment, string, regex, closer, opener, body, separator, starts, found]
    rfl
  | plain unmarked body separator starts header =>
    obtain ⟨comment, string, regex, closer, opener⟩ := unmarked
    rw [comment, string, regex, closer, opener, body, separator, starts, header]
    rfl
  | inner unmarked body separator goesOn =>
    obtain ⟨comment, string, regex, closer, opener⟩ := unmarked
    rw [comment, string, regex, closer, opener, body, separator, goesOn]
    rfl

/-- The start of a statement is ahead where nothing else is found, whatever its header. -/
theorem ahead_ofHeader_iff {header : Option Recognition} :
    p.Ahead g (.ofHeader header) ↔ g.Unmarked p.cursor ∧ p.bodyOpener? g = none ∧
      g.statementEnd? p.cursor = none ∧ p.statementStart = true ∧
      g.recognise? p.cursor.ahead p.assembly.enclosingKind? = header := by
  refine ⟨fun h ↦ ?_, fun ⟨unmarked, body, separator, starts, found⟩ ↦ ?_⟩
  · cases header with
    | some r =>
      cases h with
      | anchor unmarked body separator starts found =>
        exact ⟨unmarked, body, separator, starts, found⟩
    | none =>
      cases h with
      | plain unmarked body separator starts found =>
        exact ⟨unmarked, body, separator, starts, found⟩
  · cases header with
    | some r => exact .anchor unmarked body separator starts found
    | none => exact .plain unmarked body separator starts found

/-- Code deals with the token ahead. -/
theorem Ahead.dispatch_eq (h : p.Ahead g t) : p.dispatch g = p.take g t := by
  unfold dispatch
  cases h with
  | comment found => rw [found]; rfl
  | literal comment found => rw [comment, found]; rfl
  | regex comment string found => rw [comment, string, found]; rfl
  | closer comment string regex found => rw [comment, string, regex, found]; rfl
  | opener comment string regex closer found => rw [comment, string, regex, closer, found]; rfl
  | indentation unmarked found =>
    obtain ⟨comment, string, regex, closer, opener⟩ := unmarked
    rw [comment, string, regex, closer, opener, found]
    rfl
  | separator unmarked body found =>
    obtain ⟨comment, string, regex, closer, opener⟩ := unmarked
    rw [comment, string, regex, closer, opener, body, found]
    rfl
  | anchor unmarked body separator starts found =>
    obtain ⟨comment, string, regex, closer, opener⟩ := unmarked
    rw [comment, string, regex, closer, opener, body, separator, starts]
    simp only [if_true, statement, found]
    rfl
  | plain unmarked body separator starts header =>
    obtain ⟨comment, string, regex, closer, opener⟩ := unmarked
    rw [comment, string, regex, closer, opener, body, separator, starts]
    simp only [if_true, statement, header]
    rfl
  | inner unmarked body separator goesOn =>
    obtain ⟨comment, string, regex, closer, opener⟩ := unmarked
    rw [comment, string, regex, closer, opener, body, separator]
    exact if_neg (Bool.eq_false_iff.mp goesOn)

theorem dispatch_eq_take (p : Pass) (g : Grammar) : p.dispatch g = p.take g (p.tokenAhead g) :=
  (p.ahead_tokenAhead g).dispatch_eq

theorem token_eq_take (p : Pass) (g : Grammar) :
    p.token g = ((p.atToken g).take g ((p.atToken g).tokenAhead g)).markEnd := by
  rw [← dispatch_eq_take]
  rfl

/-- An anchor is what the grammar recognises ahead; it recognises none where a statement is plain. -/
theorem recognise?_of_tokenAhead (p : Pass) (g : Grammar) :
    (∀ r, p.tokenAhead g = .anchor r →
      g.recognise? p.cursor.ahead p.assembly.enclosingKind? = some r) ∧
    (p.tokenAhead g = .plain →
      g.recognise? p.cursor.ahead p.assembly.enclosingKind? = none) := by
  refine ⟨fun r ht ↦ ?_, fun ht ↦ ?_⟩
  · cases ahead_iff.mpr ht with
    | anchor unmarked body separator starts found => exact found
  · cases ahead_iff.mpr ht with
    | plain unmarked body separator starts header => exact header

/-- Two passes look up the same at their cursors, up to the headers of anchors. -/
structure LooksAlike (g : Grammar) (p q : Pass) : Prop where
  comment : g.commentStart? q.cursor = g.commentStart? p.cursor
  string : g.stringStart? q.cursor = g.stringStart? p.cursor
  regex : g.regexLiteral? q.cursor = g.regexLiteral? p.cursor
  closer : g.blockClose? q.cursor = g.blockClose? p.cursor
  opener : g.blockOpen? q.cursor = g.blockOpen? p.cursor
  body : q.bodyOpener? g = p.bodyOpener? g
  separator : g.statementEnd? q.cursor = g.statementEnd? p.cursor
  starts : q.statementStart = p.statementStart

theorem LooksAlike.unmarked (h : LooksAlike g p q) (hp : g.Unmarked p.cursor) :
    g.Unmarked q.cursor where
  comment := h.comment.trans hp.comment
  string := h.string.trans hp.string
  regex := h.regex.trans hp.regex
  closer := h.closer.trans hp.closer
  opener := h.opener.trans hp.opener

theorem LooksAlike.ahead (h : LooksAlike g p q) (hp : p.Ahead g t)
    (ht : ∀ header, t ≠ .ofHeader header) : q.Ahead g t := by
  cases hp with
  | comment found => exact .comment (h.comment.trans found)
  | literal comment found => exact .literal (h.comment.trans comment) (h.string.trans found)
  | regex comment string found =>
    exact .regex (h.comment.trans comment) (h.string.trans string) (h.regex.trans found)
  | closer comment string regex found =>
    exact .closer (h.comment.trans comment) (h.string.trans string) (h.regex.trans regex)
      (h.closer.trans found)
  | opener comment string regex closer found =>
    exact .opener (h.comment.trans comment) (h.string.trans string) (h.regex.trans regex)
      (h.closer.trans closer) (h.opener.trans found)
  | indentation unmarked found => exact .indentation (h.unmarked unmarked) (h.body.trans found)
  | separator unmarked body found =>
    exact .separator (h.unmarked unmarked) (h.body.trans body) (h.separator.trans found)
  | anchor unmarked body separator starts found => exact absurd rfl (ht (some _))
  | plain unmarked body separator starts header => exact absurd rfl (ht none)
  | inner unmarked body separator goesOn =>
    exact .inner (h.unmarked unmarked) (h.body.trans body) (h.separator.trans separator)
      (h.starts.trans goesOn)

/-- Passes that look up the same read the same token, or both of them the start of a statement. -/
theorem LooksAlike.tokenAhead (h : LooksAlike g p q) :
    q.tokenAhead g = p.tokenAhead g ∧ (∀ header, p.tokenAhead g ≠ .ofHeader header) ∨
      p.tokenAhead g = .ofHeader (g.recognise? p.cursor.ahead p.assembly.enclosingKind?) ∧
      q.tokenAhead g = .ofHeader (g.recognise? q.cursor.ahead q.assembly.enclosingKind?) := by
  have hp := p.ahead_tokenAhead g
  by_cases hheader : ∃ header, p.tokenAhead g = .ofHeader header
  · obtain ⟨header, ht⟩ := hheader
    obtain ⟨unmarked, body, separator, starts, found⟩ := ahead_ofHeader_iff.mp (ht ▸ hp)
    exact .inr ⟨by rw [ht, found], ahead_iff.mp (ahead_ofHeader_iff.mpr ⟨h.unmarked unmarked,
      h.body.trans body, h.separator.trans separator, h.starts.trans starts, rfl⟩)⟩
  · have ht : ∀ header, p.tokenAhead g ≠ .ofHeader header := fun header h ↦ hheader ⟨header, h⟩
    exact .inl ⟨ahead_iff.mp (h.ahead hp ht), ht⟩

/-- Passes that also recognise the same headers read the same token. -/
theorem LooksAlike.tokenAhead_eq (h : LooksAlike g p q)
    (hheader : g.recognise? q.cursor.ahead q.assembly.enclosingKind? =
      g.recognise? p.cursor.ahead p.assembly.enclosingKind?) :
    q.tokenAhead g = p.tokenAhead g := by
  rcases h.tokenAhead with ⟨heq, -⟩ | ⟨hp, hq⟩
  · exact heq
  · rw [hp, hq, hheader]

/-- An anchor waits where the opener of an indentation body counts as one. -/
theorem bodyOpener?_eq_some {opener : List Char} (h : p.bodyOpener? g = some opener) :
    p.awaitsBody = true ∧ g.bodyOpener? p.cursor = some opener := by
  unfold bodyOpener? at h
  split at h
  · exact ⟨‹_›, h⟩
  · cases h

theorem bodyOpener?_of_braces (h : g.indents = false) (p : Pass) : p.bodyOpener? g = none := by
  refine Option.eq_none_iff_forall_ne_some.mpr fun opener hopener ↦ ?_
  rw [Grammar.indents_of_bodyOpener? (bodyOpener?_eq_some hopener).2] at h
  cases h

/-- Without indentation bodies, nothing but a note changes at the first token of a line. -/
theorem atToken_of_braces (h : g.indents = false) (p : Pass) :
    p.atToken g = { p with lineStart := false } := by
  unfold atToken dedent
  cases p with
  | mk cursor nesting assembly mode statementStart lineStart pendingBody lastEnd ds journal =>
    cases lineStart with
    | false => rfl
    | true => simp [h]

/-- The first token of a line sends events and closes contexts; only the wait for a body and a note
change besides. -/
theorem atToken_eq (p : Pass) (g : Grammar) :
    ∃ es outer pending, p.atToken g =
      { p.send es with
        nesting := { p.nesting with contexts := outer }
        lineStart := false
        pendingBody := pending } := by
  unfold atToken
  cases hline : p.lineStart with
  | true =>
    obtain ⟨es, outer, pending, h⟩ := { p with lineStart := false }.dedent_eq g
    exact ⟨es, outer, pending, h⟩
  | false =>
    refine ⟨[], p.nesting.contexts, p.pendingBody, ?_⟩
    cases p
    cases hline
    rfl

@[simp] theorem atToken_cursor (p : Pass) (g : Grammar) : (p.atToken g).cursor = p.cursor := by
  obtain ⟨es, outer, pending, h⟩ := p.atToken_eq g
  rw [h]
  rfl

@[simp] theorem atToken_mode (p : Pass) (g : Grammar) : (p.atToken g).mode = p.mode := by
  obtain ⟨es, outer, pending, h⟩ := p.atToken_eq g
  rw [h]
  rfl

@[simp] theorem atToken_statementStart (p : Pass) (g : Grammar) :
    (p.atToken g).statementStart = p.statementStart := by
  obtain ⟨es, outer, pending, h⟩ := p.atToken_eq g
  rw [h]
  rfl

@[simp] theorem atToken_lastEnd (p : Pass) (g : Grammar) :
    (p.atToken g).lastEnd = p.lastEnd := by
  obtain ⟨es, outer, pending, h⟩ := p.atToken_eq g
  rw [h]
  rfl

@[simp] theorem atToken_diagnostics (p : Pass) (g : Grammar) :
    (p.atToken g).diagnostics = p.diagnostics := by
  obtain ⟨es, outer, pending, h⟩ := p.atToken_eq g
  rw [h]
  rfl

/-- What a pass reads next, if it is in code. -/
def reads (p : Pass) (g : Grammar) : Option Token :=
  match p.mode with
  | .code =>
    p.cursor.peek?.map fun c ↦
      if c = '\n' then .newline
      else if Text.isBlank c then .blank
      else (p.atToken g).tokenAhead g
  | .comment _ | .tags _ | .skip => none

theorem reads_eq_some_iff :
    p.reads g = some t ↔ p.mode = .code ∧ ∃ c, p.cursor.peek? = some c ∧
      (c = '\n' ∧ t = .newline ∨ c ≠ '\n' ∧ Text.isBlank c = true ∧ t = .blank ∨
        Text.isBlank c = false ∧ (p.atToken g).Ahead g t) := by
  have hline : Text.isBlank '\n' = true := rfl
  unfold reads
  cases p.mode with
  | code =>
    cases p.cursor.peek? with
    | none => simp
    | some c =>
      simp only [Option.map_some, Option.some.injEq, true_and, exists_eq_left', ahead_iff]
      by_cases hnewline : c = '\n'
      · simp [hnewline, hline, eq_comm]
      · cases Text.isBlank c <;> simp [hnewline, eq_comm]
  | comment form | tags comment | skip => simp

/-- Without indentation bodies, none opens. -/
theorem reads_ne_indentation (h : g.indents = false) (opener : List Char) :
    p.reads g ≠ some (.indentation opener) := by
  intro hreads
  obtain ⟨-, c, -, ⟨-, ht⟩ | ⟨-, -, ht⟩ | ⟨-, ahead⟩⟩ := reads_eq_some_iff.mp hreads
  · cases ht
  · cases ht
  · cases ahead with
    | indentation unmarked found =>
      rw [bodyOpener?_of_braces h] at found
      cases found

/-! ## Steps -/

/-- A step of a scan: what it has found and what it leads to. -/
inductive Advances (s : Setup) (p : Pass) : Pass → Prop where
  | comment {form : CommentForm} (mode : p.mode = .comment form) :
      Advances s p (p.readComment s.grammar form)
  | tags {comment : Comment} (mode : p.mode = .tags comment) :
      Advances s p (p.placeTags s.registry comment)
  | newline (mode : p.mode = .code) (peek : p.cursor.peek? = some '\n') :
      Advances s p (p.take s.grammar .newline)
  | blank {c : Char} (mode : p.mode = .code) (peek : p.cursor.peek? = some c) (inline : c ≠ '\n')
      (blank : Text.isBlank c = true) : Advances s p (p.take s.grammar .blank)
  | token {c : Char} {t : Token} (mode : p.mode = .code) (peek : p.cursor.peek? = some c)
      (blank : Text.isBlank c = false) (ahead : (p.atToken s.grammar).Ahead s.grammar t) :
      Advances s p ((p.atToken s.grammar).take s.grammar t).markEnd
  | skip {c : Char} (mode : p.mode = .skip) (peek : p.cursor.peek? = some c) :
      Advances s p (p.skip s)

/-- The steps that a scan can take are the steps that it takes. -/
theorem step_eq_some_iff : step s p = some q ↔ p.Advances s q := by
  refine ⟨fun h ↦ ?_, fun h ↦ ?_⟩
  · unfold step at h
    rw [Cursor.atEnd_eq] at h
    cases hmode : p.mode with
    | comment form =>
      simp only [hmode, Option.some.injEq] at h
      exact h ▸ .comment hmode
    | tags comment =>
      simp only [hmode, Option.some.injEq] at h
      exact h ▸ .tags hmode
    | code =>
      cases hpeek : p.cursor.peek? with
      | none => simp [hmode, hpeek] at h
      | some c =>
        simp only [hmode, hpeek, Option.isNone_some, Bool.false_eq_true, if_false, code,
          Option.some.injEq] at h
        subst h
        split
        · rename_i hnewline
          exact .newline hmode (hnewline ▸ hpeek)
        split
        · rename_i hinline hblank
          exact .blank hmode hpeek hinline hblank
        · rename_i hblank
          rw [token_eq_take]
          exact .token hmode hpeek (Bool.eq_false_iff.mpr hblank) (ahead_tokenAhead _ _)
    | skip =>
      cases hpeek : p.cursor.peek? with
      | none => simp [hmode, hpeek] at h
      | some c =>
        simp only [hmode, hpeek, Option.isNone_some, Bool.false_eq_true, if_false,
          Option.some.injEq] at h
        exact h ▸ .skip hmode hpeek
  · unfold step
    rw [Cursor.atEnd_eq]
    cases h with
    | comment mode => rw [mode]
    | tags mode => rw [mode]
    | newline mode peek => simp [mode, peek, code, take]
    | blank mode peek inline blank => simp [mode, peek, code, inline, blank, take]
    | token mode peek blank ahead =>
      rename_i c t
      have hinline : c ≠ '\n' := by
        rintro rfl
        cases blank
      simp [mode, peek, code, hinline, blank, token_eq_take, ahead_iff.mp ahead]
    | skip mode peek => simp [mode, peek]

/-- A scan ends at the end of its text, in code or in code that it skips. -/
theorem step_eq_none_iff :
    step s p = none ↔ p.cursor.peek? = none ∧ (p.mode = .code ∨ p.mode = .skip) := by
  unfold step
  rw [Cursor.atEnd_eq]
  cases p.mode <;> cases p.cursor.peek? <;> simp

/-- In code, the end of the text is the end of the scan. -/
theorem step_eq_none (hmode : p.mode = .code) (hnil : p.cursor.ahead = []) : step s p = none :=
  step_eq_none_iff.mpr ⟨List.head?_eq_none_iff.mpr hnil, .inl hmode⟩

theorem step_comment {form : CommentForm} (hmode : p.mode = .comment form) :
    step s p = some (p.readComment s.grammar form) := by
  rw [step, hmode]

theorem step_tags {c : Comment} (hmode : p.mode = .tags c) :
    step s p = some (p.placeTags s.registry c) := by
  rw [step, hmode]

theorem step_code (hmode : p.mode = .code) (hne : p.cursor.ahead ≠ []) :
    step s p = some (p.code s.grammar) := by
  obtain ⟨c, hc⟩ := Cursor.exists_peek?_of_ne_nil hne
  simp [step, hmode, Cursor.atEnd_eq, hc]

theorem step_skip (hmode : p.mode = .skip) (hne : p.cursor.ahead ≠ []) :
    step s p = some (p.skip s) := by
  obtain ⟨c, hc⟩ := Cursor.exists_peek?_of_ne_nil hne
  simp [step, hmode, Cursor.atEnd_eq, hc]

/-- A step in code deals with the token that is read. -/
theorem step_of_reads (h : p.reads s.grammar = some t) :
    (t = .newline ∨ t = .blank) ∧ step s p = some (p.take s.grammar t) ∨
      step s p = some ((p.atToken s.grammar).take s.grammar t).markEnd := by
  obtain ⟨mode, c, peek, ⟨rfl, rfl⟩ | ⟨hinline, hblank, rfl⟩ | ⟨hblank, ahead⟩⟩ :=
    reads_eq_some_iff.mp h
  · exact .inl ⟨.inl rfl, step_eq_some_iff.mpr (.newline mode peek)⟩
  · exact .inl ⟨.inr rfl, step_eq_some_iff.mpr (.blank mode peek hinline hblank)⟩
  · exact .inr (step_eq_some_iff.mpr (.token mode peek hblank ahead))

/-- A comment is looked for first. -/
theorem step_of_commentStart? {c : Char} {form : CommentForm} (hmode : p.mode = .code)
    (hc : p.cursor.peek? = some c) (hblank : Text.isBlank c = false)
    (hform : s.grammar.commentStart? p.cursor = some form) :
    step s p = some { p.atToken s.grammar with mode := .comment form }.markEnd :=
  step_eq_some_iff.mpr (.token hmode hc hblank (.comment (by rwa [atToken_cursor])))

theorem step_newline {rest : List Char} (hmode : p.mode = .code)
    (hahead : p.cursor.ahead = '\n' :: rest) :
    step s p = some ((p.consume 1).afterNewline s.grammar) :=
  step_eq_some_iff.mpr (.newline hmode (by rw [Cursor.peek?, hahead]; rfl))

theorem code_of_ahead {c : Char} (hc : p.cursor.peek? = some c) (hblank : Text.isBlank c = false)
    (h : (p.atToken g).Ahead g t) : p.code g = ((p.atToken g).take g t).markEnd := by
  have hinline : c ≠ '\n' := by
    rintro rfl
    cases hblank
  simp [code, hc, hinline, hblank, token_eq_take, ahead_iff.mp h]

/-- Two scans go on together, or end together, if what the one can do the other can do as well. -/
theorem rel_step {s' : Setup} {R : Pass → Pass → Prop} (hend : step s p = none → step s' q = none)
    (hadvances : ∀ p', p.Advances s p' → ∃ q', q.Advances s' q' ∧ R p' q') :
    Option.Rel R (step s p) (step s' q) := by
  cases hstep : step s p with
  | none =>
    rw [hend hstep]
    exact .none
  | some p' =>
    obtain ⟨q', hq', hrel⟩ := hadvances p' (step_eq_some_iff.mp hstep)
    rw [step_eq_some_iff.mpr hq']
    exact .some hrel

/-! ## Skipping -/

/-- A step of skipping: what it has found and what it leads to. -/
inductive Skips (s : Setup) (p : Pass) : Pass → Prop where
  | literal {c : Char} {i : Nat} (peek : p.cursor.peek? = some c)
      (goesOn : p.skipEnds s c = false) (found : s.grammar.stringStart? p.cursor = some i) :
      Skips s p (p.literal s.grammar i).markEnd
  | regex {c : Char} {text : List Char} (peek : p.cursor.peek? = some c)
      (goesOn : p.skipEnds s c = false) (string : s.grammar.stringStart? p.cursor = none)
      (found : s.grammar.regexLiteral? p.cursor = some text) :
      Skips s p (p.consume text.length).markEnd
  | blank {c : Char} (peek : p.cursor.peek? = some c) (goesOn : p.skipEnds s c = false)
      (string : s.grammar.stringStart? p.cursor = none)
      (regex : s.grammar.regexLiteral? p.cursor = none) (blank : Text.isBlank c = true) :
      Skips s p (p.consume 1)
  | char {c : Char} (peek : p.cursor.peek? = some c) (goesOn : p.skipEnds s c = false)
      (string : s.grammar.stringStart? p.cursor = none)
      (regex : s.grammar.regexLiteral? p.cursor = none) (blank : Text.isBlank c = false) :
      Skips s p (p.consume 1).markEnd

theorem LooksAlike.skipEnds (h : LooksAlike s.grammar p q) (c : Char) :
    q.skipEnds s c = p.skipEnds s c := by
  unfold Pass.skipEnds
  rw [h.comment, h.opener, h.closer, h.body, h.separator]

theorem skipStep_eq_some_iff : skipStep s p = some q ↔ p.Skips s q := by
  refine ⟨fun h ↦ ?_, fun h ↦ ?_⟩
  · unfold skipStep at h
    cases hpeek : p.cursor.peek? with
    | none => simp [hpeek] at h
    | some c =>
    cases hends : p.skipEnds s c with
    | true => simp [hpeek, hends] at h
    | false =>
    cases hstring : s.grammar.stringStart? p.cursor with
    | some i =>
      simp only [hpeek, hends, hstring, Bool.false_eq_true, if_false, Option.some.injEq] at h
      exact h ▸ .literal hpeek hends hstring
    | none =>
    cases hregex : s.grammar.regexLiteral? p.cursor with
    | some text =>
      simp only [hpeek, hends, hstring, hregex, Bool.false_eq_true, if_false, Option.some.injEq] at h
      exact h ▸ .regex hpeek hends hstring hregex
    | none =>
    cases hblank : Text.isBlank c with
    | true =>
      simp only [hpeek, hends, hstring, hregex, hblank, Bool.false_eq_true, if_false, if_true,
        Option.some.injEq] at h
      exact h ▸ .blank hpeek hends hstring hregex hblank
    | false =>
      simp only [hpeek, hends, hstring, hregex, hblank, Bool.false_eq_true, if_false,
        Option.some.injEq] at h
      exact h ▸ .char hpeek hends hstring hregex hblank
  · unfold skipStep
    cases h with
    | literal peek goesOn found => simp [peek, goesOn, found]
    | regex peek goesOn string found => simp [peek, goesOn, string, found]
    | blank peek goesOn string regex blank => simp [peek, goesOn, string, regex, blank]
    | char peek goesOn string regex blank => simp [peek, goesOn, string, regex, blank]

/-- Skipping ends where nothing comes next, or where something comes that is not skipped. -/
theorem skipStep_eq_none_iff :
    skipStep s p = none ↔ ∀ c, p.cursor.peek? = some c → p.skipEnds s c = true := by
  unfold skipStep
  cases p.cursor.peek? with
  | none => simp
  | some c =>
    cases hends : p.skipEnds s c with
    | true => simp [hends]
    | false =>
      simp only [hends, Bool.false_eq_true, if_false, Option.some.injEq, forall_eq', iff_false]
      cases s.grammar.stringStart? p.cursor with
      | some i => simp
      | none =>
        cases s.grammar.regexLiteral? p.cursor with
        | some text => simp
        | none => cases Text.isBlank c <;> simp

/-- Passes that look up the same skip the same, and what each way to skip leads to is related. -/
theorem LooksAlike.rel_skipStep {R : Pass → Pass → Prop} (h : LooksAlike s.grammar p q)
    (hpeek : q.cursor.peek? = p.cursor.peek?)
    (hliteral : ∀ {c i}, p.cursor.peek? = some c → p.skipEnds s c = false →
      s.grammar.stringStart? p.cursor = some i →
      R (p.literal s.grammar i).markEnd (q.literal s.grammar i).markEnd)
    (hregex : ∀ {text}, s.grammar.regexLiteral? p.cursor = some text →
      R (p.consume text.length).markEnd (q.consume text.length).markEnd)
    (hblank : R (p.consume 1) (q.consume 1))
    (hchar : R (p.consume 1).markEnd (q.consume 1).markEnd) :
    Option.Rel R (skipStep s p) (skipStep s q) := by
  cases hstep : skipStep s p with
  | none =>
    have hnone : skipStep s q = none := skipStep_eq_none_iff.mpr fun c hc ↦
      (h.skipEnds c).trans (skipStep_eq_none_iff.mp hstep c (hpeek.symm.trans hc))
    rw [hnone]
    exact .none
  | some p' =>
    have hsome : ∀ {q'}, q.Skips s q' → R p' q' → Option.Rel R (some p') (skipStep s q) := by
      intro q' hq hpq
      rw [skipStep_eq_some_iff.mpr hq]
      exact .some hpq
    cases skipStep_eq_some_iff.mp hstep with
    | literal peek goesOn found =>
      exact hsome (.literal (hpeek.trans peek) ((h.skipEnds _).trans goesOn)
        (h.string.trans found)) (hliteral peek goesOn found)
    | regex peek goesOn string found =>
      exact hsome (.regex (hpeek.trans peek) ((h.skipEnds _).trans goesOn)
        (h.string.trans string) (h.regex.trans found)) (hregex found)
    | blank peek goesOn string regex blank =>
      exact hsome (.blank (hpeek.trans peek) ((h.skipEnds _).trans goesOn)
        (h.string.trans string) (h.regex.trans regex) blank) hblank
    | char peek goesOn string regex blank =>
      exact hsome (.char (hpeek.trans peek) ((h.skipEnds _).trans goesOn)
        (h.string.trans string) (h.regex.trans regex) blank) hchar

/-- What holds after the first character that is skipped, and is kept by each step of skipping,
holds where skipping ends. -/
theorem skip_induction {P : Pass → Prop} (s : Setup) (hfirst : P (p.consume 1).markEnd)
    (hstep : ∀ q r, P q → q.Skips s r → P r) : ∃ q, P q ∧ p.skip s = { q with mode := .code } :=
  ⟨_, iterate_induction (fun q r hq hr ↦ hstep q r hq (skipStep_eq_some_iff.mp hr)) _ hfirst, rfl⟩

end Pass

end Marginalia
