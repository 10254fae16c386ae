import Marginalia.Proofs.Lineage
import Marginalia.Proofs.PythonHeaders
import Marginalia.Proofs.Tokens
import Marginalia.Proofs.Window

/-!
# Nesting by indentation

In Python the outline follows the offside rule. At the start of each line, the bodies that a scan
has open are those of the headers in front of the line that have not been left yet, and the outline
in the making holds the anchors of all headers so far, each below that of its parent. A line keeps
this: its indentation ends the bodies that it leaves, and its header, if it has one, brings an
anchor, whose body opens at the colon.
-/

namespace Marginalia

open CodeLine

/-- The indentation of a line is seen from its first character that is not blank. -/
theorem Cursor.lineIndent_between {before blanks rest : List Char}
    (hbefore : before = [] ∨ Text.EndsLine before)
    (hblanks : ∀ c ∈ blanks, Text.isInlineBlank c = true)
    (hrest : ∀ c, rest.head? = some c → Text.isInlineBlank c = false) :
    (between (before ++ blanks) rest).lineIndent = blanks.length := by
  have hline : '\n' ∉ blanks := fun hmem ↦
    (Text.isBlank_of_isInlineBlank (hblanks _ hmem)).2 rfl
  have hbehind : (between before rest).lineBehind = [] := by
    rcases hbefore with rfl | hbefore
    · rfl
    · exact lineBehind_between_of_endsLine hbefore rest
  have hahead : (between (before ++ blanks) rest).ahead = rest := rfl
  rw [lineIndent, lineBehind_between_of_not_mem hline before rest rest, hbehind, hahead,
    List.nil_append, Text.takeWhile_append_of_head? hblanks hrest]

/-! ## What is open in front of a line -/

/-- Open contexts are the indentation bodies of lines. -/
def AreBodies (ls : List CodeLine) : List Context → List (Fin ls.length) → Prop :=
  List.Forall₂ fun c j ↦ ∃ opened, c = .body opened (some (ls.get j).width)

/-- What a scan has open and has found in front of a line, while the bodies of the headers `js` are
open. -/
structure Standing (ls : List CodeLine) (limit i : Nat) (js : List (Fin ls.length)) (n : Nesting)
    (a : Assembly) : Prop where
  bodies : AreBodies ls n.contexts js
  limit : n.limit = limit
  overflow : n.overflow = 0
  flush : a.Flush (Text.byteSize (textBefore ls i))
  /-- The open nodes have the anchors of the open headers. -/
  frames : a.frames.map (·.node.anchor) = js.map (anchor? ls)
  /-- The walk meets the headers of the lines so far, each below its parent. -/
  lineage : Assembly.lineage a.root a.frames =
    (none, none) :: ((List.finRange ls.length).take i).filterMap (kin? ls)

namespace Standing

variable {ls : List CodeLine} {limit : Nat} {js : List (Fin ls.length)} {n : Nesting} {a : Assembly}

theorem depth_eq {i : Nat} (h : Standing ls limit i js n a) : n.depth = js.length :=
  h.bodies.length_eq

/-- The anchor whose body is innermost. -/
theorem top_anchor {i : Nat} (h : Standing ls limit i js n a) :
    a.top.anchor = js.head?.bind (anchor? ls) := by
  have hframes := h.frames
  have hlineage := h.lineage
  unfold Assembly.top
  cases hfs : a.frames with
  | nil =>
    rw [hfs] at hframes hlineage
    rw [List.map_eq_nil_iff.mp hframes.symm]
    exact congrArg Prod.fst (List.cons.inj hlineage).1
  | cons f fs =>
    rw [hfs] at hframes
    obtain ⟨j, js', rfl, hj, -⟩ := List.map_eq_cons_iff.mp hframes.symm
    exact hj.symm

theorem enclosingKind?_eq {i : Nat} (h : Standing ls limit i js n a) :
    a.enclosingKind? = (js.head?.bind (anchor? ls)).map (·.kind) := by
  have hframes := h.frames
  unfold Assembly.enclosingKind?
  cases hfs : a.frames with
  | nil =>
    rw [hfs] at hframes
    rw [List.map_eq_nil_iff.mp hframes.symm]
    rfl
  | cons f fs =>
    rw [hfs] at hframes
    obtain ⟨j, js', rfl, hj, -⟩ := List.map_eq_cons_iff.mp hframes.symm
    rw [List.head?_cons, Option.bind_some, hj]

/-- The innermost body ends. -/
theorem leaveBody {i : Nat} {j : Fin ls.length} {c : Context} {cs : List Context}
    (h : Standing ls limit i (j :: js) n a) (hcontexts : n.contexts = c :: cs) (stop : Position)
    (depth : Nat) :
    Standing ls limit i js { n with contexts := cs } ((a.leaveBody stop).blockClosed depth) := by
  obtain ⟨hflush, hframes, hlineage⟩ := h.flush.leaveBody stop
  have hbodies := h.bodies
  rw [hcontexts] at hbodies
  rw [Assembly.blockClosed_of_waiting hflush.waiting]
  refine ⟨(List.forall₂_cons.mp hbodies).2, h.limit, h.overflow, hflush, ?_, ?_⟩
  · rw [hframes, h.frames]
    rfl
  · rw [hlineage, h.lineage]

/-- A line leaves the bodies of the headers that are not indented less than it is. -/
theorem leaveBodies {i : Nat}
    (hjs : js.Pairwise fun j k ↦ (ls.get k).width < (ls.get j).width) (indent : Nat) {p : Pass}
    (h : Standing ls limit i js p.nesting p.assembly) :
    ∃ n a journal,
      Pass.leaveBodies indent p.nesting.contexts p =
        { p with nesting := n, assembly := a, journal } ∧
      Standing ls limit i (js.filter fun j ↦ (ls.get j).width < indent) n a := by
  induction js generalizing p with
  | nil =>
    have hnil : p.nesting.contexts = [] := List.forall₂_nil_right_iff.mp h.bodies
    refine ⟨p.nesting, p.assembly, p.journal, ?_, h⟩
    rw [hnil, Pass.leaveBodies]
    rintro _ _ _ h
    cases h
  | cons j js ih =>
    obtain ⟨hj, hjs⟩ := List.pairwise_cons.mp hjs
    obtain ⟨c, cs, ⟨opened, rfl⟩, -, hcontexts⟩ := List.forall₂_cons_right_iff.mp h.bodies
    rw [hcontexts, Pass.leaveBodies]
    by_cases hlt : (ls.get j).width < indent
    · -- all bodies further out are indented even less
      have hall : (j :: js).filter (fun j ↦ (ls.get j).width < indent) = j :: js := by
        rw [List.filter_eq_self, List.forall_mem_cons]
        exact ⟨decide_eq_true hlt, fun k hk ↦ decide_eq_true ((hj k hk).trans hlt)⟩
      rw [if_pos hlt, hall]
      exact ⟨p.nesting, p.assembly, p.journal, rfl, h⟩
    · rw [if_neg hlt, List.filter_cons_of_neg (by simpa using hlt)]
      obtain ⟨n, a, journal, heq, hstanding⟩ := ih hjs (h.leaveBody hcontexts p.lastEnd cs.length)
        (p := (({ p with nesting := { p.nesting with contexts := cs } }).emit
          (.bodyLeft p.lastEnd)).emit (.blockClosed cs.length))
      exact ⟨n, a, journal, heq, hstanding⟩

/-! ### Lines -/

theorem start {s : Setup} {source : List Char} (hlimit : s.options.maxDepth = limit) :
    Standing ls limit 0 (openAt ls 0) (Pass.start s source).nesting
      (Pass.start s source).assembly :=
  ⟨.nil, hlimit, rfl, Assembly.flush_start _ _, rfl, rfl⟩

/-- Every context is an indentation body. -/
theorem exists_body {i : Nat} (h : Standing ls limit i js n a) {c : Context} (hc : c ∈ n.contexts) :
    ∃ opened indent, c = .body opened (some indent) := by
  have hbodies : List.Forall₂ (fun c _ ↦ (∃ opened indent, c = .body opened (some indent)) ∧ True)
      n.contexts js := h.bodies.imp fun c j ⟨opened, hj⟩ ↦ ⟨⟨opened, _, hj⟩, trivial⟩
  exact ((List.forall₂_and_left _ _).mp hbodies).1 c hc

theorem opening {i : Nat} (h : Standing ls limit i js n a) (hdepth : js.length < limit) :
    n.opening = .entered := by
  rw [Nesting.opening, if_neg]
  rw [h.depth_eq, h.limit, h.overflow]
  omega

/-- The innermost body is that of a class if the parent of the line is one. -/
theorem inClass_iff {i : Fin ls.length} (h : Standing ls limit i (enclosing ls i) n a) :
    a.enclosingKind? = some .classDecl ↔
      (parent? ls i).any (fun j ↦ (ls.get j).statement.isClass) = true := by
  rw [h.enclosingKind?_eq, ← parent?_eq_head?]
  cases parent? ls i with
  | none => simp
  | some j => exact Statement.isClass_iff

/-- The body of a header opens. -/
theorem openBody {i : Fin ls.length} {x : Anchor} (h : Standing ls limit i (enclosing ls i) n a)
    (hx : anchor? ls i = some x) (depth : Nat) (opened : Position) :
    Standing ls limit (i + 1) (openAt ls (i + 1))
      { n with contexts := .body opened (some (ls.get i).width) :: n.contexts }
      ((a.anchor x depth).enterBody opened) := by
  have hstart : x.span.start.offset =
      Text.byteSize (textBefore ls i) + Text.byteSize (ls.get i).indent := by
    rw [start_of_anchor? hx, Position.after_offset, Text.byteSize_append]
    exact Nat.zero_add _
  have hheader : (ls.get i).statement.isHeader = true := isHeader_of_anchor? hx
  obtain ⟨hflush, hframes, hlineage⟩ :=
    h.flush.open_body (x := x) (by rw [hstart]; exact Nat.le_add_right _ _) depth opened
  have hopen : openAt ls (i + 1) = i :: enclosing ls i := by
    rw [openAt_succ, if_pos hheader]
    rfl
  refine ⟨?_, h.limit, h.overflow, hflush.mono ?_, ?_, ?_⟩
  · rw [hopen]
    exact .cons ⟨opened, rfl⟩ h.bodies
  · rw [hstart, textBefore_succ, CodeLine.text, Text.byteSize_append, Text.byteSize_append,
      Text.byteSize_append]
    omega
  · rw [hframes, h.frames, hopen, List.map_cons, hx]
  · have hkin : kin? ls i = some (some x, some a.top.anchor) := by
      rw [kin?, hx, h.top_anchor, parent?_eq_head?]
      rfl
    rw [hlineage, h.lineage, take_finRange_succ, List.filterMap_append,
      List.filterMap_cons_some hkin]
    rfl

/-- A line without a header leaves no trace. -/
theorem plain {i : Fin ls.length} (h : Standing ls limit i (enclosing ls i) n a)
    (hx : anchor? ls i = none) : Standing ls limit (i + 1) (openAt ls (i + 1)) n a := by
  have hheader : (ls.get i).statement.isHeader = false := by
    rw [isHeader_eq, hx]
    rfl
  have hopen : openAt ls (i + 1) = enclosing ls i := by
    rw [openAt_succ, hheader]
    rfl
  refine ⟨hopen ▸ h.bodies, h.limit, h.overflow, h.flush.mono ?_, hopen ▸ h.frames, ?_⟩
  · rw [textBefore_succ, Text.byteSize_append]
    exact Nat.le_add_right _ _
  · have hkin : kin? ls i = none := by
      rw [kin?, hx]
      rfl
    rw [h.lineage, take_finRange_succ, List.filterMap_append, List.filterMap_cons_none hkin,
      List.filterMap_nil, List.append_nil]

end Standing

namespace Pass

variable {s : Setup} {p : Pass} {before blanks rest : List Char} {n : Nesting} {a : Assembly}
  {b : Option PendingBody} {ls : List CodeLine} {limit : Nat}

/-! ## Inside a line -/

/-- A pass in the middle of a line of code. -/
structure Amid (p : Pass) (before rest : List Char) (n : Nesting) (a : Assembly)
    (b : Option PendingBody) : Prop where
  mode : p.mode = .code
  lineStart : p.lineStart = false
  cursor : p.cursor = .between before rest
  nesting : p.nesting = n
  assembly : p.assembly = a
  pending : p.pendingBody = b

namespace Amid

/-- Inside a line, no body ends. -/
theorem step_eq {c : Char} {t : Token} (h : p.Amid before (c :: rest) n a b)
    (hblank : Text.isBlank c = false) (ht : p.Ahead s.grammar t) :
    step s p = some (p.take s.grammar t).markEnd := by
  have htoken : p.atToken s.grammar = p := by
    rw [atToken, h.lineStart]
    rfl
  have hpeek : p.cursor.peek? = some c := by
    rw [h.cursor]
    rfl
  rw [← htoken] at ht
  rw [step_eq_some_iff.mpr (.token h.mode hpeek hblank ht), htoken]

/-- At a letter that only words start with, the start of a statement is read. -/
theorem ahead_of_letter {d : Char} {ds : List Char} {header : Option Recognition}
    (h : p.Amid before (d :: ds) n a none) (hd : d ∈ Statement.letters)
    (hstart : p.statementStart = true)
    (hr : Grammar.python.recognise? (d :: ds) a.enclosingKind? = header) :
    p.Ahead .python (.ofHeader header) := by
  have hahead : p.cursor.ahead = d :: ds := congrArg Cursor.ahead h.cursor
  obtain ⟨hcomment, hstring, hregex, hclose, hopen, -, hend⟩ :=
    Grammar.python_lookups_eq_none hd hahead
  have hnone : p.bodyOpener? .python = none := by simp [bodyOpener?, awaitsBody, h.pending]
  exact ahead_ofHeader_iff.mpr ⟨⟨hcomment, hstring, hregex, hclose, hopen⟩, hnone, hend, hstart,
    by rwa [hahead, h.assembly]⟩

/-- A parenthesis opens a block. -/
theorem openParen (hs : s.grammar = .python) (h : p.Amid before ('(' :: rest) n a b)
    (hopening : n.opening = .entered) :
    ∃ q, step s p = some q ∧
      q.Amid (before ++ ['(']) rest
        { n with contexts := .block 0 (.after .start before) :: n.contexts } a b := by
  obtain ⟨mode, lineStart, hcursor, rfl, rfl, rfl⟩ := id h
  have hahead : p.cursor.ahead = '(' :: rest := congrArg Cursor.ahead hcursor
  obtain ⟨hcomment, hstring, hregex, hclose, hopen⟩ := Grammar.python_lookups_open hahead
  have ht : p.Ahead s.grammar (.opener 0) := hs ▸ .opener hcomment hstring hregex hclose hopen
  have htake := openBlock_of_block (g := .python) hopening 0 rfl
  refine ⟨_, h.step_eq (by decide) ht, ?_⟩
  rw [hs, take, htake]
  refine ⟨mode, lineStart, Cursor.consume_of_eq_between hcursor, ?_, rfl, rfl⟩
  change { p.nesting with contexts := .block 0 p.cursor.position :: p.nesting.contexts } = _
  rw [hcursor]
  rfl

/-- The parenthesis that closes the innermost block. -/
theorem closeParen (hs : s.grammar = .python) {opened : Position}
    (h : p.Amid before (')' :: rest) { n with contexts := .block 0 opened :: n.contexts } a b)
    (hoverflow : n.overflow = 0) (hwaiting : a.waiting = []) (hb : ∀ c ∈ b, c.depth ≤ n.depth) :
    ∃ q, step s p = some q ∧ q.Amid (before ++ [')']) rest n a b := by
  obtain ⟨mode, lineStart, hcursor, hnesting, rfl, rfl⟩ := id h
  have hahead : p.cursor.ahead = ')' :: rest := congrArg Cursor.ahead hcursor
  obtain ⟨hcomment, hstring, hregex, hclose⟩ := Grammar.python_lookups_close hahead
  have ht : p.Ahead s.grammar (.closer 0) := hs ▸ .closer hcomment hstring hregex hclose
  have hclosed : p.closeBlock .python 0 =
      (p.send [.bracketClosed 0 p.cursor.position]).closeThrough .python 0 0 (.block 0 opened) := by
    rw [closeBlock_eq, hnesting, if_neg (by simp [hoverflow])]
    rfl
  refine ⟨_, h.step_eq (by decide) ht, ?_⟩
  rw [hs, take, hclosed, closeThrough_eq]
  refine ⟨mode, lineStart, Cursor.consume_of_eq_between hcursor, ?_, ?_, ?_⟩
  · change { p.nesting with contexts := p.nesting.contexts.drop 1 } = n
    rw [hnesting]
    rfl
  · change p.assembly.blockClosed _ = p.assembly
    exact p.assembly.blockClosed_of_waiting hwaiting _
  · change p.pendingBody.filter (·.depth ≤ (p.nesting.contexts.drop 1).length) = p.pendingBody
    rw [hnesting]
    cases hpending : p.pendingBody with
    | none => rfl
    | some c => exact Option.filter_some_pos (decide_eq_true (hb c hpending))

/-- A colon at the end of a header opens its body. -/
theorem colon (hs : s.grammar = .python) {indent : Nat}
    (h : p.Amid before (':' :: rest) n a (some ⟨n.depth, indent⟩))
    (hrest : ∀ d, rest.head? = some d → d = '\n') (hopening : n.opening = .entered)
    (hbody : a.canEnterBody = true) :
    ∃ q, step s p = some q ∧
      q.Amid (before ++ [':']) rest
        { n with contexts := .body (.after .start before) (some indent) :: n.contexts }
        (a.enterBody (.after .start before)) none := by
  obtain ⟨mode, lineStart, hcursor, rfl, rfl, hpending⟩ := id h
  have hahead : p.cursor.ahead = ':' :: rest := congrArg Cursor.ahead hcursor
  have hposition : p.cursor.position = .after .start before := by
    rw [hcursor]
    rfl
  obtain ⟨hcomment, hstring, hregex, hclose, hopen, hcolon⟩ :=
    Grammar.python_lookups_colon hahead hrest
  have hopener : p.bodyOpener? .python = some [':'] := by
    have hawaits : p.awaitsBody = true := by simp [awaitsBody, hpending]
    rw [bodyOpener?, if_pos hawaits, hcolon]
  have ht : p.Ahead s.grammar (.indentation [':']) :=
    hs ▸ .indentation ⟨hcomment, hstring, hregex, hclose, hopen⟩ hopener
  refine ⟨_, h.step_eq (by decide) ht, ?_⟩
  have htake : p.openIndentBody [':'] =
      { p with
        cursor := p.cursor.consume 1
        nesting := { p.nesting with
          contexts := .body p.cursor.position (some indent) :: p.nesting.contexts }
        assembly := p.assembly.enterBody p.cursor.position
        journal := .bodyEntered p.cursor.position :: p.journal
        pendingBody := none } := by
    simp [openIndentBody, hpending, hbody, hopening, Nesting.push, emit, consume, Assembly.apply]
  rw [take, htake, hposition]
  exact ⟨mode, lineStart, Cursor.consume_of_eq_between hcursor, rfl, rfl, rfl⟩

/-- The header of an anchor. -/
theorem header (hs : s.grammar = .python) {r : Recognition} {text : List Char} {d : Char}
    (h : p.Amid before (text ++ r.rest) n a none) (htext : text.head? = some d)
    (hd : d ∈ Statement.letters) (hstart : p.statementStart = true)
    (hr : Grammar.python.recognise? (text ++ r.rest) a.enclosingKind? = some r) :
    ∃ q, step s p = some q ∧
      q.Amid (before ++ text) r.rest n
        (a.anchor ⟨r.kind, String.ofList r.name,
          ⟨.after .start before, .after .start (before ++ text)⟩⟩ n.depth)
        (some ⟨n.depth, (Cursor.between before (text ++ r.rest)).lineIndent⟩) := by
  obtain ⟨ds, rfl⟩ := List.head?_eq_some_iff.mp htext
  obtain ⟨mode, lineStart, hcursor, rfl, rfl, hpending⟩ := id h
  have hahead : p.cursor.ahead = d :: (ds ++ r.rest) := congrArg Cursor.ahead hcursor
  have ht : p.Ahead s.grammar (.anchor r) := hs ▸ h.ahead_of_letter hd hstart hr
  have hcursor' : p.cursor.consume (r.headerLength p.cursor.ahead) =
      .between (before ++ d :: ds) r.rest := by
    have hlength : r.headerLength p.cursor.ahead = (d :: ds).length := by
      rw [Recognition.headerLength, hahead, ← List.cons_append, List.length_append,
        Nat.add_sub_cancel]
    rw [hlength, hcursor, Cursor.between_consume, List.take_left, List.drop_left]
  refine ⟨_, h.step_eq (Statement.not_isBlank_of_mem_letters hd) ht, ?_⟩
  refine ⟨mode, lineStart, hcursor', rfl, ?_, ?_⟩
  · change p.assembly.anchor ⟨r.kind, _, ⟨p.cursor.position, (p.cursor.consume _).position⟩⟩ _ = _
    rw [hcursor', hcursor]
    rfl
  · rw [← hcursor]
    rfl

end Amid

/-! ### Code that is no header -/

/-- Letters are skipped. -/
theorem runsTo_letters (hs : s.grammar = .python) {letters : List Char}
    (hletters : ∀ d ∈ letters, d ∈ Statement.letters)
    (hcursor : p.cursor = .between before (letters ++ rest)) (hpending : p.pendingBody = none)
    (hrest : ∀ d, rest.head? = some d → d = '\n') :
    ∃ lastEnd, RunsTo (skipStep s) p
      { p with cursor := .between (before ++ letters) rest, lastEnd } := by
  induction letters generalizing p before with
  | nil =>
    refine ⟨p.lastEnd, ?_⟩
    have hp : { p with cursor := .between (before ++ []) rest } = p := by
      rw [List.append_nil, ← List.nil_append rest, ← hcursor]
    rw [hp]
    refine .stop ?_
    rw [skipStep, hcursor]
    cases rest with
    | nil => rfl
    | cons d rest =>
      obtain rfl := hrest d rfl
      rfl
  | cons d ds ih =>
    obtain ⟨hd, hletters⟩ := List.forall_mem_cons.mp hletters
    have hahead : p.cursor.ahead = d :: (ds ++ rest) := congrArg Cursor.ahead hcursor
    obtain ⟨hcomment, hstring, hregex, hclose, hopen, -, hend⟩ :=
      Grammar.python_lookups_eq_none hd hahead
    have hblank := Statement.not_isBlank_of_mem_letters hd
    have hnewline : d ≠ '\n' := by
      rintro rfl
      cases hblank
    have hgoes : p.skipEnds s d = false := by
      simp [skipEnds, hs, hcomment, hclose, hopen, hend, bodyOpener?, awaitsBody, hpending, hnewline]
    have hstep : skipStep s p = some (p.consume 1).markEnd :=
      skipStep_eq_some_iff.mpr (.char (congrArg List.head? hahead) hgoes (hs ▸ hstring)
        (hs ▸ hregex) hblank)
    have hnext : (p.consume 1).markEnd.cursor = .between (before ++ [d]) (ds ++ rest) :=
      Cursor.consume_of_eq_between hcursor
    obtain ⟨lastEnd, hrun⟩ := ih (p := (p.consume 1).markEnd) hletters hnext hpending
    rw [List.append_assoc, List.singleton_append] at hrun
    exact ⟨lastEnd, .head hstep hrun⟩

/-- A word that is no keyword is skipped up to the end of its line. -/
theorem Amid.word (hs : s.grammar = .python) {letters : List Char}
    (h : p.Amid before (letters ++ rest) n a none) (hne : letters ≠ [])
    (hletters : ∀ e ∈ letters, e ∈ Statement.letters) (hstart : p.statementStart = true)
    (hr : Grammar.python.recognise? (letters ++ rest) a.enclosingKind? = none)
    (hrest : ∀ d, rest.head? = some d → d = '\n') :
    ∃ q₁ q₂, step s p = some q₁ ∧ step s q₁ = some q₂ ∧
      q₂.Amid (before ++ letters) rest n a none := by
  obtain ⟨d, ds, rfl⟩ := List.exists_cons_of_ne_nil hne
  obtain ⟨hd, hds⟩ := List.forall_mem_cons.mp hletters
  obtain ⟨mode, lineStart, hcursor, hnesting, hassembly, hpending⟩ := id h
  have ht : p.Ahead s.grammar .plain := hs ▸ h.ahead_of_letter hd hstart hr
  have htake : p.take s.grammar .plain = { p with statementStart := false, mode := .skip } := by
    rw [take, cancelBody_eq]
    simp [awaitsBody, hpending]
  have hfirst := h.step_eq (s := s) (Statement.not_isBlank_of_mem_letters hd) ht
  rw [htake] at hfirst
  generalize hq : { p with statementStart := false, mode := .skip }.markEnd = q at hfirst
  have hqcursor : q.cursor = .between before (d :: ds ++ rest) := by rw [← hq]; exact hcursor
  have hskip : step s q = some (q.skip s) := by
    refine step_skip (by rw [← hq]; rfl) ?_
    rw [hqcursor]
    exact List.cons_ne_nil d _
  have hnext : (q.consume 1).markEnd.cursor = .between (before ++ [d]) (ds ++ rest) :=
    Cursor.consume_of_eq_between hqcursor
  obtain ⟨lastEnd, hrun⟩ := runsTo_letters (s := s) (p := (q.consume 1).markEnd) hs hds hnext
    (by rw [← hq]; exact hpending) hrest
  rw [skip_eq_of_runsTo hrun] at hskip
  refine ⟨q, _, hfirst, hskip, ?_⟩
  rw [← hq, List.append_assoc]
  exact ⟨rfl, lineStart, rfl, hnesting, hassembly, hpending⟩

/-! ## From line to line -/

/-- A pass at the start of a line of code. -/
structure AtLine (p : Pass) (before rest : List Char) (n : Nesting) (a : Assembly) : Prop where
  mode : p.mode = .code
  lineStart : p.lineStart = true
  statementStart : p.statementStart = true
  cursor : p.cursor = .between before rest
  nesting : p.nesting = n
  assembly : p.assembly = a
  pending : p.pendingBody = none

/-- The next line starts behind a newline. -/
theorem Amid.newline {i : Nat} {js : List (Fin ls.length)}
    (h : p.Amid before ('\n' :: rest) n a none) (hstanding : Standing ls limit i js n a) :
    ∃ q, step s p = some q ∧ q.AtLine (before ++ ['\n']) rest n a := by
  obtain ⟨mode, -, hcursor, rfl, rfl, hpending⟩ := id h
  have hin : p.inStatements s.grammar = true := by
    cases htop : p.nesting.top? with
    | none => rw [inStatements, htop]
    | some c =>
      obtain ⟨opened, indent, rfl⟩ := hstanding.exists_body (List.mem_of_head? htop)
      rw [inStatements, htop]
  refine ⟨_, step_newline mode (congrArg Cursor.ahead hcursor), ?_⟩
  rw [afterNewline_eq]
  refine ⟨mode, rfl, ?_, Cursor.consume_of_eq_between hcursor, rfl, rfl, ?_⟩
  · change (p.statementStart || p.inStatements s.grammar) = true
    rw [hin, Bool.or_true]
  · change (if _ then none else p.pendingBody) = none
    rw [hpending, ite_self]

/-- Blanks are read one by one. -/
theorem reaches_blanks (hmode : p.mode = .code)
    (hcursor : p.cursor = .between before (blanks ++ rest))
    (hblanks : ∀ c ∈ blanks, Text.isInlineBlank c = true) :
    Reaches (step s) p { p with cursor := .between (before ++ blanks) rest } := by
  induction blanks generalizing before p with
  | nil =>
    have hp : { p with cursor := .between (before ++ []) rest } = p := by
      rw [List.append_nil, ← List.nil_append rest, ← hcursor]
    rw [hp]
    exact .refl p
  | cons c blanks ih =>
    obtain ⟨hc, hblanks⟩ := List.forall_mem_cons.mp hblanks
    obtain ⟨hblank, hnewline⟩ := Text.isBlank_of_isInlineBlank hc
    have hpeek : p.cursor.peek? = some c := by
      rw [hcursor]
      rfl
    have hstep : step s p = some (p.consume 1) :=
      step_eq_some_iff.mpr (.blank hmode hpeek hnewline hblank)
    have hnext : (p.consume 1).cursor = .between (before ++ [c]) (blanks ++ rest) :=
      Cursor.consume_of_eq_between hcursor
    have hreach := ih (p := p.consume 1) hmode hnext hblanks
    rw [List.append_assoc, List.singleton_append] at hreach
    exact .head hstep hreach

/-- The first step of a line ends the bodies that the line leaves, before it reads a token. -/
theorem AtLine.enter (hs : s.grammar = .python) {i : Fin ls.length} {text : List Char} {d : Char}
    (h : p.AtLine (textBefore ls i) ((ls.get i).indent ++ text) n a) (htext : text.head? = some d)
    (hd : d ∈ Statement.letters) (hstanding : Standing ls limit i (openAt ls i) n a) :
    ∃ q n a, (∀ q', step s q = some q' → Reaches (step s) p q') ∧
      q.Amid (textBefore ls i ++ (ls.get i).indent) text n a none ∧ q.statementStart = true ∧
      Standing ls limit i (enclosing ls i) n a := by
  obtain ⟨rest, rfl⟩ := List.head?_eq_some_iff.mp htext
  obtain ⟨mode, lineStart, statementStart, hcursor, rfl, rfl, hpending⟩ := h
  have hblank := Statement.not_isBlank_of_mem_letters hd
  have hblanks := reaches_blanks (s := s) mode hcursor (ls.get i).isInlineBlank_of_mem
  generalize hfirst : { p with
    cursor := .between (textBefore ls i ++ (ls.get i).indent) (d :: rest) } = first at hblanks
  have hindent : first.cursor.lineIndent = (ls.get i).width := by
    rw [← hfirst]
    exact Cursor.lineIndent_between (textBefore_endsLine i) (ls.get i).isInlineBlank_of_mem
      fun c hc ↦ Option.some.inj hc ▸ Statement.not_isInlineBlank_of_mem_letters hd
  obtain ⟨n, a, journal, hleave, hstanding⟩ := Standing.leaveBodies (i := i) (pairwise_openAt i)
    (ls.get i).width (p := { first with lineStart := false }) (by rw [← hfirst]; exact hstanding)
  rw [← enclosing_eq] at hstanding
  have htoken : first.atToken s.grammar =
      { first with lineStart := false, nesting := n, assembly := a, journal } := by
    have hline : first.lineStart = true := by rw [← hfirst]; exact lineStart
    have hnone : first.pendingBody = none := by rw [← hfirst]; exact hpending
    have hindents : Grammar.python.indents = true := rfl
    rw [atToken, hline, if_pos rfl, hs, dedent, if_pos hindents, hindent, hleave, dropStaleBody_eq,
      hnone]
    rfl
  -- the pass after the dedent is not reached, but it steps where the pass before it does
  have hamid : (first.atToken s.grammar).Amid (textBefore ls i ++ (ls.get i).indent) (d :: rest) n a
      none := by
    rw [htoken, ← hfirst]
    exact ⟨mode, rfl, rfl, rfl, rfl, hpending⟩
  refine ⟨first.atToken s.grammar, n, a, fun q' hq' ↦ hblanks.trans (.head ?_ (.refl q')), hamid,
    ?_, hstanding⟩
  · have ht := (first.atToken s.grammar).ahead_tokenAhead s.grammar
    rw [hamid.step_eq hblank ht] at hq'
    rw [← hq']
    refine step_eq_some_iff.mpr (.token ?_ ?_ hblank ht)
    · rw [← hfirst]
      exact mode
    · rw [← hfirst]
      rfl
  · rw [htoken, ← hfirst]
    exact statementStart

/-- The header of a line is read. -/
theorem AtLine.header (hs : s.grammar = .python) {i : Fin ls.length} {text tail name : List Char}
    {kind : AnchorKind} {d : Char}
    (h : p.AtLine (textBefore ls i) ((ls.get i).indent ++ (text ++ tail)) n a)
    (htext : text.head? = some d) (hd : d ∈ Statement.letters)
    (hstanding : Standing ls limit i (openAt ls i) n a)
    (hx : anchor? ls i =
      some ⟨kind, String.ofList name, ⟨.after .start (textBefore ls i ++ (ls.get i).indent),
        (Position.start.after (textBefore ls i ++ (ls.get i).indent)).after text⟩⟩)
    (hr : ∀ {n a}, Standing ls limit i (enclosing ls i) n a →
      Grammar.python.recognise? (text ++ tail) a.enclosingKind? = some ⟨kind, name, tail⟩) :
    ∃ q n a x, anchor? ls i = some x ∧ Reaches (step s) p q ∧
      q.Amid (textBefore ls i ++ ((ls.get i).indent ++ text)) tail n (a.anchor x n.depth)
        (some ⟨n.depth, (ls.get i).width⟩) ∧
      Standing ls limit i (enclosing ls i) n a := by
  have hahead : (text ++ tail).head? = some d := by rw [List.head?_append, htext]; rfl
  obtain ⟨q, n, a, hreach, hamid, hstart, hstanding⟩ := h.enter hs hahead hd hstanding
  obtain ⟨q₁, hstep, hheader⟩ :=
    hamid.header (r := ⟨kind, name, tail⟩) hs htext hd hstart (hr hstanding)
  have hindent : (Cursor.between (textBefore ls i ++ (ls.get i).indent) (text ++ tail)).lineIndent =
      (ls.get i).width := by
    refine Cursor.lineIndent_between (textBefore_endsLine i) (ls.get i).isInlineBlank_of_mem ?_
    intro c hc
    obtain rfl := Option.some.inj (hahead.symm.trans hc)
    exact Statement.not_isInlineBlank_of_mem_letters hd
  rw [hindent, Position.after_append _ _ text, List.append_assoc] at hheader
  exact ⟨q₁, n, a, _, hx, hreach q₁ hstep, hheader, hstanding⟩

/-- The header of an anchor opens its body at its end. -/
theorem Amid.openBody (hs : s.grammar = .python) {i : Fin ls.length} {x : Anchor}
    (h : p.Amid before (':' :: rest) n (a.anchor x n.depth) (some ⟨n.depth, (ls.get i).width⟩))
    (hrest : ∀ d, rest.head? = some d → d = '\n')
    (hstanding : Standing ls limit i (enclosing ls i) n a) (hx : anchor? ls i = some x)
    (hdepth : (enclosing ls i).length < limit) :
    ∃ q n a, Reaches (step s) p q ∧ q.Amid (before ++ [':']) rest n a none ∧
      Standing ls limit (i + 1) (openAt ls (i + 1)) n a := by
  have hbody : (a.anchor x n.depth).canEnterBody = true :=
    (hstanding.flush.enterBody_anchor (le_start_of_anchor? hx) n.depth .start).1
  obtain ⟨q, hstep, hamid⟩ := h.colon hs hrest (hstanding.opening hdepth) hbody
  exact ⟨q, _, _, .head hstep (.refl q), hamid, hstanding.openBody hx n.depth _⟩

theorem anchor?_of_statement {i : Fin ls.length} {statement : Statement}
    (h : (ls.get i).statement = statement) :
    anchor? ls i =
      statement.anchor? ((parent? ls i).any fun j ↦ (ls.get j).statement.isClass)
        (Position.start.after (textBefore ls i ++ (ls.get i).indent)) := by
  rw [← h]
  rfl

/-- The header of a class is read up to the end of its line. -/
theorem AtLine.classHeader (hs : s.grammar = .python) {i : Fin ls.length} {name : Identifier}
    {after : List Char} (hstatement : (ls.get i).statement = .classHeader name)
    (h : p.AtLine (textBefore ls i) ((ls.get i).text ++ after) n a)
    (hafter : ∀ d, after.head? = some d → d = '\n')
    (hstanding : Standing ls limit i (openAt ls i) n a) (hdepth : (enclosing ls i).length < limit) :
    ∃ q n a, Reaches (step s) p q ∧
      q.Amid (textBefore ls i ++ (ls.get i).text) after n a none ∧
      Standing ls limit (i + 1) (openAt ls (i + 1)) n a := by
  have hx := anchor?_of_statement hstatement
  have hname : ∀ c, (':' :: after).head? = some c → Grammar.python.isIdentPart c = false := by
    rintro _ ⟨⟩
    rfl
  have htext : (Statement.classHeader name).text ++ after =
      ("class ".toList ++ name.text) ++ (':' :: after) := by
    change ("class ".toList ++ (name.text ++ [':'])) ++ after = _
    simp only [List.append_assoc, List.singleton_append]
  rw [CodeLine.text, hstatement, List.append_assoc, htext] at h
  rw [CodeLine.text, hstatement]
  obtain ⟨q, n, a, x, hx, hreach, hamid, hstanding⟩ :=
    h.header hs (d := 'c') rfl (by decide) hstanding hx fun _ ↦ by
      rw [List.append_assoc]
      exact Grammar.python_recognise?_class name _ hname
  obtain ⟨q', n', a', hreach', hamid', hstanding'⟩ :=
    hamid.openBody hs hafter hstanding hx hdepth
  refine ⟨q', n', a', hreach.trans hreach', ?_, hstanding'⟩
  rw [List.append_assoc, List.append_assoc, List.append_assoc] at hamid'
  exact hamid'

/-- The header of a function is read up to the end of its line; its parentheses open and close a
block before the body opens. -/
theorem AtLine.defHeader (hs : s.grammar = .python) {i : Fin ls.length} {name : Identifier}
    {after : List Char} (hstatement : (ls.get i).statement = .defHeader name)
    (h : p.AtLine (textBefore ls i) ((ls.get i).text ++ after) n a)
    (hafter : ∀ d, after.head? = some d → d = '\n')
    (hstanding : Standing ls limit i (openAt ls i) n a) (hdepth : (enclosing ls i).length < limit) :
    ∃ q n a, Reaches (step s) p q ∧
      q.Amid (textBefore ls i ++ (ls.get i).text) after n a none ∧
      Standing ls limit (i + 1) (openAt ls (i + 1)) n a := by
  have hx := anchor?_of_statement hstatement
  have hname : ∀ c, ('(' :: ')' :: ':' :: after).head? = some c →
      Grammar.python.isIdentPart c = false := by
    rintro _ ⟨⟩
    rfl
  have htext : (Statement.defHeader name).text ++ after =
      ("def ".toList ++ name.text) ++ ('(' :: ')' :: ':' :: after) := by
    change ("def ".toList ++ (name.text ++ "():".toList)) ++ after = _
    simp only [List.append_assoc]
    rfl
  rw [CodeLine.text, hstatement, List.append_assoc, htext] at h
  rw [CodeLine.text, hstatement]
  obtain ⟨q, n, a, x, hx, hreach, hamid, hstanding⟩ :=
    h.header hs (d := 'd') rfl (by decide) hstanding hx fun hstanding ↦ by
      rw [List.append_assoc, Grammar.python_recognise?_def name _ hname]
      simp only [hstanding.inClass_iff]
  obtain ⟨q₁, hstep₁, hamid⟩ := hamid.openParen hs (hstanding.opening hdepth)
  obtain ⟨q₂, hstep₂, hamid⟩ := hamid.closeParen hs hstanding.overflow
    (hstanding.flush.waiting_anchor x _) (by rintro _ ⟨⟩; exact Nat.le_refl _)
  obtain ⟨q', n', a', hreach', hamid', hstanding'⟩ :=
    hamid.openBody hs hafter hstanding hx hdepth
  refine ⟨q', n', a', hreach.trans (.head hstep₁ (.head hstep₂ hreach')), ?_, hstanding'⟩
  simp only [List.append_assoc] at hamid'
  exact hamid'

/-- A line that is no header is read up to its end and opens nothing. -/
theorem AtLine.pass (hs : s.grammar = .python) {i : Fin ls.length} {after : List Char}
    (hstatement : (ls.get i).statement = .pass)
    (h : p.AtLine (textBefore ls i) ((ls.get i).text ++ after) n a)
    (hafter : ∀ d, after.head? = some d → d = '\n')
    (hstanding : Standing ls limit i (openAt ls i) n a) :
    ∃ q n a, Reaches (step s) p q ∧
      q.Amid (textBefore ls i ++ (ls.get i).text) after n a none ∧
      Standing ls limit (i + 1) (openAt ls (i + 1)) n a := by
  rw [CodeLine.text, hstatement, List.append_assoc] at h
  rw [CodeLine.text, hstatement]
  obtain ⟨q, n, a, hreach, hamid, hstart, hstanding⟩ :=
    h.enter hs (d := 'p') rfl (by decide) hstanding
  obtain ⟨q₁, q₂, h₁, h₂, hword⟩ := hamid.word hs (by decide) Statement.mem_letters_of_pass hstart
    (Grammar.python_recognise?_pass after _) hafter
  rw [List.append_assoc] at hword
  exact ⟨q₂, n, a, (hreach q₁ h₁).trans (.head h₂ (.refl q₂)), hword,
    hstanding.plain (anchor?_of_statement hstatement)⟩

/-- A line is read up to its end. -/
theorem AtLine.line (hs : s.grammar = .python) {closed : Bool} (i : Fin ls.length)
    (h : p.AtLine (textBefore ls i) (source (ls.drop i) closed) n a)
    (hstanding : Standing ls limit i (openAt ls i) n a)
    (hdepth : (ls.get i).statement.isHeader = true → (enclosing ls i).length < limit) :
    ∃ q n a, Reaches (step s) p q ∧
      q.Amid (textBefore ls i ++ (ls.get i).text) (textAfter ls closed i) n a none ∧
      Standing ls limit (i + 1) (openAt ls (i + 1)) n a := by
  rw [source_drop] at h
  cases hstatement : (ls.get i).statement with
  | classHeader name =>
    rw [hstatement] at hdepth
    exact h.classHeader hs hstatement (fun _ ↦ head?_textAfter) hstanding (hdepth rfl)
  | defHeader name =>
    rw [hstatement] at hdepth
    exact h.defHeader hs hstatement (fun _ ↦ head?_textAfter) hstanding (hdepth rfl)
  | pass => exact h.pass hs hstatement (fun _ ↦ head?_textAfter) hstanding

/-- All lines are read one after the other. -/
theorem reaches_line (hs : s.grammar = .python) (closed : Bool)
    (hlimit : s.options.maxDepth = limit)
    (hdepth : ∀ i ∈ headers ls, (enclosing ls i).length < limit) (i : Nat) (hi : i < ls.length) :
    ∃ p n a, Reaches (step s) (start s (source ls closed)) p ∧
      p.AtLine (textBefore ls i) (source (ls.drop i) closed) n a ∧
      Standing ls limit i (openAt ls i) n a := by
  induction i with
  | zero =>
    refine ⟨start s (source ls closed), _, _, .refl _, ⟨rfl, rfl, rfl, rfl, rfl, rfl, rfl⟩, ?_⟩
    exact Standing.start hlimit
  | succ i ih =>
    obtain ⟨p, n, a, hreach, hat, hstanding⟩ := ih (Nat.lt_of_succ_lt hi)
    obtain ⟨q, n, a, hline, hamid, hstanding⟩ :=
      hat.line hs ⟨i, Nat.lt_of_succ_lt hi⟩ hstanding
        fun hheader ↦ hdepth _ (mem_headers.mpr hheader)
    rw [textAfter, if_pos hi] at hamid
    obtain ⟨r, hstep, hat⟩ := hamid.newline (s := s) hstanding
    rw [List.append_assoc, ← textBefore_succ] at hat
    exact ⟨r, n, a, hreach.trans (hline.trans (.head hstep (.refl r))), hat, hstanding⟩

/-- A newline at the end of the text makes no difference. -/
theorem reaches_end (closed : Bool) (hmode : p.mode = .code)
    (hahead : p.cursor.ahead = if closed then ['\n'] else []) :
    ∃ q, Reaches (step s) p q ∧ step s q = none ∧ q.nesting = p.nesting ∧
      q.assembly = p.assembly := by
  cases closed with
  | false => exact ⟨p, .refl p, step_eq_none hmode hahead, rfl, rfl⟩
  | true =>
    refine ⟨_, .head (step_newline hmode hahead) (.refl _), ?_, ?_, ?_⟩
    · refine step_eq_none (by rw [afterNewline_eq]; exact hmode) ?_
      rw [afterNewline_eq]
      change p.cursor.ahead.drop 1 = []
      rw [hahead]
      rfl
    · rw [afterNewline_eq]
      rfl
    · rw [afterNewline_eq]
      rfl

/-- At the end of the text, the bodies of headers that have not been left are still open. -/
theorem reaches_last (hs : s.grammar = .python) (closed : Bool)
    (hlimit : s.options.maxDepth = limit)
    (hdepth : ∀ i ∈ headers ls, (enclosing ls i).length < limit) :
    ∃ p, Reaches (step s) (start s (source ls closed)) p ∧ step s p = none ∧
      Standing ls limit ls.length (openAt ls ls.length) p.nesting p.assembly := by
  cases hlast : ls.length with
  | zero =>
    obtain rfl := List.eq_nil_of_length_eq_zero hlast
    obtain ⟨q, hreach, hend, hnesting, hassembly⟩ :=
      reaches_end (s := s) (p := start s (source [] closed)) closed rfl rfl
    refine ⟨q, hreach, hend, ?_⟩
    rw [hnesting, hassembly]
    exact Standing.start hlimit
  | succ i =>
    have hi : i < ls.length := by omega
    obtain ⟨p, n, a, hreach, hat, hstanding⟩ := reaches_line hs closed hlimit hdepth i hi
    obtain ⟨q, n, a, hline, hamid, hstanding⟩ :=
      hat.line hs ⟨i, hi⟩ hstanding fun hheader ↦ hdepth _ (mem_headers.mpr hheader)
    have hahead : q.cursor.ahead = if closed then ['\n'] else [] := by
      rw [hamid.cursor]
      exact if_neg (Nat.not_lt.mpr hlast.le)
    obtain ⟨r, hreach', hend, hnesting, hassembly⟩ := reaches_end (s := s) closed hamid.mode hahead
    refine ⟨r, hreach.trans (hline.trans hreach'), hend, ?_⟩
    rw [hnesting, hassembly, hamid.nesting, hamid.assembly]
    exact hstanding

end Pass

/-- The anchors of the headers, each with that of its parent, are found in the order of the
lines. -/
theorem scan_kin {s : Setup} (hs : s.grammar = .python) {ls : List CodeLine} (closed : Bool)
    (hdepth : ∀ i ∈ headers ls, (enclosing ls i).length < s.options.maxDepth) :
    (s.scan (source ls closed)).outline.root.walk.map Node.Visit.kin =
      (none, none) :: (List.finRange ls.length).filterMap (kin? ls) := by
  obtain ⟨p, hreach, hend, hstanding⟩ := Pass.reaches_last hs closed rfl hdepth
  obtain ⟨q, -, -, hrun, hframes, hroot⟩ := s.scan_root (source ls closed)
  obtain rfl := (Pass.run_eq_of_reaches (Pass.atComment_start s _) hreach hend).symm.trans hrun
  -- nothing but bodies is open, so the end of the text only ends bodies
  have hleft : ∀ e ∈ p.nesting.contexts.flatMap (Context.leaving p.cursor.position p.lastEnd),
      ∃ stop, e = .bodyLeft stop := by
    intro e he
    obtain ⟨c, hc, he⟩ := List.mem_flatMap.mp he
    obtain ⟨j, opened, rfl⟩ := hstanding.exists_body hc
    exact ⟨p.lastEnd, List.mem_singleton.mp he⟩
  have hlineage := hstanding.flush.lineage_replay hleft
  rw [Pass.closeAll_eq] at hframes hroot
  change (p.assembly.replay _).frames = [] at hframes
  rw [hframes, hstanding.lineage, List.take_of_length_le (by simp)] at hlineage
  rw [← hlineage, Node.map_kin_walk, hroot]
  change _ = (_, none) :: _
  congr 1
  exact Node.descent_congr rfl rfl

/-- Python code nests by the offside rule. Below the root there is one node for each header, in the
order of the lines, with its anchor; its parent is the node of the nearest header whose body the
line is in, or the root. -/
theorem scan_nests_by_indentation (registry : Registry) (options : ScanOptions) (ls : List CodeLine)
    (closed : Bool) (hdepth : ∀ i ∈ headers ls, (enclosing ls i).length < options.maxDepth) :
    let root := (Setup.scan ⟨.python, registry, options⟩ (source ls closed)).outline.root
    root.anchor = none ∧ ∃ node : Fin ls.length → Node,
      root.walk.map (fun v ↦ (v.node, v.parent)) =
        (root, none) :: (headers ls).map (fun i ↦ (node i, some ((parent? ls i).elim root node))) ∧
      ∀ i ∈ headers ls, (node i).anchor = anchor? ls i ∧ (anchor? ls i).isSome = true := by
  intro root
  have hkin : root.walk.map Node.Visit.kin =
      (none, none) ::
        (headers ls).map fun i ↦ (anchor? ls i, some ((parent? ls i).bind (anchor? ls))) := by
    rw [← filterMap_kin?]
    exact scan_kin rfl closed hdepth
  have hroot : root.anchor = none := by
    rw [Node.map_kin_walk] at hkin
    exact congrArg Prod.fst (List.cons.inj hkin).1
  have hsome : ∀ i ∈ headers ls, (anchor? ls i).isSome = true := fun i hi ↦
    (isHeader_eq i).symm.trans (mem_headers.mp hi)
  have hanchors : root.nodes.map (·.anchor) = none :: (headers ls).map (anchor? ls) := by
    have hfst := congrArg (List.map Prod.fst) hkin
    rw [List.map_map, List.map_cons, List.map_map] at hfst
    rw [Node.nodes, List.map_map]
    exact hfst
  -- headers start at different places, so a node is known by its anchor
  have hapart : (root.nodes.map (·.anchor)).Nodup := by
    rw [hanchors, List.nodup_cons]
    refine ⟨fun hmem ↦ ?_, nodup_anchor? ls⟩
    obtain ⟨i, hi, hnone⟩ := List.mem_map.mp hmem
    exact absurd (hsome i hi) (by simp [hnone])
  obtain ⟨node, hnone, hnode, hwalk⟩ := Node.exists_of_anchor hapart
  rw [hroot] at hnone
  refine ⟨hroot, fun i ↦ node (anchor? ls i), ?_, fun i hi ↦ ⟨?_, hsome i hi⟩⟩
  · rw [hwalk, hkin, List.map_cons, List.map_map, Prod.map_apply, hnone, Option.map_none]
    refine congrArg _ (List.map_congr_left fun i _ ↦ ?_)
    rw [Function.comp_apply, Prod.map_apply, Option.map_some]
    cases parent? ls i with
    | none => rw [Option.bind_none, hnone]; rfl
    | some j => rfl
  · have hmem : anchor? ls i ∈ root.nodes.map (·.anchor) := by
      rw [hanchors]
      exact List.mem_cons_of_mem _ (List.mem_map_of_mem hi)
    obtain ⟨m, hm, hanchor⟩ := List.mem_map.mp hmem
    change (node (anchor? ls i)).anchor = anchor? ls i
    rw [← hanchor, hnode m hm]

/-- A line that is indented less than the one above it may still be in the body of a header further
up. -/
theorem scan_nests_by_indentation_uneven :
    let ls : List CodeLine :=
      [⟨[], .classHeader ⟨['A'], rfl⟩, rfl⟩,
        ⟨[' ', '\t', ' '], .defHeader ⟨['f'], rfl⟩, rfl⟩,
        ⟨[' '], .pass, rfl⟩,
        ⟨[' ', ' '], .defHeader ⟨['g'], rfl⟩, rfl⟩,
        ⟨[], .defHeader ⟨['h'], rfl⟩, rfl⟩]
    let root := (Setup.scan ⟨.python, .empty, {}⟩ (source ls true)).outline.root
    (∀ i ∈ headers ls, (enclosing ls i).length < 256) ∧
      ∃ node : Fin 5 → Node,
        root.walk.map (fun v ↦ (v.node, v.parent)) =
          [(root, none), (node 0, some root), (node 1, some (node 0)), (node 3, some (node 0)),
            (node 4, some root)] ∧
        [node 0, node 1, node 3, node 4].map (·.anchor.map (·.kind)) =
          [some .classDecl, some .methodDecl, some .methodDecl, some .functionDecl] := by
  intro ls root
  have hdepth : ∀ i ∈ headers ls, (enclosing ls i).length < 256 := by decide
  have hheaders : headers ls = [0, 1, 3, 4] := by decide
  have hparents : (headers ls).map (parent? ls) = [none, some 0, some 0, none] := by decide
  have hkinds : (headers ls).map (fun i ↦ (anchor? ls i).map (·.kind)) =
      [some .classDecl, some .methodDecl, some .methodDecl, some .functionDecl] := by decide
  obtain ⟨-, node, hwalk, hanchor⟩ := scan_nests_by_indentation .empty {} ls true hdepth
  refine ⟨hdepth, node, ?_, ?_⟩
  · rw [hheaders] at hwalk hparents
    simp only [List.map_cons, List.map_nil, List.cons.injEq] at hparents
    obtain ⟨h₀, h₁, h₃, h₄, -⟩ := hparents
    rw [hwalk]
    simp only [List.map_cons, List.map_nil, h₀, h₁, h₃, h₄, Option.elim_none, Option.elim_some]
    rfl
  · rw [← hkinds, ← List.map_congr_left fun i hi ↦ congrArg (Option.map (·.kind)) (hanchor i hi).1,
      hheaders]
    rfl

end Marginalia
