import Marginalia.Proofs.CutHeaders
import Marginalia.Proofs.Documented
import Marginalia.Proofs.Gaps
import Marginalia.Proofs.Shift
import Marginalia.Proofs.Window

/-!
# Comments without tags

A comment without tags, on a line of its own, changes nothing of what is found around it but the
positions after it. It is seen in two places only: a slash after it is told apart from a regular
expression by the comment's last character, and a method written without a keyword is not recognised
when the comment comes between its name and its parenthesis.
-/

namespace Marginalia

open Pass (step start)
open Text (EndsLine)

/-- A line that holds a comment with the given text. -/
def remark (text : List Char) : List Char := "// ".toList ++ text ++ ['\n']

/-! ## Positions -/

/-- The position in a text with a line inserted at an offset. -/
def Position.insert (line : List Char) (at' : Nat) (p : Position) : Position :=
  if p.offset < at' then p else p.shift line

section

variable {before after text : List Char}

theorem endsLine_break (before : List Char) : EndsLine (before ++ ['\n']) := List.getLast?_concat

theorem endsLine_remark (text : List Char) : EndsLine (remark text) := List.getLast?_concat

theorem endsLine_append_remark (s text : List Char) : EndsLine (s ++ remark text) := by
  rw [EndsLine, List.getLast?_append_of_ne_nil _ (endsLine_remark text).ne_nil]
  exact endsLine_remark text

theorem Position.shift_append (line line' : List Char) (p : Position) :
    p.shift (line ++ line') = (p.shift line).shift line' := by
  simp only [shift, Text.byteSize_append, List.count_append, mk.injEq, and_true]
  omega

theorem byteSize_break (before : List Char) : 0 < Text.byteSize (before ++ ['\n']) := by
  rw [Text.byteSize_append]
  exact Nat.add_pos_right _ Nat.one_pos

/-- The lines of a text from the break on move down by a line that is inserted there. -/
theorem Position.insert_after (before text u : List Char) :
    Position.insert (remark text) (Text.byteSize (before ++ ['\n']))
        (Position.start.after (before ++ ['\n'] ++ u)) =
      Position.start.after (before ++ ['\n'] ++ remark text ++ u) := by
  have hoffset : ¬(Position.start.after (before ++ ['\n'] ++ u)).offset <
      Text.byteSize (before ++ ['\n']) := by
    rw [Position.after_append, Position.after_offset, Position.after_offset]
    omega
  rw [Position.insert, if_neg hoffset, Position.after_append,
    Position.after_append (s := _ ++ remark text), start_after (.inr (endsLine_break before)),
    start_after (.inr (endsLine_append_remark _ text)), shift_append _ (remark text), after_shift,
    after_shift, after_shift]

theorem byteSize_lt_break {u : List Char} (hu : u <+: before) :
    Text.byteSize u < Text.byteSize (before ++ ['\n']) := by
  obtain ⟨v, rfl⟩ := hu
  have hnewline : Text.byteSize ['\n'] = 1 := rfl
  simp only [Text.byteSize_append, hnewline]
  omega

theorem Position.insert_before {u : List Char} (hu : u <+: before) (line : List Char) :
    Position.insert line (Text.byteSize (before ++ ['\n'])) (Position.start.after u) =
      Position.start.after u := by
  refine if_pos ?_
  rw [Position.after_offset, Position.start, Nat.zero_add]
  exact byteSize_lt_break hu

theorem Position.moves_insert (line : List Char) {n : Nat} (hn : 0 < n) :
    Position.Moves (Position.insert line n)
      (fun i ↦ if i < n then i else i + Text.byteSize line) where
  start := if_pos hn
  offset p := by
    unfold Position.insert
    split <;> rfl
  mono i j hij := by
    dsimp only
    split <;> split <;> omega

/-! ## The two windows -/

/-- The offsets on either side of a line break. -/
def AsideBreak (before after : List Char) (n : Nat) : Prop :=
  (∃ u, u <+: before ∧ n = Text.byteSize u) ∨
    ∃ u, u <+: after ∧ n = Text.byteSize (before ++ ['\n'] ++ u)

/-- No blank line comes or goes with a line that holds a comment. -/
theorem sameGap_remark (hline : '\n' ∉ text) {i j : Nat} (hi : AsideBreak before after i)
    (hj : AsideBreak before after j) :
    let n := Text.byteSize (before ++ ['\n'])
    SameGap (fun i ↦ if i < n then i else i + Text.byteSize (remark text))
      (before ++ ['\n'] ++ after) (before ++ ['\n'] ++ remark text ++ after) i j := by
  intro n
  set o : Nat → Nat := fun i ↦ if i < n then i else i + Text.byteSize (remark text) with ho
  have hmono : StrictMono o := (Position.moves_insert (remark text) (byteSize_break before)).mono
  have hnear : ∀ {u}, u <+: before → o (Text.byteSize u) = Text.byteSize u := fun hu ↦
    if_pos (byteSize_lt_break hu)
  have hfar : ∀ u, o (Text.byteSize (before ++ ['\n'] ++ u)) =
      Text.byteSize (before ++ ['\n'] ++ remark text ++ u) := by
    intro u
    rw [ho, Text.byteSize_append]
    dsimp only
    rw [if_neg (by omega), Text.byteSize_append _ u, Text.byteSize_append _ (remark text)]
    omega
  have hstart : ∀ {u} (l m : List Char), u <+: before → u <+: before ++ l ++ m := fun l m hu ↦
    hu.trans ((List.prefix_append _ l).trans (List.prefix_append _ m))
  have hend : ∀ {u} (l : List Char), u <+: after → l ++ u <+: l ++ after := fun l hu ↦
    (List.prefix_append_right_inj l).mpr hu
  rcases hi with ⟨u, hu, rfl⟩ | ⟨u, hu, rfl⟩ <;> rcases hj with ⟨v, hv, rfl⟩ | ⟨v, hv, rfl⟩
  · exact sameGap_of_prefix (hstart _ _ hu) (hstart _ _ hv)
      ((hstart _ _ hu).trans (List.prefix_append _ _))
      ((hstart _ _ hv).trans (List.prefix_append _ _)) (hnear hu) (hnear hv) hmono fun _ ↦ rfl
  · refine sameGap_of_prefix (hstart _ _ hu) (hend _ hv)
      ((hstart _ _ hu).trans (List.prefix_append _ _)) (hend _ hv) (hnear hu) (hfar v) hmono
      fun _ ↦ ?_
    obtain ⟨w, rfl⟩ := hu
    have hblank : Text.isAllBlank ("// ".toList ++ text) = false := rfl
    have hmark : '\n' ∉ "// ".toList ++ text := by simp [hline]
    have hinsert := Text.blankLines_insert hmark hblank (endsLine_break w) v
    simpa [remark] using hinsert
  · refine sameGap_of_prefix (hend _ hu) (hstart _ _ hv) (hend _ hu)
      ((hstart _ _ hv).trans (List.prefix_append _ _)) (hfar u) (hnear hv) hmono fun huv ↦ ?_
    have hle := (huv.trans hv).length_le
    simp only [List.length_append, List.length_singleton] at hle
    omega
  · refine sameGap_of_prefix (hend _ hu) (hend _ hv) (hend _ hu) (hend _ hv) (hfar u) (hfar v)
      hmono fun _ ↦ ?_
    have hdrop : ∀ l : List Char, (l ++ v).drop (l ++ u).length = v.drop u.length := by
      intro l
      rw [List.length_append, ← List.drop_drop, List.drop_left]
    rw [hdrop, hdrop]

/-- The lines after a line break move down by a comment on a line of its own. -/
def remarkExchange (hline : '\n' ∉ text) (before after : List Char) :
    Exchange (before ++ ['\n'] ++ after) (before ++ ['\n'] ++ remark text ++ after) where
  position := .insert (remark text) (Text.byteSize (before ++ ['\n']))
  offset i := if i < Text.byteSize (before ++ ['\n']) then i else i + Text.byteSize (remark text)
  clear := AsideBreak before after
  moves := Position.moves_insert (remark text) (byteSize_break before)
  gap _ _ := sameGap_remark hline

/-- The text up to the line break in front of the comment. -/
def windowAbove (hline : '\n' ∉ text) (before after : List Char) :
    Window .javascript (remarkExchange hline before after) where
  back := []
  back' := []
  mid := before
  rest := '\n' :: after
  rest' := '\n' :: (remark text ++ after)
  position _ hu := Position.insert_before hu _
  clear u hu := .inl ⟨u, hu, by rw [List.nil_append, Position.after_offset]; exact Nat.zero_add _⟩
  ends hnil := by cases hnil
  head := rfl
  stop e he := by
    cases he
    rfl
  marks t ht r := by
    have hin := Grammar.lined_javascript.toInLines.marks t ht
    rw [Text.isPrefixOf_append_cons hin, Text.isPrefixOf_append_cons hin]
  regexLiteral? u r _ := by
    have hpeek : (Cursor.between ([] ++ u) (r ++ '\n' :: (remark text ++ after))).peek? =
        (Cursor.between ([] ++ u) (r ++ '\n' :: after)).peek? := by
      cases r <;> rfl
    have hline : (Cursor.between ([] ++ u) (r ++ '\n' :: (remark text ++ after))).restOfLine =
        (Cursor.between ([] ++ u) (r ++ '\n' :: after)).restOfLine :=
      Text.takeWhile_append_cons (by simp) r _ _
    unfold Grammar.regexLiteral?
    rw [hpeek, hline]
    rfl
  bodyOpener? _ _ _ := rfl
  lineIndent u r _ := by
    unfold Cursor.lineIndent
    simp only [Cursor.between, Cursor.lineBehind, ← List.append_assoc]
    rw [Text.takeWhile_append_cons (by decide)]

/-- The comment makes no difference to whether a slash that comes first after it starts a regular
expression. -/
def KeepsSlash (before text after : List Char) : Prop :=
  (Text.trimStart after).head? = some '/' →
    Grammar.operandExpected (.between (before ++ ['\n'] ++ remark text) after) =
      Grammar.operandExpected (.between (before ++ ['\n']) after)

/-- The characters that are not blank come last behind a cursor. -/
theorem Cursor.lastSignificant?_between (b u a : List Char) :
    (between (b ++ u) a).lastSignificant? =
      (u.reverse.find? (!Text.isBlank ·)).or (between b a).lastSignificant? := by
  unfold lastSignificant? between
  dsimp only
  rw [List.reverse_append, List.find?_append]

theorem Grammar.regexLiteral?_of_peek? {g : Grammar} {c : Cursor} (h : c.peek? ≠ some '/') :
    g.regexLiteral? c = none := by
  simp [regexLiteral?, h]

theorem KeepsSlash.operandExpected_eq (h : KeepsSlash before text after) {u r : List Char}
    (hmid : after = u ++ r)
    (hpeek : (Cursor.between (before ++ ['\n'] ++ u) (r ++ [])).peek? = some '/') :
    Grammar.operandExpected (.between (before ++ ['\n'] ++ remark text ++ u) (r ++ [])) =
      Grammar.operandExpected (.between (before ++ ['\n'] ++ u) (r ++ [])) := by
  unfold Grammar.operandExpected
  rw [Cursor.lastSignificant?_between _ u, Cursor.lastSignificant?_between _ u]
  cases hfind : u.reverse.find? (!Text.isBlank ·) with
  | some c => rfl
  | none =>
    have hblank : Text.isAllBlank u = true := by
      rw [List.find?_eq_none] at hfind
      exact List.all_eq_true.mpr fun c hc ↦ by simpa using hfind c (List.mem_reverse.mpr hc)
    have hfirst : (Text.trimStart after).head? = some '/' := by
      rw [hmid, Text.trimStart_append_of_isAllBlank hblank]
      obtain ⟨cs, hcs⟩ := List.head?_eq_some_iff.mp hpeek
      change r ++ [] = '/' :: cs at hcs
      rw [← List.append_nil r, hcs]
      rfl
    exact h hfirst

/-- The text after the comment. -/
def windowBelow (hline : '\n' ∉ text) (hslash : KeepsSlash before text after) :
    Window .javascript (remarkExchange hline before after) where
  back := before ++ ['\n']
  back' := before ++ ['\n'] ++ remark text
  mid := after
  rest := []
  rest' := []
  position u _ := Position.insert_after before text u
  clear u hu := .inr ⟨u, hu, by rw [Position.after_offset]; exact Nat.zero_add _⟩
  ends hnil := hnil
  head := List.head?_nil
  stop := Text.isInlineBlank_of_head?_nil
  marks _ _ _ := rfl
  regexLiteral? u r hmid := by
    by_cases hpeek : (Cursor.between (before ++ ['\n'] ++ u) (r ++ [])).peek? = some '/'
    · unfold Grammar.regexLiteral?
      rw [hslash.operandExpected_eq hmid hpeek]
      rfl
    · rw [Grammar.regexLiteral?_of_peek? hpeek]
      exact Grammar.regexLiteral?_of_peek? hpeek
  bodyOpener? _ _ _ := rfl
  lineIndent u r _ := by
    unfold Cursor.lineIndent
    by_cases hu : '\n' ∈ u
    · rw [Cursor.lineBehind_between_of_mem hu]
      rfl
    · rw [Cursor.lineBehind_between_of_not_mem hu _ _ [],
        Cursor.lineBehind_between_of_not_mem hu _ _ [],
        Cursor.lineBehind_between_of_endsLine (endsLine_break before),
        Cursor.lineBehind_between_of_endsLine (endsLine_append_remark _ text)]
      rfl

/-! ## Up to the comment -/

/-- In front of the comment, a header is read alike unless it would go on past the line break. -/
theorem Window.Beside.readsAlike_above {hline : '\n' ∉ text} {p q : Pass}
    (hbeside : (windowAbove hline before after).Beside p q)
    (hcut : ∀ r, (p.atToken .javascript).tokenAhead .javascript = .anchor r →
      after.length < r.rest.length ∧ ¬r.Across after) :
    ReadsAlike .javascript p q := by
  obtain ⟨-, r, hat⟩ := hbeside
  have hahead : p.cursor.ahead = (r ++ ['\n']) ++ after :=
    hat.ahead.1.trans (List.append_assoc r ['\n'] after).symm
  have hahead' : q.cursor.ahead =
      (r ++ ['\n']) ++ '/' :: ("/ ".toList ++ text ++ ['\n'] ++ after) :=
    hat.ahead.2.trans (List.append_assoc r ['\n'] (remark text ++ after)).symm
  obtain ⟨hanchor, hplain⟩ := (p.atToken .javascript).recognise?_of_tokenAhead .javascript
  rw [Pass.atToken_cursor, hahead] at hanchor hplain
  rcases Grammar.recognise?_comment Grammar.lined_javascript.toInLines
      (p.atToken .javascript).assembly.enclosingKind? (endsLine_break r) after
      ("/ ".toList ++ text ++ ['\n'] ++ after) with ⟨found, hfound, hfound'⟩ | ⟨hnone, hlate⟩
  · refine ⟨fun a ha ↦ ⟨_, by rw [hahead', hfound'], ?_⟩, fun hp ↦ ?_⟩
    · have heq := (hanchor a ha).symm.trans hfound
      obtain rfl := Option.some.inj heq
      refine ⟨rfl, rfl, ?_⟩
      rw [hahead, hahead', Recognition.headerLength_extend, Recognition.headerLength_extend]
    · rw [hplain hp] at hfound
      cases hfound
  · refine ⟨fun a ha ↦ ?_, fun _ ↦ by rw [hahead', hnone]⟩
    obtain ⟨hlt, hacross⟩ := hcut a ha
    rcases hlate a (hanchor a ha) with hle | hyes
    · exact absurd hle (Nat.not_le.mpr hlt)
    · exact absurd hyes hacross

end

/-! ## Scans -/

variable {s : Setup} {before after text : List Char}

/-- The scan of a text comes to a line break in code, and no comment that it reads ends there. -/
structure Setup.BreaksLine (s : Setup) (before after : List Char) : Prop where
  newline : ∃ p, Reaches (step s) (start s (before ++ ['\n'] ++ after)) p ∧ p.mode = .code ∧
    p.cursor.ahead = '\n' :: after
  comment : ∀ p, Reaches (step s) (start s (before ++ ['\n'] ++ after)) p → p.read?.isSome = true →
    p.cursor.ahead ≠ '\n' :: after

instance (s : Setup) (before after : List Char) : Decidable (s.BreaksLine before after) :=
  let source := before ++ ['\n'] ++ after
  let passes := visited (step s) (4 * (source.length + 1)) (start s source)
  decidable_of_iff ((∃ p ∈ passes, p.mode = .code ∧ p.cursor.ahead = '\n' :: after) ∧
      ∀ p ∈ passes, p.read?.isSome = true → p.cursor.ahead ≠ '\n' :: after) <| by
    simp only [passes, source, Pass.mem_visited_iff]
    exact ⟨fun h ↦ ⟨h.1, h.2⟩, fun h ↦ ⟨h.newline, h.comment⟩⟩

/-- The scan of a text reads no method whose parenthesis comes after a line break. -/
def Setup.KeepsMethods (s : Setup) (before after : List Char) : Prop :=
  ∀ p r, Reaches (step s) (start s (before ++ ['\n'] ++ after)) p →
    p.reads s.grammar = some (.anchor r) → ¬r.Across after

theorem Pass.reads_of_step {p q : Pass} (hmode : p.mode = .code) (hstep : step s p = some q)
    (hblank : ∀ c, p.cursor.peek? = some c → Text.isBlank c = false) :
    p.reads s.grammar = some ((p.atToken s.grammar).tokenAhead s.grammar) := by
  cases hc : p.cursor.peek? with
  | none => cases (step_eq_none_iff.mpr ⟨hc, .inl hmode⟩).symm.trans hstep
  | some c =>
    exact reads_eq_some_iff.mpr
      ⟨hmode, c, hc, .inr (.inr ⟨hblank c hc, ahead_tokenAhead _ _⟩)⟩

/-- A header leaves the text after it. -/
theorem Pass.length_ahead_le_of_anchor {p q : Pass} {r : Recognition}
    (hreads : p.reads s.grammar = some (.anchor r)) (hstep : step s p = some q) :
    q.cursor.ahead.length ≤ r.rest.length := by
  rcases step_of_reads hreads with ⟨h | h, -⟩ | h
  · cases h
  · cases h
  · obtain rfl := Option.some.inj (hstep.symm.trans h)
    change ((p.atToken s.grammar).take s.grammar (.anchor r)).cursor.ahead.length ≤ _
    rw [take_cursor, tokenLength, Recognition.headerLength, Cursor.consume_ahead, List.length_drop]
    omega

/-- Two scans are side by side up to the line break in front of the comment. -/
theorem Window.Beside.ofBreak (hgrammar : s.grammar = .javascript) (hline : '\n' ∉ text)
    (hbreak : s.BreaksLine before after) (hmethod : s.KeepsMethods before after) {p : Pass}
    (hp : Reaches (Pass.step s) (start s (before ++ ['\n'] ++ after)) p)
    (hahead : p.cursor.ahead = '\n' :: after) :
    ∃ q, Reaches (Pass.step s) (start s (before ++ ['\n'] ++ remark text ++ after)) q ∧
      (windowAbove hline before after).Beside p q := by
  obtain ⟨_, registry, options⟩ := s
  obtain rfl : _ = Grammar.javascript := hgrammar
  have hstart : (windowAbove hline before after).Beside
      (start ⟨.javascript, registry, options⟩ (before ++ ['\n'] ++ after))
      (start ⟨.javascript, registry, options⟩ (before ++ ['\n'] ++ remark text ++ after)) := by
    refine ⟨.start _ _ _, before, [], rfl, ?_, ?_⟩
    · exact congrArg Cursor.ofText (List.append_assoc before ['\n'] after)
    · exact congrArg Cursor.ofText (by simp [windowAbove])
  refine hstart.reaches (s := ⟨.javascript, registry, options⟩) (.refl _) hp
    (congrArg List.length hahead).ge ?_ ?_
  · intro a b a' ha hab hbp hmode hblank hbeside
    refine hbeside.readsAlike_above fun r hr ↦ ?_
    have hreads : a.reads .javascript = some (.anchor r) :=
      (Pass.reads_of_step hmode hab hblank).trans (congrArg some hr)
    refine ⟨?_, hmethod a r ha hreads⟩
    -- the header ends in front of the line break
    have hle := Pass.length_ahead_le_of_reaches
      (Pass.atComment_of_reaches (ha.trans (.head hab (.refl b)))) hbp
    have hrest := Pass.length_ahead_le_of_anchor (s := ⟨.javascript, registry, options⟩) hreads hab
    rw [hahead, List.length_cons] at hle
    omega
  · intro b c hb hbp hmode
    refine .inl (lt_of_le_of_ne ?_ fun hlength ↦ ?_)
    · have hle := Pass.length_ahead_le_of_reaches (Pass.atComment_of_reaches hb) hbp
      rwa [hahead] at hle
    · have hin := (Pass.reaches_moves hb).2.cursor
      rw [List.append_assoc] at hin
      exact hbreak.comment b hb (by rw [Pass.read?, hmode]; rfl) (hin.ahead_eq hlength.symm)

/-! ## Across the comment -/

/-- The content of a comment on a line of its own. -/
def CommentLine.remark (text : List Char) (p : Position) : CommentLine :=
  .strip p (' ' :: text) (Comment.lineDecoration "//".toList (' ' :: text))

/-- Whether the text of a comment on a line of its own starts a tag. -/
def IsTag (text : List Char) : Prop := (CommentLine.remark text .start).startsTag = true

instance (text : List Char) : Decidable (IsTag text) :=
  inferInstanceAs (Decidable (_ = true))

theorem Comment.tags_remark (registry : Registry) (h : ¬IsTag text) (p : Position) (span : Span) :
    Comment.tags registry ⟨[.remark text p], span⟩ = [] := by
  have hstart : (CommentLine.remark text p).startsTag = false := Bool.eq_false_iff.mpr h
  simp [tags, TagLines.ofLines, hstart, tagsAfter]

/-- A comment on a line of its own is one line, unless a comment with the same marker follows. -/
theorem Cursor.lineComments_remark {c : Cursor} {rest : List Char} (hline : '\n' ∉ text)
    (hahead : c.ahead = remark text ++ rest)
    (hrest : "//".toList.isPrefixOf (Grammar.dropInline rest) = false) :
    c.lineComments "//".toList =
      ([.remark text (c.consume 2).position], c.consume (text.length + 3)) := by
  have hafter : (c.consume 2).ahead = (' ' :: text) ++ '\n' :: rest := by
    rw [consume_ahead, hahead]
    simp [remark]
  have hfirst : c.firstCommentLine "//".toList =
      ([.remark text (c.consume 2).position], c.consume (text.length + 3)) := by
    have hlength : 2 + (' ' :: text).length = text.length + 3 := by
      rw [List.length_cons]
      omega
    rw [firstCommentLine, show "//".toList.length = 2 from rfl,
      commentLine_eq _ hafter (by simp [hline]), consume_consume, hlength]
    rfl
  have hend : (c.consume (text.length + 3)).ahead = '\n' :: rest := by
    rw [consume_ahead, hahead]
    simp [remark]
  have hblanks :
      rest.drop (rest.takeWhile Text.isInlineBlank).length = Grammar.dropInline rest := by
    have hsplit := List.takeWhile_append_dropWhile (p := Text.isInlineBlank) (l := rest)
    exact (congrArg (List.drop _) hsplit.symm).trans List.drop_left
  refine lineComments_eq_of_runsTo ⟨hfirst ▸ .refl _, ?_⟩
  rw [nextCommentLine?_of_newline hend]
  dsimp only
  rw [hblanks, hrest]
  rfl

namespace Pass

variable {q : Pass} {rest : List Char}

/-- A line break changes nothing right after another one. -/
theorem afterNewline_afterNewline (p : Pass) (g : Grammar) (c : Cursor) (last : Position)
    (b : Bool) :
    { p.afterNewline g with cursor := c, lastEnd := last, lineStart := b }.afterNewline g =
      { p.afterNewline g with cursor := c, lastEnd := last } := by
  rw [afterNewline_eq, afterNewline_eq]
  simp only [mk.injEq, true_and, and_true]
  refine ⟨?_, ?_⟩
  · change (_ || p.inStatements g || p.inStatements g) = (_ || _)
    rw [Bool.or_assoc, Bool.or_self]
  · by_cases hends : (g.newlineTerminates && p.awaitsBody) = true
    · simp [hends]
    · rw [if_neg hends]
      exact if_neg hends

/-- A comment on a line of its own is read up to the end of its line. -/
theorem step_remark (hgrammar : s.grammar = .javascript) (hline : '\n' ∉ text)
    (hmode : q.mode = .comment (.line 0)) (hahead : q.cursor.ahead = remark text ++ rest)
    (hrest : "//".toList.isPrefixOf (Grammar.dropInline rest) = false) :
    let c := q.cursor.consume (text.length + 3)
    step s q = some { q with
      cursor := c
      lastEnd := c.position
      mode := .tags ⟨[.remark text (q.cursor.consume 2).position],
        c.spanFrom q.cursor.position⟩ } := by
  intro c
  rw [step_comment hmode]
  change some (q.lineComment s.grammar (s.grammar.lineComment 0)) = _
  rw [hgrammar, show Grammar.javascript.lineComment 0 = "//".toList from rfl, lineComment_eq,
    Cursor.lineComments_remark hline hahead hrest]
  rfl

theorem step_of_tags_eq_nil {c : Comment} (hmode : q.mode = .tags c)
    (hnil : c.tags s.registry = []) : step s q = some { q with mode := .code } := by
  rw [step_tags hmode, placeTags, hnil]
  simp

/-- The steps from a line break over a comment on a line of its own without tags lead to the next
line, as if the comment were not there. -/
theorem reaches_remark (hgrammar : s.grammar = .javascript) (hline : '\n' ∉ text)
    (htag : ¬IsTag text) (hmode : q.mode = .code)
    (hahead : q.cursor.ahead = '\n' :: (remark text ++ rest))
    (hrest : "//".toList.isPrefixOf (Grammar.dropInline rest) = false) :
    ∃ last, Reaches (step s) q
      { (q.consume 1).afterNewline s.grammar with
        cursor := q.cursor.consume (1 + (remark text).length), lastEnd := last } := by
  have hbreak := step_newline (s := s) hmode hahead
  obtain ⟨hmode', hcursor'⟩ := (q.consume 1).afterNewline_mode_cursor s.grammar
  generalize hafter : (q.consume 1).afterNewline s.grammar = after at *
  have hahead' : after.cursor.ahead = remark text ++ rest := by
    rw [hcursor', consume, Cursor.consume_ahead, hahead]
    rfl
  have hpeek : after.cursor.peek? = some '/' := by
    rw [Cursor.peek?, hahead']
    rfl
  have hform : s.grammar.commentStart? after.cursor = some (.line 0) := by
    rw [hgrammar]
    generalize after.cursor = c at hahead'
    obtain ⟨position, behind, ahead⟩ := c
    subst hahead'
    rfl
  have hmarker := step_of_commentStart? (s := s) (hmode'.trans hmode) hpeek rfl hform
  rw [atToken_of_braces (hgrammar ▸ rfl)] at hmarker
  let opened : Pass := { { after with lineStart := false } with mode := .comment (.line 0) }.markEnd
  have hcomment := step_remark (q := opened) hgrammar hline rfl hahead' hrest
  dsimp only at hcomment
  generalize hc : opened.cursor.consume (text.length + 3) = c at hcomment
  have htags := step_of_tags_eq_nil (s := s) (q := { opened with
    cursor := c, lastEnd := c.position
    mode := .tags ⟨[.remark text (opened.cursor.consume 2).position],
      c.spanFrom opened.cursor.position⟩ }) rfl (Comment.tags_remark s.registry htag _ _)
  have hend : c.ahead = '\n' :: rest := by
    rw [← hc, Cursor.consume_ahead, show opened.cursor.ahead = _ from hahead']
    simp [remark]
  have hclose := step_newline (s := s) (p := { opened with
    cursor := c, lastEnd := c.position, mode := .code }) rfl hend
  refine ⟨c.position, .head hbreak (.head hmarker (.head hcomment (.head htags (.head hclose ?_))))⟩
  -- the comment's line break leaves what the one in front of it left
  have hcursor : c.consume 1 = q.cursor.consume (1 + (remark text).length) := by
    rw [← hc, show opened.cursor = q.cursor.consume 1 from hcursor', Cursor.consume_consume,
      Cursor.consume_consume]
    congr 1
    simp [remark]
  have hagain : ({ opened with cursor := c, lastEnd := c.position, mode := .code } : Pass).consume 1
      = { after with cursor := c.consume 1, lastEnd := c.position, lineStart := false } := by
    simp [opened, markEnd, consume, hmode'.trans hmode]
  rw [hagain, ← hafter, afterNewline_afterNewline, hcursor]
  exact .refl _

end Pass

/-- Two scans that are side by side in front of the comment are so again after it. -/
theorem Window.Beside.remark {hline : '\n' ∉ text} (hslash : KeepsSlash before text after)
    (hgrammar : s.grammar = .javascript) (htag : ¬IsTag text)
    (hafter : "//".toList.isPrefixOf (Grammar.dropInline after) = false) {p q : Pass}
    (hbeside : (windowAbove hline before after).Beside p q) (hmode : p.mode = .code)
    (hahead : p.cursor.ahead = '\n' :: after) :
    ∃ p' q', Reaches (Pass.step s) p p' ∧ Reaches (Pass.step s) q q' ∧
      (windowBelow hline hslash).Beside p' q' := by
  obtain ⟨habreast, r, hat⟩ := hbeside
  obtain ⟨hc, hc'⟩ : p.cursor = .between before ('\n' :: after) ∧
      q.cursor = .between before ('\n' :: (Marginalia.remark text ++ after)) :=
    hat.eq_between hahead
  have hmode' : q.mode = .code := habreast.mode.trans (by rw [hmode]; rfl)
  have hahead' : q.cursor.ahead = '\n' :: (Marginalia.remark text ++ after) := hc' ▸ rfl
  obtain ⟨last, hreach⟩ := Pass.reaches_remark hgrammar hline htag hmode' hahead' hafter
  refine ⟨_, _, .head (Pass.step_newline hmode hahead) (.refl _), hreach, ?_, after, [], rfl, ?_,
    ?_⟩
  · have hnewline := (habreast.consume 1 1).afterNewline
    rw [hgrammar]
    exact { hnewline with lastEnd := fun hindents ↦ by cases hindents }
  · rw [((p.consume 1).afterNewline_mode_cursor s.grammar).2]
    change p.cursor.consume 1 = _
    rw [hc, Cursor.between_consume]
    simp [windowBelow]
  · change q.cursor.consume _ = _
    rw [hc', Cursor.between_consume, Nat.add_comm 1, List.take_succ_cons, List.drop_succ_cons,
      List.take_left, List.drop_left]
    simp [windowBelow]

/-- A comment without tags, on a line of its own, moves what comes after it down and changes nothing
else of what a scan finds, if no slash after it is taken for something else on its account and no
method loses its parenthesis to the next line. -/
theorem scan_insertRemark (registry : Registry) (options : ScanOptions)
    (hbreak : Setup.BreaksLine ⟨.javascript, registry, options⟩ before after)
    (hafter : "//".toList.isPrefixOf (Grammar.dropInline after) = false)
    (hline : '\n' ∉ text) (htag : ¬IsTag text)
    (hslash : KeepsSlash before text after)
    (hmethod : Setup.KeepsMethods ⟨.javascript, registry, options⟩ before after) :
    Setup.scan ⟨.javascript, registry, options⟩ (before ++ ['\n'] ++ remark text ++ after) =
      (Setup.scan ⟨.javascript, registry, options⟩ (before ++ ['\n'] ++ after)).relocate
        (.insert (remark text) (Text.byteSize (before ++ ['\n']))) := by
  obtain ⟨p, hp, hmode, hahead⟩ := hbreak.newline
  obtain ⟨q, hq, hbeside⟩ := Window.Beside.ofBreak rfl hline hbreak hmethod hp hahead
  obtain ⟨p', q', hpp', hqq', hbelow⟩ :=
    hbeside.remark hslash (s := ⟨.javascript, registry, options⟩) rfl htag hafter hmode hahead
  exact hbelow.findings (hp.trans hpp') (hq.trans hqq') rfl

/-- A comment at the start of a function's body, in front of a regular expression. -/
theorem scan_insertRemark_in_body :
    let s : Setup := ⟨.javascript, .standard, {}⟩
    let before := "function f() \x7b".toList
    let after := "  /a/.test(b);\n\x7d\n".toList
    let text := "find it;".toList
    (s.BreaksLine before after ∧ "//".toList.isPrefixOf (Grammar.dropInline after) = false ∧
      '\n' ∉ text ∧ ¬IsTag text ∧ KeepsSlash before text after ∧ s.KeepsMethods before after) ∧
    s.scan (before ++ ['\n'] ++ remark text ++ after) =
      (s.scan (before ++ ['\n'] ++ after)).relocate
        (.insert (remark text) (Text.byteSize (before ++ ['\n']))) := by
  intro s before after text
  have hbreak : s.BreaksLine before after := by decide +kernel
  have hafter : "//".toList.isPrefixOf (Grammar.dropInline after) = false := by decide
  have hline : '\n' ∉ text := by decide
  have htag : ¬IsTag text := by decide
  have hslash : KeepsSlash before text after := fun _ ↦ by decide
  have hmethod : s.KeepsMethods before after := fun p r _ _ hacross ↦
    absurd hacross.2.1 (by decide)
  exact ⟨⟨hbreak, hafter, hline, htag, hslash, hmethod⟩,
    scan_insertRemark .standard {} hbreak hafter hline htag hslash hmethod⟩

/-- A comment that ends with a letter hides the operator in front of it: the regular expression
after it is read as a division and its quote as the start of a string. -/
theorem scan_mistakes_slash_after_remark :
    let s : Setup := ⟨.javascript, .standard, {}⟩
    let before := "var ok =".toList
    let after := "/'/.test(name);\n".toList
    let text := "must not hold a quote".toList
    (s.BreaksLine before after ∧ "//".toList.isPrefixOf (Grammar.dropInline after) = false ∧
      '\n' ∉ text ∧ ¬IsTag text ∧ s.KeepsMethods before after) ∧
    (s.scan (before ++ ['\n'] ++ after)).diagnostics = [] ∧
    (s.scan (before ++ ['\n'] ++ remark text ++ after)).diagnostics.map (·.kind) =
      [.unterminatedString] ∧
    s.scan (before ++ ['\n'] ++ remark text ++ after) ≠
      (s.scan (before ++ ['\n'] ++ after)).relocate
        (.insert (remark text) (Text.byteSize (before ++ ['\n']))) := by
  intro s before after text
  have hbreak : s.BreaksLine before after := by decide +kernel
  have htag : ¬IsTag text := by decide
  have hmethod : s.KeepsMethods before after := fun p r _ _ hacross ↦
    absurd hacross.2.1 (by decide)
  have hclean : (s.scan (before ++ ['\n'] ++ after)).diagnostics = [] := by decide +kernel
  have hreport : (s.scan (before ++ ['\n'] ++ remark text ++ after)).diagnostics.map (·.kind) =
      [.unterminatedString] := by
    decide +kernel
  refine ⟨⟨hbreak, by decide, by decide, htag, hmethod⟩, hclean, hreport, fun heq ↦ ?_⟩
  rw [heq, Findings.relocate, hclean] at hreport
  cases hreport

/-- A method whose parenthesis is on the next line is lost to a comment between its name and it. -/
example :
    let s : Setup := ⟨.javascript, .standard, {}⟩
    let before := "class A \x7b\n  foo".toList
    let after := "  () \x7b\x7d\n\x7d\n".toList
    (s.scan (before ++ ['\n'] ++ after)).outline.root.nodes.length = 3 ∧
      (s.scan (before ++ ['\n'] ++ remark "c".toList ++ after)).outline.root.nodes.length = 2 := by
  decide +kernel

end Marginalia
