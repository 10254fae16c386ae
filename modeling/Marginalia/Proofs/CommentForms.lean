import Marginalia.Proofs.Documented
import Marginalia.Proofs.Shift
import Marginalia.Proofs.StableSort

/-!
# Line comments and block comments

A text that is a single comment means the same whether each of its lines is a line comment or they
share a block with a gutter. The block opens with a line of its own, so what the comment says stands
one line further down in it; and its last line, which is empty, may belong to the last tag. So the
tags of the two forms correspond one to one, and may differ in where they end, but not in where they
start, which is what findings are sorted by.
-/

namespace Marginalia

variable {before : List Char}

/-- Every position exchanged for the same one: what is left of findings is what does not depend on
where they stand. -/
def Position.forget (_ : Position) : Position := .start

/-! ## Tags that differ in where they end -/

/-- The diagnostic of a text and one that starts at the same place when the text comes after another
one. -/
structure Diagnostic.Matches (before : List Char) (d e : Diagnostic) : Prop where
  content : e.relocate .forget = d.relocate .forget
  start : e.span.start = d.span.start.shift before

/-- The tag of a text and one that starts at the same place when the text comes after another
one. -/
structure Tag.Matches (before : List Char) (t u : Tag) : Prop where
  content : u.relocate .forget = t.relocate .forget
  start : u.span.start = t.span.start.shift before

/-- A tag and what is wrong with it, and the same when the text comes after another one, except for
where they end. -/
structure ParsedTag.Matches (before : List Char) (t u : ParsedTag) : Prop where
  tag : t.tag.Matches before u.tag
  diagnostics : List.Forall₂ (Diagnostic.Matches before) t.diagnostics u.diagnostics

/-- The lines of a tag, and the same lines when the text comes after another one, where an empty
line may come to them. -/
structure TagLines.Trails (before : List Char) (t u : TagLines) : Prop where
  first : u.first = t.first.shift before
  continuation : u.continuation = t.continuation.map (·.shift before) ∨
    ∃ l : CommentLine, l.text = [] ∧ u.continuation = t.continuation.map (·.shift before) ++ [l]

namespace Text

theorem trim_concat_newline (s : List Char) : trim (s ++ ['\n']) = trim s := by
  have hend : ∀ t : List Char, trimEnd (t ++ ['\n']) = trimEnd t := by
    intro t
    have hblank : isBlank '\n' = true := by decide
    unfold trimEnd
    rw [List.reverse_append, List.reverse_singleton, List.singleton_append,
      List.dropWhile_cons_of_pos hblank]
  have hblank : trimStart ['\n'] = [] := by decide
  unfold trim
  rw [show trimStart (s ++ ['\n']) = _ from List.dropWhile_append]
  split
  · rename_i hnil
    rw [show ['\n'].dropWhile isBlank = [] from hblank,
      show trimStart s = [] from List.isEmpty_iff.mp hnil]
  · exact hend _

theorem unlines_concat_nil {ls : List (List Char)} (h : ls ≠ []) :
    unlines (ls ++ [[]]) = unlines ls ++ ['\n'] := by
  induction ls with
  | nil => exact absurd rfl h
  | cons l ls ih =>
    cases ls with
    | nil => simp [unlines_cons_cons, unlines_singleton]
    | cons m ms =>
      rw [List.cons_append, List.cons_append, unlines_cons_cons, ← List.cons_append,
        ih (List.cons_ne_nil m ms), unlines_cons_cons, List.append_assoc, List.cons_append]

end Text

namespace TagLines

/-- An empty line at the end of a tag adds nothing to its body. -/
theorem body_concat {l : CommentLine} (hl : l.text = []) (rest : List Char)
    (ls : List CommentLine) : body rest (ls ++ [l]) = body rest ls := by
  have hcommon : commonIndent (ls ++ [l]) = commonIndent ls := by
    unfold commonIndent
    rw [List.filter_append, List.filter_cons_of_neg (by rw [hl]; decide), List.filter_nil,
      List.append_nil]
  have hcut : ∀ n, Text.trimEnd ((Text.dropBytes? n l.text).getD (Text.trimStart l.text)) = [] := by
    intro n
    rw [hl]
    cases n <;> rfl
  unfold body
  dsimp only
  rw [hcommon, List.map_append, List.map_singleton, hcut, ← List.cons_append,
    Text.unlines_concat_nil (List.cons_ne_nil _ _), Text.trim_concat_newline]

/-- The same tags start in the lines of a text and in the same lines further down, with an empty
line after them. -/
theorem trails_ofLines (i j : Nat) (ls : List CommentLine) {l : CommentLine} (hl : l.text = []) :
    List.Forall₂ (Trails before) (ofLines i ls)
      (ofLines j (ls.map (·.shift before) ++ [l])) := by
  have hempty : l.startsTag = false := by
    unfold CommentLine.startsTag CommentLine.tagName?
    rw [hl]
    rfl
  induction ls generalizing i j with
  | nil =>
    simp [ofLines, hempty]
  | cons m ms ih =>
    have hmap : (ms.map (·.shift before)).takeWhile (!·.startsTag) =
        (ms.takeWhile (!·.startsTag)).map (·.shift before) := List.takeWhile_map
    rw [List.map_cons, List.cons_append, ofLines, ofLines,
      show (m.shift before).startsTag = m.startsTag from rfl]
    split
    · refine .cons ⟨rfl, ?_⟩ (ih _ _)
      dsimp only
      rw [List.takeWhile_append, hmap]
      split
      · rename_i hall
        rw [List.length_map, List.length_map] at hall
        rw [(List.takeWhile_sublist _).eq_of_length hall,
          List.takeWhile_cons_of_pos (by simp [hempty])]
        exact .inr ⟨l, hl, rfl⟩
      · exact .inl rfl
    · exact ih _ _

/-- Tags with corresponding lines are the same but for where they end. -/
theorem Trails.parse {t u : TagLines} (h : t.Trails before u) (registry : Registry) :
    (t.parse registry).Matches before (u.parse registry) := by
  have hshift := parse_relocate registry (f := Position.shift before) (t := t)
    ⟨t.first.start.steady_shift _, fun l _ ↦ l.start.steady_shift _⟩
  have hfirst : u.first = (t.relocate (.shift before)).first := h.first
  have hbody : ∀ rest,
      body rest u.continuation = body rest (t.relocate (.shift before)).continuation := by
    intro rest
    rcases h.continuation with hsame | ⟨l, hl, hmore⟩
    · rw [hsame]
      rfl
    · rw [hmore, body_concat hl]
      rfl
  have hsame : u.parse registry =
      { (t.relocate (.shift before)).parse registry with
        tag := { ((t.relocate (.shift before)).parse registry).tag with span := u.span } } := by
    unfold TagLines.parse headerSpan start header
    rw [hfirst]
    simp only [hbody]
  rw [hsame, hshift]
  refine ⟨⟨rfl, ?_⟩, ?_⟩
  · change u.start = t.start.shift before
    unfold start
    rw [h.first]
    exact Position.after_shift _ _
  · change List.Forall₂ _ _ ((t.parse registry).diagnostics.map _)
    rw [List.forall₂_map_right_iff, List.forall₂_same]
    exact fun d _ ↦ ⟨rfl, rfl⟩

end TagLines

theorem ParsedTag.Matches.tagsAfter {ts us : List TagLines} (registry : Registry)
    (seen : List String) (h : List.Forall₂ (TagLines.Trails before) ts us) :
    List.Forall₂ (ParsedTag.Matches before) (Comment.tagsAfter registry seen ts)
      (Comment.tagsAfter registry seen us) := by
  induction h generalizing seen with
  | nil => exact .nil
  | @cons t u ts us htu hrest ih =>
    have hparse := htu.parse registry
    have hname : (u.parse registry).tag.name = (t.parse registry).tag.name :=
      (congrArg Tag.name hparse.tag.content :)
    have honce : Comment.isOnce registry (u.parse registry).tag =
        Comment.isOnce registry (t.parse registry).tag := by
      unfold Comment.isOnce
      rw [hname]
    rw [Comment.tagsAfter, Comment.tagsAfter]
    simp only [honce, hname]
    split
    · split
      · refine .cons ⟨hparse.tag, List.rel_append hparse.diagnostics (.cons ?_ .nil)⟩ (ih _)
        refine ⟨?_, hparse.tag.start⟩
        unfold Comment.duplicate
        rw [hname]
        rfl
      · exact .cons hparse (ih _)
    · exact .cons hparse (ih _)

/-! ## The lines of a comment -/

/-- The lines, each after a mark and before a newline. -/
def marked (mark : List Char) (ls : List (List Char)) : List Char :=
  ls.flatMap fun l ↦ mark ++ l ++ ['\n']

/-- The lines as line comments, one below the other. -/
def lineForm (ls : List (List Char)) : List Char := marked "// ".toList ls

/-- The lines as one block comment with a gutter. -/
def blockForm (ls : List (List Char)) : List Char :=
  "/**\n".toList ++ marked " * ".toList ls ++ " */\n".toList

/-- The lines of a comment's content that stand one below the other from `p` on, each after three
characters. -/
def CommentLine.column (p : Position) : List (List Char) → List CommentLine
  | [] => []
  | l :: ls => ⟨l, p.after "   ".toList⟩ :: column (((p.after "   ".toList).after l).step '\n') ls

theorem CommentLine.column_shift (p : Position) (ls : List (List Char)) :
    column (p.shift before) ls = (column p ls).map (·.shift before) := by
  induction ls generalizing p with
  | nil => rfl
  | cons l ls ih =>
    rw [column, column, Position.after_shift, Position.after_shift, Position.step_shift, ih]
    rfl

namespace Cursor

variable {c : Cursor} {l rest : List Char}

theorem consume_line (h : c.ahead = ' ' :: l ++ '\n' :: rest) :
    (c.consume (l.length + 1)).ahead = '\n' :: rest ∧
      (c.consume (l.length + 1)).position = (c.position.step ' ').after l := by
  have htake : (' ' :: l ++ '\n' :: rest).take (l.length + 1) = ' ' :: l := List.take_left' rfl
  rw [consume_ahead, consume_position, h, htake]
  exact ⟨List.drop_left, rfl⟩

/-- The line after the marker of a line comment loses the space it starts with. -/
theorem commentLine_slashes (h : c.ahead = ' ' :: l ++ '\n' :: rest) (hl : '\n' ∉ l) :
    c.commentLine "//".toList = (⟨l, c.position.step ' '⟩, c.consume (l.length + 1)) := by
  rw [commentLine_eq _ h (by simp [hl])]
  rfl

theorem runsTo_lineForm {ls : List (List Char)} (hls : ∀ l ∈ ls, '\n' ∉ l) (c : Cursor)
    (lines : List CommentLine) (h : c.ahead = '\n' :: lineForm ls) :
    ∃ e : Cursor, e.ahead = ['\n'] ∧ RunsTo (nextCommentLine? "//".toList) (lines, c)
      (lines ++ CommentLine.column (c.position.step '\n') ls, e) := by
  induction ls generalizing c lines with
  | nil =>
    refine ⟨c, h, ?_⟩
    rw [CommentLine.column, List.append_nil]
    refine .stop ?_
    rw [nextCommentLine?_of_newline h]
    rfl
  | cons l ls ih =>
    obtain ⟨hl, hrest⟩ := List.forall_mem_cons.mp hls
    have hahead : c.ahead = "\n//".toList ++ (' ' :: l ++ '\n' :: lineForm ls) := by
      rw [h]
      simp [lineForm, marked]
    have hthree : (c.consume 3).ahead = ' ' :: l ++ '\n' :: lineForm ls := by
      rw [consume_ahead, hahead]
      rfl
    have hposition : (c.consume 3).position = c.position.after "\n//".toList := by
      unfold consume
      rw [hahead]
      rfl
    obtain ⟨hend, hendPosition⟩ := consume_line hthree
    obtain ⟨e, he, hruns⟩ := ih hrest ((c.consume 3).consume (l.length + 1))
      (lines ++ [⟨l, (c.consume 3).position.step ' '⟩]) hend
    refine ⟨e, he, .head (b := (lines ++ [⟨l, (c.consume 3).position.step ' '⟩],
      (c.consume 3).consume (l.length + 1))) ?_ ?_⟩
    · rw [nextCommentLine?_of_newline h]
      have hnext : (lineForm (l :: ls)).takeWhile Text.isInlineBlank = [] := rfl
      have hprefix : "//".toList.isPrefixOf (lineForm (l :: ls)) = true := rfl
      dsimp only
      rw [hnext, List.length_nil, List.drop_zero, if_pos hprefix]
      exact congrArg some (by rw [show 1 + 0 + "//".toList.length = 3 from rfl,
        commentLine_slashes hthree hl])
    · rw [hendPosition, hposition, List.append_assoc] at hruns
      rw [CommentLine.column]
      exact hposition ▸ hruns

/-- The lines of a text that is a run of line comments. -/
theorem lineComments_lineForm {l : List Char} {ls : List (List Char)}
    (hls : ∀ m ∈ l :: ls, '\n' ∉ m) :
    ∃ e : Cursor, e.ahead = ['\n'] ∧ (ofText (lineForm (l :: ls))).lineComments "//".toList =
      (CommentLine.column .start (l :: ls), e) := by
  obtain ⟨hl, hrest⟩ := List.forall_mem_cons.mp hls
  let c := (ofText (lineForm (l :: ls))).consume 2
  have hahead : c.ahead = ' ' :: l ++ '\n' :: lineForm ls := by
    simp [c, ofText, lineForm, marked]
  obtain ⟨hend, hposition⟩ := consume_line hahead
  obtain ⟨e, he, hruns⟩ := runsTo_lineForm hrest (c.consume (l.length + 1))
    [⟨l, Position.start.after "// ".toList⟩] hend
  refine ⟨e, he, lineComments_eq_of_runsTo ?_⟩
  have hfirst : (ofText (lineForm (l :: ls))).firstCommentLine "//".toList =
      ([⟨l, Position.start.after "// ".toList⟩], c.consume (l.length + 1)) := by
    unfold firstCommentLine
    rw [show (ofText (lineForm (l :: ls))).consume "//".toList.length = c from rfl,
      commentLine_slashes hahead hl]
    rfl
  rw [hfirst, CommentLine.column]
  rw [hposition] at hruns
  exact hruns

end Cursor

theorem Text.lines_line {l : List Char} (h : '\n' ∉ l) (rest : List Char) :
    lines (l ++ '\n' :: rest) = l :: lines rest := by
  unfold lines
  induction l with
  | nil => rfl
  | cons c l ih =>
    obtain ⟨hc, hl⟩ := not_or.mp (mt List.mem_cons.mpr h)
    rw [List.cons_append, pieces, if_neg (by simpa [eq_comm] using hc), ih hl]

/-- A line that does not close a block comment belongs to its content. -/
theorem blockContent_line {l : List Char} (h : ¬"*/".toList <:+: l) (rest : List Char) :
    blockContent "*/".toList (l ++ '\n' :: rest) =
      (l ++ '\n' :: (blockContent "*/".toList rest).1, (blockContent "*/".toList rest).2) := by
  induction l with
  | nil => rfl
  | cons c l ih =>
    have hopen : "*/".toList.isPrefixOf (c :: (l ++ '\n' :: rest)) = false := by
      rw [Bool.eq_false_iff, ne_eq, List.isPrefixOf_iff_prefix]
      intro hprefix
      cases l with
      | nil =>
        obtain ⟨-, hslash⟩ := List.cons_prefix_cons.mp hprefix
        have hne : ¬['/'] <+: '\n' :: rest := by simp [List.cons_prefix_cons]
        exact hne hslash
      | cons d l =>
        obtain ⟨rfl, hslash⟩ := List.cons_prefix_cons.mp hprefix
        obtain ⟨rfl, -⟩ := List.cons_prefix_cons.mp hslash
        exact h ⟨[], l, rfl⟩
    have hl : ¬"*/".toList <:+: l := fun hl ↦ h (hl.trans (List.suffix_cons c l).isInfix)
    rw [List.cons_append, blockContent, hopen]
    simp only [Bool.and_false, Bool.false_eq_true, if_false, ih hl, List.cons_append]

namespace Comment

/-- The content of a block that lines share: what opens it takes up its first line, and what closes
it its last. -/
theorem blockContent_blockForm {ls : List (List Char)} (hls : ∀ l ∈ ls, ¬"*/".toList <:+: l) :
    blockContent "*/".toList ((blockForm ls).drop 2) =
      ("*\n".toList ++ marked " * ".toList ls ++ [' '], true) := by
  have hlines : blockContent "*/".toList (marked " * ".toList ls ++ " */\n".toList) =
      (marked " * ".toList ls ++ [' '], true) := by
    induction ls with
    | nil => rfl
    | cons l ls ih =>
      obtain ⟨hl, hrest⟩ := List.forall_mem_cons.mp hls
      have hmark : ¬"*/".toList <:+: " * ".toList ++ l := by
        rw [show " * ".toList ++ l = ' ' :: '*' :: ' ' :: l from rfl,
          show "*/".toList = ['*', '/'] from rfl]
        simpa [List.infix_cons_iff, List.cons_prefix_cons] using hl
      have hsplit : ∀ tail, marked " * ".toList (l :: ls) ++ tail =
          (" * ".toList ++ l) ++ '\n' :: (marked " * ".toList ls ++ tail) := by
        intro tail
        simp [marked]
      rw [hsplit, blockContent_line hmark, ih hrest, hsplit]
  have hopen : (blockForm ls).drop 2 =
      ['*'] ++ '\n' :: (marked " * ".toList ls ++ " */\n".toList) := by
    simp [blockForm]
  rw [hopen, blockContent_line (by decide), hlines]
  rfl

theorem lines_marked {mark : List Char} (hmark : '\n' ∉ mark) {ls : List (List Char)}
    (hls : ∀ l ∈ ls, '\n' ∉ l) (last : List Char) :
    Text.lines (marked mark ls ++ last) = ls.map (mark ++ ·) ++ Text.lines last := by
  induction ls with
  | nil => rfl
  | cons l ls ih =>
    obtain ⟨hl, hrest⟩ := List.forall_mem_cons.mp hls
    have hline : '\n' ∉ mark ++ l := by simp [hmark, hl]
    have hsplit :
        marked mark (l :: ls) ++ last = (mark ++ l) ++ '\n' :: (marked mark ls ++ last) := by
      simp [marked]
    rw [hsplit, Text.lines_line hline, ih hrest]
    rfl

/-- Lines that all have a gutter lose it, and an empty line comes after them. -/
theorem stripLines_gutter (p : Position) (ls : List (List Char)) :
    ∃ l : CommentLine, l.text = [] ∧
      stripLines gutter p (ls.map (" * ".toList ++ ·) ++ [[' ']]) =
        CommentLine.column p ls ++ [l] := by
  induction ls generalizing p with
  | nil => exact ⟨.strip p [' '] 1, rfl, rfl⟩
  | cons l ls ih =>
    obtain ⟨last, hlast, hrest⟩ := ih ((p.after (" * ".toList ++ l)).step '\n')
    refine ⟨last, hlast, ?_⟩
    rw [List.map_cons, List.cons_append, stripLines, hrest, CommentLine.column, List.cons_append]
    have hgutter : gutter (" * ".toList ++ l) = 3 := rfl
    rw [hgutter, Position.after_append]
    rfl

/-- The lines of the block are those of the line comments, one line further down, between two empty
ones. -/
theorem blockLines_blockForm {ls : List (List Char)} (hls : ∀ l ∈ ls, '\n' ∉ l) :
    ∃ first last : CommentLine, first.text = [] ∧ last.text = [] ∧
      blockLines ("*\n".toList ++ marked " * ".toList ls ++ [' '])
          (Position.start.after "/*".toList) =
        first :: ((CommentLine.column .start ls).map (·.shift "/**\n".toList) ++ [last]) := by
  have hlines : Text.lines ("*\n".toList ++ marked " * ".toList ls ++ [' ']) =
      ['*'] :: (ls.map (" * ".toList ++ ·) ++ [[' ']]) := by
    have hmark : '\n' ∉ " * ".toList := by decide
    have hmarked := lines_marked hmark hls [' ']
    rw [List.append_assoc, show "*\n".toList = ['*'] ++ ['\n'] from rfl, List.append_assoc,
      List.singleton_append (x := '\n'), Text.lines_line (by decide), hmarked]
    rfl
  have hgutter : hasGutter (['*'] :: (ls.map (" * ".toList ++ ·) ++ [[' ']])) = true := by
    unfold hasGutter
    rw [List.drop_succ_cons, List.drop_zero, List.all_append, List.all_map, Bool.and_eq_true,
      List.all_eq_true]
    exact ⟨fun l _ ↦ rfl, by decide⟩
  have hbelow : ((Position.start.after "/*".toList).after ['*']).step '\n' =
      Position.start.shift "/**\n".toList := rfl
  obtain ⟨last, hlast, hstrip⟩ := stripLines_gutter (Position.start.shift "/**\n".toList) ls
  refine ⟨.strip (Position.start.after "/*".toList) ['*'] 1, last, rfl, hlast, ?_⟩
  unfold blockLines
  rw [hlines]
  simp only [hgutter, if_true, hbelow]
  rw [hstrip, CommentLine.column_shift]
  rfl

/-- The tags of the two forms are the same but for where they end. -/
theorem tags_blockForm (registry : Registry) (ls : List (List Char)) (span span' : Span)
    {first last : CommentLine} (hfirst : first.text = []) (hlast : last.text = []) :
    List.Forall₂ (ParsedTag.Matches "/**\n".toList)
      (Comment.tags registry ⟨CommentLine.column .start ls, span⟩)
      (Comment.tags registry
        ⟨first :: ((CommentLine.column .start ls).map (·.shift "/**\n".toList) ++ [last]),
          span'⟩) := by
  have hempty : first.startsTag = false := by
    unfold CommentLine.startsTag CommentLine.tagName?
    rw [hfirst]
    rfl
  have hskip : TagLines.ofLines 0
        (first :: ((CommentLine.column .start ls).map (·.shift "/**\n".toList) ++ [last])) =
      TagLines.ofLines 1
        ((CommentLine.column .start ls).map (·.shift "/**\n".toList) ++ [last]) := by
    simp [TagLines.ofLines, hempty]
  unfold Comment.tags
  rw [hskip]
  exact ParsedTag.Matches.tagsAfter registry [] (TagLines.trails_ofLines 0 1 _ hlast)

end Comment

/-! ## The findings of a text that is a comment -/

namespace Findings

/-- What is reported of a tag that is not attached. -/
def unattached (why : String) (t : Tag) : Diagnostic where
  kind := .unresolvedTag
  span := t.span
  message := s!"@{t.name} not attached: {why}"

/-- The tags of a comment that belong in a place. -/
def placed (placement : Placement) (parsed : List ParsedTag) : List Tag :=
  (parsed.map (·.tag)).filter (·.placement = placement)

/-- The findings of a text that is nothing but a comment. -/
def ofComment (parsed : List ParsedTag) (span : Span) (stop : Position) : Findings where
  outline :=
    { root :=
        { tags := (placed .enclosingAnchor parsed).map Tag.resolve
          children :=
            if placed .freeFloating parsed = [] then []
            else [{ tags := (placed .freeFloating parsed).map Tag.resolve, span }]
          span := ⟨.start, stop⟩ }
      unresolved := sortTags (placed .nextAnchor parsed) }
  diagnostics :=
    sortDiagnostics (sortDiagnostics
      ((placed .nextAnchor parsed).map (unattached "no anchor before end of input")) ++
        parsed.flatMap (·.diagnostics))

variable {parsed parsed' : List ParsedTag}

theorem forall₂_placed (h : List.Forall₂ (ParsedTag.Matches before) parsed parsed')
    (placement : Placement) :
    List.Forall₂ (Tag.Matches before) (placed placement parsed) (placed placement parsed') := by
  refine List.rel_filter (fun t u htu ↦ ?_) ?_
  · have hplacement : u.placement = t.placement := (congrArg Tag.placement htu.content :)
    simp [hplacement]
  · rw [List.forall₂_map_left_iff, List.forall₂_map_right_iff]
    exact h.imp fun _ _ hmatch ↦ hmatch.tag

/-- What corresponding items have in common is the same list. -/
theorem map_eq_of_forall₂ {α β : Type} {R : α → α → Prop} {f : α → β}
    (hf : ∀ a b, R a b → f b = f a) {l l' : List α} (h : List.Forall₂ R l l') :
    l'.map f = l.map f := by
  refine List.forall₂_eq_eq_eq ▸ ?_
  rw [List.forall₂_map_left_iff, List.forall₂_map_right_iff]
  exact h.flip.imp fun b a hab ↦ hf a b hab

theorem forget_placed (h : List.Forall₂ (ParsedTag.Matches before) parsed parsed')
    (placement : Placement) :
    ((placed placement parsed').map Tag.resolve).map (·.relocate .forget) =
      ((placed placement parsed).map Tag.resolve).map (·.relocate .forget) := by
  rw [List.map_map, List.map_map]
  exact map_eq_of_forall₂ (R := Tag.Matches before)
    (fun t u hmatch ↦ congrArg Tag.resolve hmatch.content) (forall₂_placed h placement)

theorem forget_unresolved (h : List.Forall₂ (ParsedTag.Matches before) parsed parsed') :
    (sortTags (placed .nextAnchor parsed')).map (·.relocate .forget) =
      (sortTags (placed .nextAnchor parsed)).map (·.relocate .forget) := by
  have hmove : StrictMono (· + Text.byteSize before) := fun m n h ↦ Nat.add_lt_add_right h _
  refine map_eq_of_forall₂ (R := Tag.Matches before) (fun t u hmatch ↦ hmatch.content)
    (forall₂_sortBy hmove ?_ (forall₂_placed h _))
  exact fun t u hmatch ↦ congrArg Position.offset hmatch.start

/-- Corresponding tags have the same reports in the same order. -/
theorem forget_diagnostics (h : List.Forall₂ (ParsedTag.Matches before) parsed parsed')
    (span span' : Span) (stop stop' : Position) :
    (ofComment parsed' span' stop').diagnostics.map (·.relocate .forget) =
      (ofComment parsed span stop).diagnostics.map (·.relocate .forget) := by
  have hmove : StrictMono (· + Text.byteSize before) := fun m n h ↦ Nat.add_lt_add_right h _
  have hstart : ∀ d e : Diagnostic, d.Matches before e →
      e.span.start.offset = d.span.start.offset + Text.byteSize before :=
    fun _ _ hmatch ↦ congrArg Position.offset hmatch.start
  refine map_eq_of_forall₂ (R := Diagnostic.Matches before) (fun d e hmatch ↦ hmatch.content)
    (forall₂_sortBy hmove hstart (List.rel_append (forall₂_sortBy hmove hstart ?_) ?_))
  · rw [List.forall₂_map_left_iff, List.forall₂_map_right_iff]
    refine (forall₂_placed h .nextAnchor).imp fun t u hmatch ↦ ⟨?_, hmatch.start⟩
    have hname : u.name = t.name := (congrArg Tag.name hmatch.content :)
    unfold unattached
    rw [hname]
    rfl
  · exact List.rel_flatMap h fun _ _ hmatch ↦ hmatch.diagnostics

/-- Corresponding tags leave the same findings, up to where they stand. -/
theorem forget_ofComment (h : List.Forall₂ (ParsedTag.Matches before) parsed parsed')
    (span span' : Span) (stop stop' : Position) :
    (ofComment parsed' span' stop').relocate .forget =
      (ofComment parsed span stop).relocate .forget := by
  have hfree : placed .freeFloating parsed' = [] ↔ placed .freeFloating parsed = [] := by
    rw [← List.length_eq_zero_iff, ← List.length_eq_zero_iff, (forall₂_placed h _).length_eq]
  have hchildren :
      ((ofComment parsed' span' stop').outline.root.children).map (·.relocate .forget) =
      ((ofComment parsed span stop).outline.root.children).map (·.relocate .forget) := by
    unfold ofComment
    simp only [hfree]
    split
    · rfl
    · simp only [List.map_singleton, Node.relocate_eq, forget_placed h]
      rfl
  unfold relocate Outline.relocate
  rw [forget_diagnostics h span span' stop stop', Node.relocate_eq, Node.relocate_eq, hchildren]
  unfold ofComment
  rw [forget_unresolved h, forget_placed h]
  rfl

end Findings

namespace Assembly

/-- A comment on its own leaves its tags where they belong, and those for the next anchor wait. -/
theorem comment_start (source : List Char) (maxBlankLines : Nat) (parsed : List ParsedTag)
    (span : Span) :
    (start source maxBlankLines).comment (parsed.map (·.tag)) span 0 =
      { start source maxBlankLines with
        root :=
          { tags := (Findings.placed .enclosingAnchor parsed).map Tag.resolve
            children :=
              if Findings.placed .freeFloating parsed = [] then []
              else [{ tags := (Findings.placed .freeFloating parsed).map Tag.resolve, span }] }
        waiting :=
          if Findings.placed .nextAnchor parsed = [] then []
          else [⟨Findings.placed .nextAnchor parsed, span, 0⟩] } := by
  have hplaced : ∀ placement, (parsed.map (·.tag)).filter (·.placement = placement) =
      Findings.placed placement parsed := fun _ ↦ rfl
  unfold comment awaitAnchor placeFree attachEnclosing
  simp only [hplaced, List.isEmpty_map, List.isEmpty_iff]
  generalize Findings.placed .enclosingAnchor parsed = own
  generalize Findings.placed .nextAnchor parsed = next
  generalize Findings.placed .freeFloating parsed = free
  by_cases hnext : next = [] <;> by_cases hfree : free = [] <;>
    simp [hnext, hfree, mapTop, start, waitingAt?, Node.insert, Node.place]

theorem finish_comment_start (source : List Char) (maxBlankLines : Nat) (parsed : List ParsedTag)
    (span : Span) (stop : Position) :
    ((start source maxBlankLines).comment (parsed.map (·.tag)) span 0).finish stop =
      { outline := (Findings.ofComment parsed span stop).outline
        diagnostics :=
          sortDiagnostics ((Findings.placed .nextAnchor parsed).map
            (Findings.unattached "no anchor before end of input")) } := by
  rw [comment_start]
  unfold finish endWaiting Findings.ofComment Findings.unattached
  by_cases hnext : Findings.placed .nextAnchor parsed = [] <;>
    simp [hnext, giveUp, report, endBodies, start, Nat.repeat]

end Assembly

namespace Pass

variable {s : Setup} {source : List Char} {p : Pass} {c : Comment}

/-- A pass that has read a comment at the start of its text and has nothing but a newline ahead. -/
structure HasReadAll (s : Setup) (source : List Char) (c : Comment) (p : Pass) : Prop where
  reaches : Reaches (step s) (start s source) p
  mode : p.mode = .tags c
  ahead : p.cursor.ahead = ['\n']
  contexts : p.nesting.contexts = []
  assembly : p.assembly = .start source s.options.maxBlankLines
  diagnostics : p.diagnostics = []

theorem HasReadAll.scan_eq (h : HasReadAll s source c p) :
    s.scan source = .ofComment (c.tags s.registry) c.span (Position.start.after source) := by
  let q := p.placeTags s.registry c
  let e := (q.consume 1).afterNewline s.grammar
  have hq : q = _ := placeTags_eq p s.registry c
  have hahead : q.cursor.ahead = ['\n'] := by
    rw [hq]
    exact h.ahead
  have hplace : step s p = some q := step_tags h.mode
  have hmode : q.mode = .code := by rw [hq]
  have hnewline : step s q = some e := step_newline hmode hahead
  have he : e = _ := afterNewline_eq (q.consume 1) s.grammar
  have hend : step s e = none := by
    have hmode : e.mode = .code := by
      rw [he, hq]
      rfl
    have hnil : e.cursor.ahead = [] := by
      rw [he]
      simp [consume, hahead]
    exact step_eq_none hmode hnil
  have hrun : run s (start s source) = e := run_eq_of_reaches (atComment_start s source)
    (h.reaches.trans (.head hplace (.head hnewline (.refl e)))) hend
  have hposition : e.cursor.position = Position.start.after source := by
    rw [← hrun, position_run]
  have hcontexts : e.nesting.contexts = [] := by
    rw [he, hq]
    exact h.contexts
  have hassembly : e.assembly =
      (Assembly.start source s.options.maxBlankLines).comment
        ((c.tags s.registry).map (·.tag)) c.span 0 := by
    have hdepth : p.nesting.depth = 0 := by
      unfold Nesting.depth
      rw [h.contexts]
      rfl
    have hevents : e.assembly = p.assembly.replay (p.commentEvents s.registry c) := by
      rw [he, hq]
      rfl
    rw [hevents, h.assembly, commentEvents, hdepth]
    cases hparsed : c.tags s.registry with
    | nil => rfl
    | cons t ts => rfl
  have hdiagnostics : e.diagnostics = (c.tags s.registry).flatMap (·.diagnostics) := by
    have hnotes : e.diagnostics =
        p.diagnostics ++ (c.tags s.registry).flatMap (·.diagnostics) := by
      rw [he, hq]
      rfl
    rw [hnotes, h.diagnostics, List.nil_append]
  unfold Setup.scan findings
  rw [hrun, closeAll_eq, hcontexts]
  simp only [List.flatMap_nil, send_nil, note_nil, hassembly, hposition, hdiagnostics,
    Assembly.finish_comment_start]
  rfl

/-! ## Reading the two forms -/

variable {form : CommentForm}

/-- A comment at the very start of a text is the first thing that is read. -/
theorem reaches_comment_start {c : Char} {rest : List Char} (hsource : source = c :: rest)
    (hblank : Text.isBlank c = false)
    (hform : s.grammar.commentStart? (.ofText source) = some form) :
    Reaches (step s) (start s source)
      { start s source with lineStart := false, mode := .comment form } := by
  have hat : (start s source).atToken s.grammar = { start s source with lineStart := false } := by
    rw [atToken, if_pos (show (start s source).lineStart = true from rfl), dedent]
    split <;> rfl
  have hpeek : (start s source).cursor.peek? = some c := by
    rw [hsource]
    rfl
  refine .head (step_of_commentStart? rfl hpeek hblank hform) ?_
  rw [hat]
  exact .refl _

variable {ls : List (List Char)}

theorem exists_hasReadAll_lineForm (hgrammar : s.grammar = .javascript ∨ s.grammar = .go)
    (hne : ls ≠ []) (hls : ∀ l ∈ ls, '\n' ∉ l) :
    ∃ span p, HasReadAll s (lineForm ls) ⟨CommentLine.column .start ls, span⟩ p := by
  obtain ⟨l, ls, rfl⟩ := List.exists_cons_of_ne_nil hne
  have hform : s.grammar.commentStart? (.ofText (lineForm (l :: ls))) = some (.line 0) ∧
      s.grammar.lineComment 0 = "//".toList := by
    rcases hgrammar with hgrammar | hgrammar <;> rw [hgrammar] <;> exact ⟨rfl, rfl⟩
  obtain ⟨e, he, hlines⟩ := Cursor.lineComments_lineForm hls
  let p : Pass :=
    { start s (lineForm (l :: ls)) with lineStart := false, mode := .comment (.line 0) }
  have hp : Reaches (step s) (start s (lineForm (l :: ls))) p :=
    reaches_comment_start rfl (by decide) hform.1
  obtain ⟨q, hstep, hmode, hcursor, hnesting, hassembly, hdiagnostics⟩ :=
    exists_step_comment (p := p) (i := 0) rfl (hform.2 ▸ hlines)
  exact ⟨_, q, hp.trans (.head hstep (.refl q)), hmode, hcursor ▸ he,
    congrArg Nesting.contexts hnesting, hassembly, hdiagnostics⟩

theorem exists_hasReadAll_blockForm (hgrammar : s.grammar = .javascript ∨ s.grammar = .go)
    (hls : ∀ l ∈ ls, '\n' ∉ l ∧ ¬"*/".toList <:+: l) :
    ∃ span p, ∃ first last : CommentLine, first.text = [] ∧ last.text = [] ∧
      HasReadAll s (blockForm ls)
        ⟨first :: ((CommentLine.column .start ls).map (·.shift "/**\n".toList) ++ [last]),
          span⟩ p := by
  have hform : s.grammar.commentStart? (.ofText (blockForm ls)) = some (.block 0) ∧
      s.grammar.blockComment 0 = ("/*".toList, "*/".toList) := by
    rcases hgrammar with hgrammar | hgrammar <;> rw [hgrammar] <;> exact ⟨rfl, rfl⟩
  let p : Pass := { start s (blockForm ls) with lineStart := false, mode := .comment (.block 0) }
  have hp : Reaches (step s) (start s (blockForm ls)) p :=
    reaches_comment_start rfl (by decide) hform.1
  obtain ⟨first, last, hfirst, hlast, hlines⟩ :=
    Comment.blockLines_blockForm fun l hl ↦ (hls l hl).1
  have hfound : p.blockFound "/*".toList "*/".toList =
      ("*\n".toList ++ marked " * ".toList ls ++ [' '], true) :=
    Comment.blockContent_blockForm fun l hl ↦ (hls l hl).2
  have hread := blockComment_eq p "/*".toList "*/".toList
  have hnotes : p.blockNotes "/*".toList "*/".toList = [] := by
    unfold blockNotes
    rw [hfound]
    rfl
  have hahead : (p.consume (p.blockLength "/*".toList "*/".toList)).cursor.ahead = ['\n'] := by
    have htext : blockForm ls = ("/*".toList ++ ("*\n".toList ++ marked " * ".toList ls ++ [' ']) ++
        "*/".toList) ++ ['\n'] := by
      simp [blockForm]
    have hlength : p.blockLength "/*".toList "*/".toList = ("/*".toList ++
        ("*\n".toList ++ marked " * ".toList ls ++ [' ']) ++ "*/".toList).length := by
      unfold blockLength
      rw [hfound]
      simp
      omega
    change (blockForm ls).drop _ = _
    rw [hlength, htext]
    exact List.drop_left
  refine ⟨p.blockSpan "/*".toList "*/".toList, p.blockComment "/*".toList "*/".toList, first, last,
    hfirst, hlast, hp.trans (.head ?_ (.refl _)), ?_, ?_, ?_, ?_, ?_⟩
  · have hstep : step s p = some (p.readComment s.grammar (.block 0)) := rfl
    rw [hstep, readComment, hform.2]
  · rw [hread, hfound]
    dsimp only
    rw [show (p.cursor.consume "/*".toList.length).position =
        Position.start.after "/*".toList from rfl,
      hlines]
  · rw [hread]
    exact hahead
  · rw [hread]
    rfl
  · rw [hread]
    rfl
  · rw [hread, hnotes]
    rfl

end Pass

/-- Nothing is found where there is nothing. -/
theorem scan_nil (s : Setup) : s.scan [] = .ofComment [] (.point .start) .start := by
  have hrun : Pass.run s (Pass.start s []) = Pass.start s [] := iterate_of_none rfl _
  have hclose : (Pass.start s []).closeAll s.grammar = Pass.start s [] := rfl
  have hfinish : (Pass.start s []).assembly.finish .start =
      { outline := (Findings.ofComment [] (.point .start) .start).outline
        diagnostics := sortDiagnostics [] } :=
    Assembly.finish_comment_start [] s.options.maxBlankLines [] (.point .start) .start
  unfold Setup.scan Pass.findings
  rw [hrun, hclose]
  dsimp only
  rw [show (Pass.start s []).cursor.position = .start from rfl, hfinish]
  rfl

/-- Line comments one below the other and a block comment with the same lines, in a text of its own,
have the same tags in the same places and the same diagnostics in the same order; only where they
stand differs. -/
theorem scan_blockForm (s : Setup) (hgrammar : s.grammar = .javascript ∨ s.grammar = .go)
    (ls : List (List Char)) (hls : ∀ l ∈ ls, '\n' ∉ l ∧ ¬"*/".toList <:+: l) :
    (s.scan (lineForm ls)).relocate .forget = (s.scan (blockForm ls)).relocate .forget := by
  obtain ⟨span', q, first, last, hfirst, hlast, hblock⟩ :=
    Pass.exists_hasReadAll_blockForm (s := s) hgrammar hls
  have htags := Comment.tags_blockForm s.registry ls (.point .start) span' hfirst hlast
  rw [hblock.scan_eq]
  cases ls with
  | nil =>
    rw [show lineForm [] = [] from rfl, scan_nil]
    exact (Findings.forget_ofComment htags (.point .start) span' .start _).symm
  | cons l ls =>
    obtain ⟨span, p, hline⟩ := Pass.exists_hasReadAll_lineForm (s := s) hgrammar
      (List.cons_ne_nil l ls) fun m hm ↦ (hls m hm).1
    rw [hline.scan_eq]
    exact (Findings.forget_ofComment htags span span' _ _).symm

/-- A tag with a body in two lines, in either form. -/
theorem scan_blockForm_two_lines :
    let s : Setup := ⟨.go, .standard, {}⟩
    let ls := ["@module m".toList, "of * things /".toList]
    (s.scan (lineForm ls)).relocate .forget = (s.scan (blockForm ls)).relocate .forget :=
  scan_blockForm ⟨.go, .standard, {}⟩ (.inr rfl) ["@module m".toList, "of * things /".toList]
    (by decide)

end Marginalia
