import Marginalia.Proofs.Loops
import Marginalia.Proofs.SoundCourse
import Marginalia.Proofs.Stride
import Marginalia.Proofs.Turns

/-!
# Reading within bounds

A scan cuts its text at byte offsets, takes counts of characters off texts, and looks entries up by
their index. Every cut is at the end of a character and every index is in range: what a query has
found stands in the text that it was given, and what is counted is there to be counted.
-/

namespace Marginalia

/-! ## Cursors -/

/-- What a cursor may be asked for are slices of the text at byte offsets. -/
structure Cursor.InBounds (source : List Char) (c : Cursor) : Prop where
  behind : Text.slice? source 0 c.position.offset = some c.behind.reverse
  ahead : ∀ t, t <+: c.ahead →
    Text.slice? source c.position.offset (c.position.offset + Text.byteSize t) = some t
  size : c.position.offset + Text.byteSize c.ahead = Text.byteSize source
  /-- The cursor's line starts behind it. -/
  line : Text.byteSize c.lineBehind ≤ c.position.offset ∧
    Text.slice? source (c.position.offset - Text.byteSize c.lineBehind)
      c.position.offset = some c.lineBehind

theorem Cursor.In.inBounds {source : List Char} {c : Cursor} (h : c.In source) :
    c.InBounds source := by
  have hoffset := h.offset_eq
  have hsource : c.behind.reverse ++ c.ahead = source := h.1
  refine ⟨?_, ?_, ?_, ?_⟩
  · rw [hoffset, ← hsource, ← Nat.zero_add (Text.byteSize c.behind.reverse)]
    exact Text.slice?_append [] c.behind.reverse c.ahead
  · rintro t ⟨rest, hrest⟩
    rw [hoffset, ← hsource, ← hrest]
    exact Text.slice?_append c.behind.reverse t rest
  · rw [hoffset, ← hsource, Text.byteSize_append]
  · have hbehind : (c.behind.dropWhile (· ≠ '\n')).reverse ++ c.lineBehind = c.behind.reverse := by
      rw [lineBehind, ← List.reverse_append, List.takeWhile_append_dropWhile]
    rw [hoffset, ← hsource, ← hbehind, Text.byteSize_append, Nat.add_sub_cancel, List.append_assoc]
    exact ⟨Nat.le_add_left _ _, Text.slice?_append _ _ _⟩

/-! ## Lookahead -/

/-- An entry that is found by its token is in the table: the one that stands in for entries past the
end has an empty token. -/
theorem Cursor.lt_length_of_startsWith {α : Type} {c : Cursor} (token : α → List Char)
    {as : List α} {default : α} (hdefault : token default = []) {i : Nat}
    (h : c.startsWith (token (as.getD i default)) = true) : i < as.length := by
  by_contra hle
  rw [List.getD_eq_getElem?_getD, List.getElem?_eq_none (Nat.le_of_not_lt hle), Option.getD_none,
    hdefault] at h
  cases h

namespace Grammar

/-- The grammar has a form of comment. -/
def HasComment (g : Grammar) : CommentForm → Prop
  | .line i => i < g.lineComments.length
  | .block i => i < g.blockComments.length

theorem hasComment_of_startsWith {g : Grammar} {c : Cursor} {form : CommentForm}
    (h : c.startsWith (g.commentOpener form) = true) : g.HasComment form := by
  cases form with
  | line i => exact Cursor.lt_length_of_startsWith id rfl h
  | block i => exact Cursor.lt_length_of_startsWith Prod.fst rfl h

/-- What lookahead finds at a cursor is in the tables of the grammar and in the text ahead. -/
structure LooksWithin (g : Grammar) (c : Cursor) : Prop where
  line : c.restOfLine <+: c.ahead
  comment : ∀ form, g.commentStart? c = some form →
    g.HasComment form ∧ g.commentOpener form <+: c.ahead
  literal : ∀ i, g.stringStart? c = some i →
    i < g.strings.length ∧ (g.delimiter i).opener <+: c.ahead
  regex : ∀ r, g.regexLiteral? c = some r → r <+: c.restOfLine
  blockClose : ∀ i, g.blockClose? c = some i → i < g.blocks.length ∧ (g.pair i).closer <+: c.ahead
  blockOpen : ∀ i, g.blockOpen? c = some i → i < g.blocks.length ∧ (g.pair i).opener <+: c.ahead
  /-- The character that may open an indentation body is cut off its line. -/
  body : ∀ opener, g.body = .indent opener → c.peek? = some opener → opener ≠ '\n' →
    [opener] <+: c.restOfLine
  statementEnd : ∀ t, g.statementEnd? c = some t → t <+: c.ahead

theorem looksWithin (g : Grammar) (c : Cursor) : g.LooksWithin c where
  line := List.takeWhile_prefix _
  comment form h := by
    have hstarts := startsWith_of_commentStart? h
    exact ⟨hasComment_of_startsWith hstarts, (Cursor.startsWith_iff.mp hstarts).2⟩
  literal i h := by
    have hstarts := startsWith_of_stringStart? h
    exact ⟨Cursor.lt_length_of_startsWith StringDelimiter.opener rfl hstarts,
      (Cursor.startsWith_iff.mp hstarts).2⟩
  regex r h := by
    unfold regexLiteral? at h
    split at h
    · obtain ⟨n, -, rfl⟩ := Option.map_eq_some_iff.mp h
      exact List.take_prefix _ _
    · cases h
  blockClose i h := by
    have hstarts := startsWith_of_blockClose? h
    exact ⟨Cursor.lt_length_of_startsWith BlockPair.closer rfl hstarts,
      (Cursor.startsWith_iff.mp hstarts).2⟩
  blockOpen i h := by
    have hstarts := startsWith_of_blockOpen? h
    exact ⟨Cursor.lt_length_of_startsWith BlockPair.opener rfl hstarts,
      (Cursor.startsWith_iff.mp hstarts).2⟩
  body opener _ h hne := by
    obtain ⟨cs, hcs⟩ := List.head?_eq_some_iff.mp h
    rw [Cursor.restOfLine, Text.firstLine, hcs, List.takeWhile_cons_of_pos (by simpa using hne)]
    exact ⟨_, rfl⟩
  statementEnd t h := (Cursor.startsWith_iff.mp (startsWith_of_statementEnd? h)).2

/-! ## Headers -/

theorem before?_append_eq {token text head : List Char} (h : before? token text = some head) :
    ∃ rest, text = head ++ (token ++ rest) := by
  induction text generalizing head with
  | nil =>
    rw [before?] at h
    split at h
    · rename_i hempty
      cases h
      exact ⟨[], by simpa using hempty⟩
    · cases h
  | cons c cs ih =>
    rw [before?] at h
    split at h
    · rename_i hprefix
      cases h
      obtain ⟨rest, hrest⟩ := List.isPrefixOf_iff_prefix.mp hprefix
      exact ⟨rest, hrest.symm⟩
    · obtain ⟨front, hfront, rfl⟩ := Option.map_eq_some_iff.mp h
      obtain ⟨rest, rfl⟩ := ih hfront
      exact ⟨rest, rfl⟩

/-- What is read of a header falls into pieces of the text that follow on each other. -/
structure ReadsWithin (g : Grammar) (text : List Char) : Prop where
  modifiers : g.skipModifiers text <:+ text
  keyword : ∀ keyword rest, g.keyword? text keyword = some rest → keyword ++ rest = text
  ident : ∀ i, g.ident? text = some i → i <+: text
  receiver : ∀ depth rest, closeParens? depth text = some rest → rest <:+ text
  path : ∀ name qualified rest,
    g.dottedPath? text.length false text = some (name, qualified, rest) →
    ∃ front, text = front ++ (name ++ rest)
  operator : ∀ rule rest, operator? rule text = some rest →
    ∃ op ∈ rule.operators, op ++ rest = text
  arrow : ∀ token head, before? token text = some head → ∃ rest, text = head ++ (token ++ rest)
  anchor : ∀ enclosing r, g.recognise? text enclosing = some r → r.Reads text

theorem readsWithin (g : Grammar) (text : List Char) : g.ReadsWithin text where
  modifiers := g.skipModifiers_suffix text
  keyword _ _ h := keyword?_append_eq h
  ident _ h := (ident?_spec h).1
  receiver _ _ h := closeParens?_suffix h
  path _ _ _ h := dottedPath?_append_eq h
  operator _ _ h := operator?_append_eq h
  arrow _ _ h := before?_append_eq h
  anchor _ _ h := reads_recognise? h

end Grammar

/-! ## Counts -/

theorem Grammar.regexTail?_le {inClass escaped : Bool} {text : List Char} {n : Nat}
    (h : regexTail? inClass escaped text = some n) : n ≤ text.length := by
  fun_induction regexTail? inClass escaped text generalizing n with
  | case1 => cases h
  | case2 inClass c cs ih =>
    obtain ⟨m, hm, rfl⟩ := Option.map_eq_some_iff.mp h
    exact Nat.succ_le_succ (ih hm)
  | case3 inClass c cs hslash =>
    cases h
    have hle := (List.takeWhile_prefix Char.isAlpha (l := cs)).length_le
    rw [List.length_cons]
    omega
  | case4 inClass c cs hslash ih =>
    obtain ⟨m, hm, rfl⟩ := Option.map_eq_some_iff.mp h
    exact Nat.succ_le_succ (ih hm)

theorem blockContent_closer_prefix (closer text : List Char) :
    (blockContent closer text).1 ++ (if (blockContent closer text).2 then closer else []) <+: text := by
  have hspec := blockContent_spec closer text
  obtain ⟨rest, -, htext, -⟩ := runsTo_blockContent closer text
  split
  · rename_i hclosed
    rw [if_pos hclosed] at hspec
    have hrest : text.drop (blockContent closer text).1.length = rest := by
      nth_rewrite 2 [← htext]
      exact List.drop_left
    nth_rewrite 2 [← htext]
    exact (List.prefix_append_right_inj _).mpr (hrest ▸ hspec.2)
  · rw [List.append_nil]
    exact blockContent_prefix closer text

namespace Comment

theorem decoration_le (marks : Char → Bool) (line : List Char) :
    decoration marks line ≤ line.length := by
  have hle := (List.takeWhile_prefix marks (l := line)).length_le
  unfold decoration
  dsimp only
  split
  · rename_i hspace
    have hne : line.drop (line.takeWhile marks).length ≠ [] := by
      intro hnil
      simp [hnil] at hspace
    have hlt := List.length_pos_iff.mpr hne
    rw [List.length_drop] at hlt
    omega
  · exact hle

theorem gutter_le (line : List Char) : gutter line ≤ line.length := by
  have hle : (Text.indentation line).length ≤ line.length := (List.takeWhile_prefix _).length_le
  unfold gutter
  dsimp only
  split
  · rename_i rest hrest
    have hlen := congrArg List.length hrest
    simp only [List.length_drop, List.length_cons] at hlen
    omega
  · rename_i rest _ hrest
    have hlen := congrArg List.length hrest
    simp only [List.length_drop, List.length_cons] at hlen
    omega
  · exact hle

end Comment

namespace Arguments

/-- The parts of an argument list, with the commas between them and the parenthesis after them, make
up what is read of it. -/
theorem split?_append_eq {s : Splitter} {inner rest : List Char} {parts : List (List Char)}
    (h : split? s inner = some (parts, rest)) :
    parts ≠ [] ∧ inner = [','].intercalate parts ++ ')' :: rest := by
  induction inner generalizing s parts rest with
  | nil => cases h
  | cons c cs ih =>
    rw [split?] at h
    split at h
    · rename_i hclose
      cases h
      simp only [Bool.and_eq_true, decide_eq_true_eq] at hclose
      exact ⟨List.cons_ne_nil _ _, by simp [hclose.2]⟩
    split at h
    · rename_i hcomma
      obtain ⟨⟨later, rest'⟩, hlater, heq⟩ := Option.map_eq_some_iff.mp h
      cases heq
      obtain ⟨hne, rfl⟩ := ih hlater
      simp only [Bool.and_eq_true, decide_eq_true_eq] at hcomma
      exact ⟨List.cons_ne_nil _ _, by simp [List.intercalate_cons_of_ne_nil hne, hcomma.2]⟩
    · obtain ⟨⟨later, rest'⟩, hlater, heq⟩ := Option.map_eq_some_iff.mp h
      obtain ⟨hne, rfl⟩ := ih hlater
      obtain ⟨part, more, rfl⟩ := List.exists_cons_of_ne_nil hne
      cases heq
      refine ⟨List.cons_ne_nil _ _, ?_⟩
      cases more with
      | nil => simp
      | cons next more => simp [List.intercalate_cons_cons]

/-- A text is unquoted by taking the same mark off its two ends, or left as it is. -/
theorem unquote_eq (text : List Char) :
    unquote text = text ∨ ∃ q ∈ quotes, text = q :: (unquote text ++ [q]) := by
  unfold unquote
  split
  · rename_i hquoted
    obtain ⟨hlen, hany⟩ := hquoted
    obtain ⟨q, hq, hends⟩ := List.any_eq_true.mp hany
    simp only [Bool.and_eq_true, decide_eq_true_eq] at hends
    obtain ⟨inner, rfl⟩ := List.head?_eq_some_iff.mp hends.1
    have hne : inner ≠ [] := by
      rintro rfl
      simp at hlen
    have hlast : inner.getLast? = some q := by
      rw [← hends.2, List.getLast?_cons_of_ne_nil hne]
    refine .inr ⟨q, hq, ?_⟩
    rw [List.drop_one, List.tail_cons, List.dropLast_append_getLast? q hlast]
  · exact .inl rfl

end Arguments

/-- The counts of characters that are taken off a text are within it, and its parts make it up. -/
structure Text.CutsWithin (text : List Char) : Prop where
  /-- What is left of a string literal after its opener. -/
  literal : ∀ d : StringDelimiter, (d.tail text).1 ≤ text.length
  /-- What is left of a regular expression after its first slash. -/
  regex : ∀ n, Grammar.regexTail? false false text = some n → n ≤ text.length
  /-- The content of a block comment after its opener, and its closer. -/
  block : ∀ closer, (blockContent closer text).1 ++
    (if (blockContent closer text).2 then closer else []) <+: text
  /-- The decoration of a comment's line. -/
  decoration : ∀ marks, Comment.decoration marks text ≤ text.length
  gutter : Comment.gutter text ≤ text.length
  /-- The arguments in parentheses. -/
  parts : ∀ parts rest, Arguments.split? {} text = some (parts, rest) →
    text = [','].intercalate parts ++ ')' :: rest
  quotes : Arguments.unquote text = text ∨
    ∃ q ∈ Arguments.quotes, text = q :: (Arguments.unquote text ++ [q])

theorem Text.cutsWithin (text : List Char) : CutsWithin text where
  literal d := (d.tail_spec text).1
  regex _ h := Grammar.regexTail?_le h
  block closer := blockContent_closer_prefix closer text
  decoration marks := Comment.decoration_le marks text
  gutter := Comment.gutter_le text
  parts _ _ h := (Arguments.split?_append_eq h).2
  quotes := Arguments.unquote_eq text

/-! ## Tags -/

theorem Text.prefix_trimEnd {s t : List Char} {c : Char} (h : t <+: s) (hlast : t.getLast? = some c)
    (hc : isBlank c = false) : t <+: trimEnd s := by
  obtain ⟨rest, rfl⟩ := h
  obtain ⟨front, rfl⟩ := List.getLast?_eq_some_iff.mp hlast
  rw [trimEnd, List.reverse_append, List.dropWhile_append]
  split
  · simp [hc]
  · simp

theorem isBlank_of_isTagNamePart {c : Char} (h : isTagNamePart c = true) :
    Text.isBlank c = false := by
  have hnames : ∀ n < 123, 48 ≤ n → Text.blanks.contains n = false := by decide
  have hbetween : ∀ {lo hi : UInt32}, c.val ≥ lo ∧ c.val ≤ hi → 48 ≤ lo.toNat → hi.toNat < 123 →
      48 ≤ c.toNat ∧ c.toNat < 123 := fun hc hlo hhi ↦
    ⟨Nat.le_trans hlo (UInt32.le_iff_toNat_le.mp hc.1),
      Nat.lt_of_le_of_lt (UInt32.le_iff_toNat_le.mp hc.2) hhi⟩
  have hand : ∀ {lo hi : UInt32}, (decide (c.val ≥ lo) && decide (c.val ≤ hi)) = true →
      c.val ≥ lo ∧ c.val ≤ hi := fun hc ↦
    (Bool.and_eq_true_iff.mp hc).imp of_decide_eq_true of_decide_eq_true
  have hrange : 48 ≤ c.toNat ∧ c.toNat < 123 := by
    rcases Bool.or_eq_true_iff.mp h with halnum | hunderscore
    · rcases Bool.or_eq_true_iff.mp halnum with halpha | hdigit
      · rcases Bool.or_eq_true_iff.mp halpha with hupper | hlower
        · exact hbetween (of_decide_eq_true hupper) (by decide) (by decide)
        · exact hbetween (hand hlower) (by decide) (by decide)
      · exact hbetween (hand hdigit) (by decide) (by decide)
    · rw [of_decide_eq_true hunderscore]
      decide
  exact hnames _ hrange.2 hrange.1

/-- The lines of a tag are in its comment, and what is read of its header is in the first of them. -/
structure TagLines.ReadsWithin (comment : List CommentLine) (t : TagLines) : Prop where
  lines : ∃ front rest, comment = front ++ t.first :: (t.continuation ++ rest) ∧
    t.next = front.length + 1 + t.continuation.length
  last : comment[t.next - 1]? = some t.last
  header : Text.indentation t.first.text ++ t.header <+: t.first.text
  name : ∃ name, t.first.tagName? = some name ∧ '@' :: name <+: t.header

theorem CommentLine.tagName?_spec {l : CommentLine} {name : List Char} (h : l.tagName? = some name) :
    name ≠ [] ∧ ∀ c ∈ name, isTagNamePart c = true := by
  unfold tagName? at h
  split at h
  · rename_i c cs _
    split at h
    · rename_i hstart
      cases h
      refine ⟨List.cons_ne_nil _ _, List.forall_mem_cons.mpr ⟨?_, ?_⟩⟩
      · revert hstart
        simp only [isTagNameStart, isTagNamePart, Char.isAlphanum, Bool.or_eq_true]
        exact fun h ↦ h.imp_left .inl
      · exact fun c hc ↦ List.mem_takeWhile_imp hc
    · cases h
  · cases h

theorem TagLines.readsWithin {comment : List CommentLine} {t : TagLines}
    (h : t ∈ ofLines 0 comment) : t.ReadsWithin comment := by
  obtain ⟨hs, front, rest, rfl, hnext⟩ := lines_of_mem_ofLines h
  rw [Nat.zero_add] at hnext
  obtain ⟨name, hname⟩ := Option.isSome_iff_exists.mp hs
  refine ⟨⟨front, rest, rfl, hnext⟩, ?_, t.header_prefix, name, hname, ?_⟩
  · have hlast : (t.first :: t.continuation)[t.continuation.length]? = some t.last := by
      rw [last, ← List.getLast?_cons, List.getLast?_eq_getElem?, List.length_cons,
        Nat.add_sub_cancel]
    rw [hnext, ← List.cons_append, List.getElem?_append_right (by omega),
      List.getElem?_append_left (by rw [List.length_cons]; omega)]
    rwa [show front.length + 1 + t.continuation.length - 1 - front.length =
      t.continuation.length by omega]
  · obtain ⟨after, htrim⟩ := CommentLine.trimStart_of_tagName? hname
    obtain ⟨hne, hpart⟩ := CommentLine.tagName?_spec hname
    -- The last character of the name is not blank, so trimming the header leaves the name.
    refine Text.prefix_trimEnd (c := name.getLast hne) ?_ ?_
      (isBlank_of_isTagNamePart (hpart _ (List.getLast_mem hne)))
    · rw [htrim, ← List.cons_append]
      exact List.prefix_append _ _
    · rw [List.getLast?_cons, List.getLast?_eq_getLast_of_ne_nil hne]
      rfl

/-! ## Passes -/

theorem CommentLine.In.slice_eq {source : List Char} {l : CommentLine} (h : l.In source) :
    Text.slice? source l.start.offset (l.start.offset + Text.byteSize l.text) = some l.text := by
  obtain ⟨pre, ⟨post, rfl⟩, hstart⟩ := h
  have hoffset : l.start.offset = Text.byteSize pre := by
    rw [hstart, Position.after_offset]
    exact Nat.zero_add _
  rw [hoffset, List.append_assoc]
  exact Text.slice?_append pre l.text post

theorem Assembly.lt_length_of_canEnterBody {a : Assembly} (h : a.canEnterBody = true) {place : Nat}
    (hlast : a.lastAnchor = some place) : place < a.top.children.length := by
  by_contra hle
  rw [canEnterBody, hlast, Option.bind_some, List.getElem?_eq_none (Nat.le_of_not_lt hle)] at h
  cases h

namespace Pass

variable {s : Setup} {source : List Char} {p q : Pass}

/-- What a step from a pass cuts out of the text and what it looks up by an index is there. -/
structure InBounds (s : Setup) (source : List Char) (p : Pass) : Prop where
  /-- The cursor, wherever the step moves it. -/
  cursor : ∀ k, (p.cursor.consume k).InBounds source
  /-- The brackets that are open. -/
  pairs : ∀ i opened, .block i opened ∈ p.nesting.contexts → i < s.grammar.blocks.length
  /-- The comment that is about to be read. -/
  comment : ∀ form, p.mode = .comment form →
    s.grammar.HasComment form ∧ s.grammar.commentOpener form <+: p.cursor.ahead
  /-- The lines of the comment that has been read. -/
  lines : ∀ c, p.mode = .tags c → ∀ l ∈ c.lines,
    Text.slice? source l.start.offset (l.start.offset + Text.byteSize l.text) = some l.text
  /-- The place of a node that is added to the outline. -/
  place : ∀ n, p.assembly.top.place n ≤ p.assembly.top.children.length
  /-- The place of an anchor whose body opens. -/
  latest : p.assembly.canEnterBody = true → ∀ place, p.assembly.lastAnchor = some place →
    place < p.assembly.top.children.length

theorem inBounds_of_reaches (h : Reaches (step s) (start s source) p) : p.InBounds s source where
  cursor k := ((reaches_moves h).2.cursor.consume k).inBounds
  pairs := (proper_of_reaches h).pairs
  comment form hmode :=
    (s.grammar.looksWithin p.cursor).comment form (atComment_of_reaches h form hmode)
  lines c hmode l hl := (((reaches_turns h).2.comment c hmode).2 l hl).slice_eq
  place n := Node.place_le _ n
  latest hcan _ hlast := Assembly.lt_length_of_canEnterBody hcan hlast

/-! ## Progress -/

/-- A cursor with less text ahead is further on. -/
theorem offset_lt_of_length_lt (hp : p.cursor.In source) (hq : q.cursor.In source)
    (h : q.cursor.ahead.length < p.cursor.ahead.length) :
    p.cursor.position.offset < q.cursor.position.offset := by
  have hsuffix : q.cursor.ahead <:+ p.cursor.ahead :=
    List.suffix_of_suffix_length_le ⟨_, hq.1⟩ ⟨_, hp.1⟩ (Nat.le_of_lt h)
  obtain ⟨consumed, hconsumed⟩ := hsuffix
  have hsizep := hp.inBounds.size
  have hsizeq := hq.inBounds.size
  have hlength := Text.length_le_byteSize consumed
  rw [← hconsumed, List.length_append] at h
  rw [← hconsumed, Text.byteSize_append] at hsizep
  omega

/-- Every step spends some of the budget, and four of it are only left with text to consume. -/
theorem offset_lt_of_four_steps (h : Reaches (step s) (start s source) p) {p₁ p₂ p₃ : Pass}
    (h₁ : step s p = some p₁) (h₂ : step s p₁ = some p₂) (h₃ : step s p₂ = some p₃)
    (h₄ : step s p₃ = some q) : p.cursor.position.offset < q.cursor.position.offset := by
  obtain ⟨hlt₁, hat₁⟩ := step_progress (atComment_of_reaches h) h₁
  obtain ⟨hlt₂, hat₂⟩ := step_progress hat₁ h₂
  obtain ⟨hlt₃, hat₃⟩ := step_progress hat₂ h₃
  have hlt₄ := (step_progress hat₃ h₄).1
  have hreach : Reaches (step s) (start s source) q :=
    h.trans (.head h₁ (.head h₂ (.head h₃ (.head h₄ (.refl q)))))
  refine offset_lt_of_length_lt (reaches_moves h).2.cursor (reaches_moves hreach).2.cursor ?_
  have hspent : q.budget + 4 ≤ p.budget := by omega
  have hle := p.patience_le
  unfold budget at hspent
  omega

/-- At a newline, neither code nor skipping looks for the opener of an indentation body. -/
theorem newline_eq (s : Setup) (h : p.cursor.peek? = some '\n') :
    p.code s.grammar = (p.consume 1).afterNewline s.grammar ∧ skipStep s p = none := by
  unfold code skipStep skipEnds
  rw [h]
  simp

end Pass

/-! ## Scans -/

/-- A scan of a text makes progress, leaves all of its loops, stays in bounds, and gets to the end.
Cuts between `takeWhile` and `dropWhile` are in bounds by definition; all others are listed. -/
structure Setup.Total (s : Setup) (source : List Char) : Prop where
  /-- Of any four steps in a row, one consumes text. -/
  progress : ∀ p p₁ p₂ p₃ p₄, Reaches (Pass.step s) (Pass.start s source) p →
    Pass.step s p = some p₁ → Pass.step s p₁ = some p₂ → Pass.step s p₂ = some p₃ →
    Pass.step s p₃ = some p₄ → p.cursor.position.offset < p₄.cursor.position.offset
  loops : s.LoopsEnd
  passes : ∀ p, Reaches (Pass.step s) (Pass.start s source) p → p.InBounds s source
  lookahead : ∀ c, s.grammar.LooksWithin c
  /-- The opener of an indentation body is not looked for at a newline. -/
  newline : ∀ p : Pass, p.cursor.peek? = some '\n' →
    p.code s.grammar = (p.consume 1).afterNewline s.grammar ∧ Pass.skipStep s p = none
  headers : ∀ text, s.grammar.ReadsWithin text
  cuts : ∀ text, Text.CutsWithin text
  tags : ∀ comment, ∀ t ∈ TagLines.ofLines 0 comment, t.ReadsWithin comment
  /-- The scan stops where its text does. -/
  ends : Pass.step s ((Pass.start s source).run s) = none ∧
    ((Pass.start s source).run s).cursor.position.offset = Text.byteSize source

/-- Every scan makes progress, reads within bounds and gets to the end of its text. -/
theorem scan_total (s : Setup) (source : List Char) : s.Total source where
  progress _ _ _ _ _ h h₁ h₂ h₃ h₄ := Pass.offset_lt_of_four_steps h h₁ h₂ h₃ h₄
  loops := s.loopsEnd
  passes _ h := Pass.inBounds_of_reaches h
  lookahead := s.grammar.looksWithin
  newline _ h := Pass.newline_eq s h
  headers := s.grammar.readsWithin
  cuts := Text.cutsWithin
  tags _ _ h := TagLines.readsWithin h
  ends := by
    refine ⟨Pass.step_run (Pass.atComment_start s source), ?_⟩
    rw [Pass.position_run, Position.after_offset]
    exact Nat.zero_add _

end Marginalia
