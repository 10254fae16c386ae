import Marginalia.Language.Builtin
import Marginalia.Language.Lookahead
import Mathlib.Data.List.Basic
import Mathlib.Data.List.Find
import Mathlib.Data.List.TakeWhile

/-!
# Lookahead is local to a line

Text that is added after the end of a line changes nothing of what lookahead finds before it, since
no token holds a newline. What lookahead finds at a cursor depends on little of it; two cursors that
agree on that see the same.
-/

namespace Marginalia

namespace Text

variable {s t more : List Char} {p : Char → Bool} {d : Char}

/-- A text that ends with a character. -/
def EndsWith (d : Char) (s : List Char) : Prop := s.getLast? = some d

theorem EndsWith.mem (h : EndsWith d s) : d ∈ s := List.mem_of_getLast? h

theorem EndsWith.ne_nil (h : EndsWith d s) : s ≠ [] := List.ne_nil_of_mem h.mem

theorem EndsWith.of_suffix (h : EndsWith d s) (hsuffix : t <:+ s) (ht : t ≠ []) : EndsWith d t := by
  obtain ⟨pre, rfl⟩ := hsuffix
  rwa [EndsWith, List.getLast?_append_of_ne_nil _ ht] at h

theorem EndsWith.tail {c : Char} (h : EndsWith d (c :: s)) (hc : c ≠ d) : EndsWith d s := by
  refine h.of_suffix (List.suffix_cons c s) ?_
  rintro rfl
  simp [EndsWith, hc] at h

/-- A text cannot end with a character and start one that does not have it. -/
theorem EndsWith.prefix_append_iff (h : EndsWith d s) (ht : d ∉ t) (more : List Char) :
    t <+: s ++ more ↔ t <+: s := by
  constructor
  · intro hprefix
    rcases List.prefix_or_prefix_of_prefix hprefix (List.prefix_append s more) with hts | hst
    · exact hts
    · exact absurd (hst.subset h.mem) ht
  · exact fun hprefix ↦ hprefix.trans (List.prefix_append s more)

theorem EndsWith.isPrefixOf_append (h : EndsWith d s) (ht : d ∉ t) (more : List Char) :
    t.isPrefixOf (s ++ more) = t.isPrefixOf s := by
  rw [Bool.eq_iff_iff, List.isPrefixOf_iff_prefix, List.isPrefixOf_iff_prefix,
    h.prefix_append_iff ht]

/-- What is left of a text after a token without its last character still ends with it. -/
theorem EndsWith.of_isPrefixOf? (h : EndsWith d s) (ht : d ∉ t) {r : List Char}
    (hr : t.isPrefixOf? s = some r) : EndsWith d r := by
  rw [List.isPrefixOf?_eq_some_iff_append_eq] at hr
  refine h.of_suffix ⟨t, hr⟩ ?_
  rintro rfl
  rw [← hr, List.append_nil] at h
  exact ht h.mem

theorem EndsWith.isPrefixOf?_append (h : EndsWith d s) (ht : d ∉ t) (more : List Char) :
    t.isPrefixOf? (s ++ more) = (t.isPrefixOf? s).map (· ++ more) := by
  cases hr : t.isPrefixOf? s with
  | some r =>
    rw [List.isPrefixOf?_eq_some_iff_append_eq] at hr
    rw [Option.map_some, List.isPrefixOf?_eq_some_iff_append_eq, ← hr, List.append_assoc]
  | none =>
    rw [Option.map_none, Option.eq_none_iff_forall_ne_some]
    intro r hr'
    have hprefix : t <+: s ++ more := ⟨r, List.isPrefixOf?_eq_some_iff_append_eq.mp hr'⟩
    obtain ⟨rest, hrest⟩ := (h.prefix_append_iff ht more).mp hprefix
    rw [List.isPrefixOf?_eq_some_iff_append_eq.mpr hrest] at hr
    cases hr

/-- A token without a character is not affected by what comes from that character on. -/
theorem isPrefixOf_append_cons {x : Char} {t : List Char} (hx : x ∉ t) (s more : List Char) :
    t.isPrefixOf (s ++ x :: more) = t.isPrefixOf s := by
  induction s generalizing t with
  | nil =>
    cases t with
    | nil => rfl
    | cons c t =>
      have hc : c ≠ x := fun h ↦ hx (h ▸ List.mem_cons_self)
      simp [List.isPrefixOf_cons_cons, hc]
  | cons c s ih =>
    cases t with
    | nil => rfl
    | cons c' t =>
      rw [List.cons_append, List.isPrefixOf_cons_cons, List.isPrefixOf_cons_cons,
        ih fun h ↦ hx (List.mem_cons_of_mem _ h)]

/-- A text that ends with a newline. -/
def EndsLine (s : List Char) : Prop := s.getLast? = some '\n'

theorem EndsLine.endsWith (h : EndsLine s) : EndsWith '\n' s := h

theorem EndsLine.mem (h : EndsLine s) : '\n' ∈ s := h.endsWith.mem

theorem EndsLine.ne_nil (h : EndsLine s) : s ≠ [] := h.endsWith.ne_nil

theorem EndsLine.of_suffix (h : EndsLine s) (hsuffix : t <:+ s) (ht : t ≠ []) : EndsLine t :=
  h.endsWith.of_suffix hsuffix ht

theorem EndsLine.tail {c : Char} (h : EndsLine (c :: s)) (hc : c ≠ '\n') : EndsLine s :=
  h.endsWith.tail hc

theorem EndsLine.isPrefixOf_append (h : EndsLine s) (ht : '\n' ∉ t) (more : List Char) :
    t.isPrefixOf (s ++ more) = t.isPrefixOf s :=
  h.endsWith.isPrefixOf_append ht more

theorem EndsLine.of_isPrefixOf? (h : EndsLine s) (ht : '\n' ∉ t) {r : List Char}
    (hr : t.isPrefixOf? s = some r) : EndsLine r :=
  h.endsWith.of_isPrefixOf? ht hr

theorem EndsLine.isPrefixOf?_append (h : EndsLine s) (ht : '\n' ∉ t) (more : List Char) :
    t.isPrefixOf? (s ++ more) = (t.isPrefixOf? s).map (· ++ more) :=
  h.endsWith.isPrefixOf?_append ht more

/-! ## Runs of characters -/

/-- What stops a run is left after it. -/
theorem mem_dropWhile {c : Char} (hc : c ∈ s) (hp : p c = false) : c ∈ s.dropWhile p := by
  rw [← List.takeWhile_append_dropWhile (p := p) (l := s), List.mem_append] at hc
  rcases hc with hc | hc
  · have := List.mem_takeWhile_imp hc
    rw [hp] at this
    cases this
  · exact hc

/-- A run that stops inside a text does not see what is added after it. -/
theorem dropWhile_append_of_mem {c : Char} (hc : c ∈ s) (hp : p c = false) (more : List Char) :
    (s ++ more).dropWhile p = s.dropWhile p ++ more := by
  have hne : s.dropWhile p ≠ [] := List.ne_nil_of_mem (mem_dropWhile hc hp)
  rw [List.dropWhile_append, if_neg (by simpa [List.isEmpty_iff] using hne)]

theorem takeWhile_append_of_mem {c : Char} (hc : c ∈ s) (hp : p c = false) (more : List Char) :
    (s ++ more).takeWhile p = s.takeWhile p := by
  have hne : s.dropWhile p ≠ [] := List.ne_nil_of_mem (mem_dropWhile hc hp)
  have hlen := congrArg List.length (List.takeWhile_append_dropWhile (p := p) (l := s))
  have hpos := List.length_pos_iff.mpr hne
  rw [List.length_append] at hlen
  rw [List.takeWhile_append, if_neg (by omega)]

/-- A run of characters that a character stops does not see what comes after it. -/
theorem takeWhile_append_cons {p : Char → Bool} {q : Char} (hq : p q = false)
    (s more more' : List Char) :
    (s ++ q :: more').takeWhile p = (s ++ q :: more).takeWhile p := by
  have hstop : ∀ more, (s ++ q :: more).takeWhile p = (s ++ [q]).takeWhile p := by
    intro more
    rw [List.append_cons]
    exact takeWhile_append_of_mem (by simp) hq more
  exact (hstop _).trans (hstop _).symm

theorem EndsWith.dropWhile (h : EndsWith d s) (hp : p d = false) : EndsWith d (s.dropWhile p) :=
  h.of_suffix (List.dropWhile_suffix p) (List.ne_nil_of_mem (mem_dropWhile h.mem hp))

theorem EndsLine.dropWhile (h : EndsLine s) (hp : p '\n' = false) : EndsLine (s.dropWhile p) :=
  h.endsWith.dropWhile hp

theorem EndsLine.firstLine_append (h : EndsLine s) (more : List Char) :
    firstLine (s ++ more) = firstLine s :=
  takeWhile_append_of_mem h.mem (by simp) more

end Text

/-! ## Grammars -/

/-- A closing bracket. -/
def Text.isCloser (c : Char) : Bool := c = ')' || c = ']' || c = '\x7d'

namespace Grammar

/-- A grammar whose tokens lie within lines. -/
structure InLines (g : Grammar) : Prop where
  lineComments : ∀ t ∈ g.lineComments, '\n' ∉ t
  blockComments : ∀ t ∈ g.blockComments, '\n' ∉ t.1 ∧ '\n' ∉ t.2
  strings : ∀ d ∈ g.strings, '\n' ∉ d.opener ∧ '\n' ∉ d.closer ∧
    (d.escape = none ∨ d.escape = some '\\')
  blocks : ∀ b ∈ g.blocks, '\n' ∉ b.opener ∧ '\n' ∉ b.closer ∧ b.closer.any Text.isCloser = true
  statementEnds : ∀ t ∈ g.statementEnds, '\n' ∉ t
  identExtra : '\n' ∉ g.identExtra
  modifiers : ∀ m ∈ g.modifiers, '\n' ∉ m ∧ m ≠ []
  anchorRules : ∀ r ∈ g.anchorRules, '\n' ∉ r.keyword ∧ r.naming ≠ .quoted
  assignment : ∀ r ∈ g.assignment,
    (∀ t ∈ r.operators, '\n' ∉ t) ∧ ∀ v ∈ r.values, '\n' ∉ v.1

/-- A grammar with bodies in braces whose tokens lie within lines. -/
structure Lined (g : Grammar) : Prop extends g.InLines where
  body : g.indents = false

/-- What holds of all members of a list and of a default holds of the member at any place. -/
theorem getD_induction {α : Type} {P : α → Prop} {as : List α} {default : α}
    (h : ∀ a ∈ as, P a) (hdefault : P default) (i : Nat) : P (as.getD i default) := by
  rw [List.getD_eq_getElem?_getD]
  cases ha : as[i]? with
  | none => exact hdefault
  | some a => exact h a (List.mem_of_getElem? ha)

/-! ## Marks -/

/-- The tokens that a grammar looks for: what starts and ends comments, strings, blocks and
statements. -/
def marks (g : Grammar) : List (List Char) :=
  g.lineComments ++ g.blockComments.flatMap (fun t ↦ [t.1, t.2]) ++
    g.strings.flatMap (fun d ↦ [d.opener, d.closer]) ++
    g.blocks.flatMap (fun b ↦ [b.opener, b.closer]) ++ g.statementEnds

section

variable {g : Grammar}

theorem mem_marks_lineComment {t : List Char} (h : t ∈ g.lineComments) : t ∈ g.marks := by
  simp [marks, h]

theorem mem_marks_blockComment {t : List Char × List Char} (h : t ∈ g.blockComments) :
    t.1 ∈ g.marks ∧ t.2 ∈ g.marks := by
  have hmem : ∀ s ∈ [t.1, t.2], s ∈ g.marks := fun s hs ↦ by
    simp only [marks, List.mem_append, List.mem_flatMap]
    exact .inl (.inl (.inl (.inr ⟨t, h, hs⟩)))
  exact ⟨hmem _ (by simp), hmem _ (by simp)⟩

theorem mem_marks_string {d : StringDelimiter} (h : d ∈ g.strings) :
    d.opener ∈ g.marks ∧ d.closer ∈ g.marks := by
  have hmem : ∀ s ∈ [d.opener, d.closer], s ∈ g.marks := fun s hs ↦ by
    simp only [marks, List.mem_append, List.mem_flatMap]
    exact .inl (.inl (.inr ⟨d, h, hs⟩))
  exact ⟨hmem _ (by simp), hmem _ (by simp)⟩

theorem mem_marks_block {b : BlockPair} (h : b ∈ g.blocks) :
    b.opener ∈ g.marks ∧ b.closer ∈ g.marks := by
  have hmem : ∀ s ∈ [b.opener, b.closer], s ∈ g.marks := fun s hs ↦ by
    simp only [marks, List.mem_append, List.mem_flatMap]
    exact .inl (.inr ⟨b, h, hs⟩)
  exact ⟨hmem _ (by simp), hmem _ (by simp)⟩

theorem mem_marks_statementEnd {t : List Char} (h : t ∈ g.statementEnds) : t ∈ g.marks := by
  simp [marks, h]

end

namespace InLines

variable {g : Grammar}

theorem marks (hg : g.InLines) : ∀ t ∈ g.marks, '\n' ∉ t := by
  intro t ht
  simp only [Grammar.marks, List.mem_append, List.mem_flatMap, List.mem_cons, List.not_mem_nil,
    or_false] at ht
  rcases ht with (((ht | ⟨b, hb, rfl | rfl⟩) | ⟨d, hd, rfl | rfl⟩) | ⟨b, hb, rfl | rfl⟩) | ht
  · exact hg.lineComments t ht
  · exact (hg.blockComments b hb).1
  · exact (hg.blockComments b hb).2
  · exact (hg.strings d hd).1
  · exact (hg.strings d hd).2.1
  · exact (hg.blocks b hb).1
  · exact (hg.blocks b hb).2.1
  · exact hg.statementEnds t ht

theorem lineComment (hg : g.InLines) (i : Nat) : '\n' ∉ g.lineComment i :=
  getD_induction hg.lineComments (by simp) i

theorem blockComment (hg : g.InLines) (i : Nat) :
    '\n' ∉ (g.blockComment i).1 ∧ '\n' ∉ (g.blockComment i).2 :=
  getD_induction hg.blockComments (by simp) i

theorem delimiter (hg : g.InLines) (i : Nat) :
    '\n' ∉ (g.delimiter i).opener ∧ '\n' ∉ (g.delimiter i).closer ∧
      ((g.delimiter i).escape = none ∨ (g.delimiter i).escape = some '\\') :=
  getD_induction hg.strings (by decide) i

theorem pair (hg : g.InLines) (i : Nat) :
    '\n' ∉ (g.pair i).opener ∧ '\n' ∉ (g.pair i).closer := by
  refine getD_induction (P := fun b : BlockPair ↦ '\n' ∉ b.opener ∧ '\n' ∉ b.closer) ?_
    (by decide) i
  exact fun b hb ↦ ⟨(hg.blocks b hb).1, (hg.blocks b hb).2.1⟩

end InLines

theorem lined_javascript : javascript.Lined := ⟨by constructor <;> decide, rfl⟩

theorem lined_go : go.Lined := ⟨by constructor <;> decide, rfl⟩

theorem inLines_python : python.InLines := by
  constructor <;> decide

end Grammar

/-! ## Cursors -/

namespace Cursor

variable {g : Grammar} {c c' : Cursor}

/-- Cursors at which a grammar sees the same: they agree on the tokens that come next, on the rest
of the line, and on whether an operand is expected, where that matters. -/
structure Alike (g : Grammar) (c c' : Cursor) : Prop where
  startsWith : ∀ t, '\n' ∉ t → c'.startsWith t = c.startsWith t
  peek? : c'.peek? = c.peek?
  restOfLine : c'.restOfLine = c.restOfLine
  operand : g.regexLiterals = true → Grammar.operandExpected c' = Grammar.operandExpected c

theorem findIdx?_congr {α : Type} {as : List α} {p q : α → Bool} (h : ∀ a ∈ as, p a = q a) :
    as.findIdx? p = as.findIdx? q := by
  induction as with
  | nil => rfl
  | cons a as ih =>
    rw [List.findIdx?_cons, List.findIdx?_cons, h a List.mem_cons_self,
      ih fun b hb ↦ h b (List.mem_cons_of_mem _ hb)]

/-- Cursors that agree on which marks of a grammar come next. -/
def Agree (g : Grammar) (c c' : Cursor) : Prop := ∀ t ∈ g.marks, c'.startsWith t = c.startsWith t

namespace Agree

theorem commentStart? (h : Agree g c c') : g.commentStart? c' = g.commentStart? c := by
  have hblock : g.blockComments.findIdx? (c'.startsWith ·.1) =
      g.blockComments.findIdx? (c.startsWith ·.1) :=
    findIdx?_congr fun t ht ↦ h t.1 (Grammar.mem_marks_blockComment ht).1
  have hline : g.lineComments.findIdx? c'.startsWith = g.lineComments.findIdx? c.startsWith :=
    findIdx?_congr fun t ht ↦ h t (Grammar.mem_marks_lineComment ht)
  unfold Grammar.commentStart?
  rw [hblock, hline]

theorem stringStart? (h : Agree g c c') : g.stringStart? c' = g.stringStart? c := by
  have hfilter : g.strings.zipIdx.filter (c'.startsWith ·.1.opener) =
      g.strings.zipIdx.filter (c.startsWith ·.1.opener) := by
    refine List.filter_congr fun d hd ↦ h d.1.opener ?_
    exact (Grammar.mem_marks_string (List.fst_mem_of_mem_zipIdx hd)).1
  unfold Grammar.stringStart?
  rw [hfilter]

theorem blockClose? (h : Agree g c c') : g.blockClose? c' = g.blockClose? c :=
  findIdx?_congr fun _ hb ↦ h _ (Grammar.mem_marks_block hb).2

theorem blockOpen? (h : Agree g c c') : g.blockOpen? c' = g.blockOpen? c :=
  findIdx?_congr fun _ hb ↦ h _ (Grammar.mem_marks_block hb).1

theorem statementEnd? (h : Agree g c c') : g.statementEnd? c' = g.statementEnd? c :=
  List.find?_congr fun t ht ↦ h t (Grammar.mem_marks_statementEnd ht)

end Agree

namespace Alike

theorem agree (h : Alike g c c') (hg : g.InLines) : Agree g c c' :=
  fun t ht ↦ h.startsWith t (hg.marks t ht)

theorem commentStart? (h : Alike g c c') (hg : g.InLines) :
    g.commentStart? c' = g.commentStart? c := (h.agree hg).commentStart?

theorem stringStart? (h : Alike g c c') (hg : g.InLines) :
    g.stringStart? c' = g.stringStart? c := (h.agree hg).stringStart?

theorem blockClose? (h : Alike g c c') (hg : g.InLines) : g.blockClose? c' = g.blockClose? c :=
  (h.agree hg).blockClose?

theorem blockOpen? (h : Alike g c c') (hg : g.InLines) : g.blockOpen? c' = g.blockOpen? c :=
  (h.agree hg).blockOpen?

theorem statementEnd? (h : Alike g c c') (hg : g.InLines) :
    g.statementEnd? c' = g.statementEnd? c := (h.agree hg).statementEnd?

theorem regexLiteral? (h : Alike g c c') : g.regexLiteral? c' = g.regexLiteral? c := by
  unfold Grammar.regexLiteral?
  rw [h.peek?, h.restOfLine]
  cases hr : g.regexLiterals with
  | false => rfl
  | true => rw [h.operand hr]

theorem bodyOpener? (h : Alike g c c') : g.bodyOpener? c' = g.bodyOpener? c := by
  unfold Grammar.bodyOpener?
  rw [h.peek?, h.restOfLine]

end Alike

/-- The cursor in the text with more text after it. -/
def extend (more : List Char) (c : Cursor) : Cursor := { c with ahead := c.ahead ++ more }

/-- What a cursor sees before the end of a line does not change with the text after it. -/
theorem alike_extend (g : Grammar) (h : Text.EndsLine c.ahead) (more : List Char) :
    Alike g c (c.extend more) where
  startsWith t ht := by simp only [Cursor.startsWith, extend, h.isPrefixOf_append ht]
  peek? := List.head?_append_of_ne_nil _ h.ne_nil
  restOfLine := h.firstLine_append more
  operand _ := rfl

theorem extend_consume {k : Nat} (hk : k ≤ c.ahead.length) (more : List Char) :
    (c.extend more).consume k = (c.consume k).extend more := by
  simp [consume, extend, List.take_append_of_le_length hk, List.drop_append_of_le_length hk]

end Cursor

end Marginalia
