import Marginalia.Proofs.Gaps
import Marginalia.Proofs.Window

/-!
# What string literals hold

A string literal of Python is closed to the rest of a scan: a text of the same size between its
quotes changes nothing of what is found. Up to the literal, no lookahead gets past its first quote;
after it, nothing looks back.
-/

namespace Marginalia

open Text (firstLine)
open Pass (step skipStep start)

namespace Text

/-- A text that neither ends a string literal of Python nor escapes its end. -/
def Plain (s : List Char) : Prop := ∀ c ∈ s, c ≠ '\n' ∧ c ≠ '\\' ∧ c ≠ '\x22' ∧ c ≠ '\x27'

instance (s : List Char) : Decidable (Plain s) :=
  List.decidableBAll _ s

/-- Whether a character quotes literals in Python. -/
def isQuote (c : Char) : Bool := c = '\x22' || c = '\x27'

theorem not_isQuote {s : List Char} (h : Plain s) {c : Char} (hc : c ∈ s) : isQuote c = false := by
  obtain ⟨-, -, hdouble, hsingle⟩ := h c hc
  simp [isQuote, hdouble, hsingle]

end Text

/-- The literal of a text between the ends of a delimiter. -/
def StringDelimiter.enclose (d : StringDelimiter) (text : List Char) : List Char :=
  d.opener ++ (text ++ d.closer)

/-! ## Quotes -/

/-- A delimiter made of quotes. -/
structure StringDelimiter.Quotes (d : StringDelimiter) (q : Char) : Prop where
  quote : Text.isQuote q = true
  opener_ne : d.opener ≠ []
  opener : ∀ c ∈ d.opener, c = q
  closer : d.closer = d.opener
  escape : d.escape = some '\\'

theorem Grammar.quotes_python : ∀ d ∈ python.strings, ∃ q, d.Quotes q := by
  have hall : ∀ d ∈ python.strings, let q := d.opener.headD ' '
      Text.isQuote q = true ∧ d.opener ≠ [] ∧ d.opener.all (· = q) = true ∧
        d.closer = d.opener ∧ d.escape = some '\\' := by
    decide
  intro d hd
  obtain ⟨hquote, hne, hopener, hcloser, hescape⟩ := hall d hd
  refine ⟨_, hquote, hne, fun c hc ↦ ?_, hcloser, hescape⟩
  exact of_decide_eq_true (List.all_eq_true.mp hopener c hc)

theorem Grammar.quotes_delimiter {c : Cursor} {i : Nat} (h : python.stringStart? c = some i) :
    ∃ q, (python.delimiter i).Quotes q := by
  have hopener := (Cursor.startsWith_iff.mp (startsWith_of_stringStart? h)).1
  rw [delimiter, List.getD_eq_getElem?_getD] at hopener ⊢
  cases hi : python.strings[i]? with
  | none =>
    rw [hi] at hopener
    exact absurd rfl hopener
  | some d => exact quotes_python d (List.mem_of_getElem? hi)

theorem Grammar.marks_python :
    ∀ t ∈ python.marks, t.length ≤ 1 ∨ ∀ c ∈ t, Text.isQuote c = true := by
  have hall : ∀ t ∈ python.marks, t.length ≤ 1 ∨ t.all Text.isQuote := by decide
  exact fun t ht ↦ (hall t ht).imp_right List.all_eq_true.mp

theorem Grammar.stops_python {q : Char} (h : Text.isQuote q = true) : python.Stops q := by
  have hq : q = '\x22' ∨ q = '\x27' := by simpa [Text.isQuote] using h
  rcases hq with rfl | rfl <;> constructor <;> decide

namespace StringDelimiter.Quotes

variable {d : StringDelimiter} {q : Char} {xs : List Char}

theorem opener_eq (hd : d.Quotes q) : ∃ cs, d.opener = q :: cs := by
  obtain ⟨c, cs, hcs⟩ := List.exists_cons_of_ne_nil hd.opener_ne
  obtain rfl := hd.opener c (by rw [hcs]; exact List.mem_cons_self)
  exact ⟨cs, hcs⟩

theorem isBlank_eq (hd : d.Quotes q) : Text.isBlank q = false ∧ q ≠ '\n' := by
  have hq : q = '\x22' ∨ q = '\x27' := by simpa [Text.isQuote] using hd.quote
  rcases hq with rfl | rfl <;> decide

theorem not_mem_enclose (hd : d.Quotes q) (hxs : Text.Plain xs) : '\n' ∉ d.enclose xs := by
  have hopener : '\n' ∉ d.opener := fun h ↦ hd.isBlank_eq.2 (hd.opener _ h).symm
  simp only [enclose, List.mem_append, hd.closer, not_or]
  exact ⟨hopener, fun h ↦ (hxs _ h).1 rfl, hopener⟩

theorem isAllBlank_enclose (hd : d.Quotes q) (xs : List Char) :
    Text.isAllBlank (d.enclose xs) = false := by
  obtain ⟨cs, hcs⟩ := hd.opener_eq
  simp [enclose, hcs, Text.isAllBlank, hd.isBlank_eq.1]

/-- A literal goes on up to its closer. -/
theorem tail_eq (hd : d.Quotes q) (hxs : Text.Plain xs) (after : List Char) :
    d.tail (xs ++ (d.closer ++ after)) = (xs.length + d.closer.length, .closed) := by
  obtain ⟨cs, hcs⟩ := hd.opener_eq
  rw [hd.closer]
  induction xs with
  | nil =>
    have hescape : d.escape ≠ some q := by
      have hq : q = '\x22' ∨ q = '\x27' := by simpa [Text.isQuote] using hd.quote
      rw [hd.escape]
      rcases hq with rfl | rfl <;> decide
    have hclose : (!d.closer.isEmpty && d.closer.isPrefixOf (q :: (cs ++ after))) = true := by
      rw [hd.closer, hcs]
      simp
    rw [List.nil_append, hcs, List.cons_append, tail_of_not_escape hescape, if_pos hclose,
      hd.closer, hcs, List.length_nil, Nat.zero_add]
  | cons x xs ih =>
    obtain ⟨hline, hescape, -, -⟩ := hxs x List.mem_cons_self
    have hx : x ≠ q := by
      rintro rfl
      have hquote := Text.not_isQuote hxs (List.mem_cons_self (a := x))
      rw [hd.quote] at hquote
      cases hquote
    have hclose : (!d.closer.isEmpty && d.closer.isPrefixOf (x :: (xs ++ (d.opener ++ after)))) =
        false := by
      rw [hd.closer, hcs]
      simp [List.isPrefixOf_cons_cons, hx.symm]
    rw [List.cons_append, tail_of_not_escape (by rw [hd.escape]; simpa using hescape.symm), hclose,
      ih fun c hc ↦ hxs c (List.mem_cons_of_mem _ hc)]
    simp [hline, Nat.add_right_comm]

end StringDelimiter.Quotes

/-! ## Up to the first quote -/

/-- No mark of Python gets past the first quotes of a literal that is not empty. -/
theorem Grammar.isPrefixOf_python {t : List Char} (ht : t ∈ python.marks) {x : Char}
    (hx : Text.isQuote x = false) {s : List Char} (hs : s ≠ []) (more : List Char) :
    t.isPrefixOf (s ++ x :: more) = t.isPrefixOf s := by
  rcases marks_python t ht with hlen | hquotes
  · obtain ⟨c, cs, rfl⟩ := List.exists_cons_of_ne_nil hs
    match t, hlen with
    | [], _ => rfl
    | [c'], _ => simp [List.isPrefixOf]
  · refine Text.isPrefixOf_append_cons (fun h ↦ ?_) s more
    rw [hquotes x h] at hx
    cases hx

/-- A body is opened by a colon, if the rest of its line is blank up to a comment. -/
theorem Grammar.bodyOpener?_python (c : Cursor) :
    python.bodyOpener? c =
      if c.peek? = some ':' && ((Text.trimStart (c.restOfLine.drop 1)).head?.all (· = '#')) then
        some [':']
      else none := by
  have hcomments : ∀ tail : List Char,
      (tail.isEmpty || python.lineComments.any (·.isPrefixOf tail)) =
        tail.head?.all (· = '#') := by
    intro tail
    cases tail with
    | nil => rfl
    | cons e es => simp [python, tokens, List.isPrefixOf_cons_cons, Bool.beq_eq_decide_eq, eq_comm]
  change (if _ && (_ || _) then _ else _) = _
  rw [hcomments]

/-- The first character of a line that is not blank is seen up to itself. -/
theorem Text.head?_trimStart_firstLine {q : Char} (hq : isBlank q = false) (hline : q ≠ '\n')
    (s more more' : List Char) :
    (trimStart (firstLine (s ++ q :: more'))).head? =
      (trimStart (firstLine (s ++ q :: more))).head? := by
  have hstop : ∀ more, (trimStart (firstLine (s ++ q :: more))).head? =
      (trimStart (firstLine (s ++ [q]))).head? := by
    intro more
    by_cases hs : '\n' ∈ s
    · unfold firstLine
      rw [takeWhile_append_of_mem hs (by simp), takeWhile_append_of_mem hs (by simp)]
    · have hfirst : ∀ more, firstLine (s ++ q :: more) = (s ++ [q]) ++ firstLine more := by
        intro more
        rw [firstLine, List.takeWhile_append_of_pos, List.takeWhile_cons_of_pos, ← firstLine]
        · simp
        · simpa using hline
        · intro c hc
          rw [decide_eq_true_eq]
          rintro rfl
          exact hs hc
      have hmem : q ∈ s ++ [q] := by simp
      rw [hfirst, hfirst, trimStart, trimStart, dropWhile_append_of_mem hmem hq,
        dropWhile_append_of_mem hmem hq, List.head?_append_of_ne_nil, List.head?_append_of_ne_nil]
      · exact List.ne_nil_of_mem (mem_dropWhile hmem hq)
      · exact List.ne_nil_of_mem (mem_dropWhile hmem hq)
  exact (hstop _).trans (hstop _).symm

/-- A colon in front of a quote opens a body no matter what follows the quote. -/
theorem Grammar.bodyOpener?_append_cons {q : Char} (hq : Text.isQuote q = true)
    (b b' r more more' : List Char) :
    python.bodyOpener? (.between b' (r ++ q :: more')) =
      python.bodyOpener? (.between b (r ++ q :: more)) := by
  have hq' : Text.isBlank q = false ∧ q ≠ '\n' ∧ q ≠ ':' := by
    have hq' : q = '\x22' ∨ q = '\x27' := by simpa [Text.isQuote] using hq
    rcases hq' with rfl | rfl <;> decide
  rw [bodyOpener?_python, bodyOpener?_python]
  cases r with
  | nil => simp [Cursor.between, Cursor.peek?, hq'.2.2]
  | cons c r =>
    by_cases hc : c = ':'
    · subst hc
      have hline : ∀ b more, ((Cursor.between b (':' :: r ++ q :: more)).restOfLine).drop 1 =
          firstLine (r ++ q :: more) := fun _ _ ↦ rfl
      rw [hline, hline, Text.head?_trimStart_firstLine hq'.1 hq'.2.1 r more more']
      rfl
    · simp [Cursor.between, Cursor.peek?, hc]

theorem Position.after_of_not_mem {s : List Char} (h : '\n' ∉ s) (p : Position) :
    p.after s = ⟨p.offset + Text.byteSize s, p.line, p.column + s.length⟩ := by
  induction s generalizing p with
  | nil => rfl
  | cons c s ih =>
    obtain ⟨hc, hs⟩ := not_or.mp (mt List.mem_cons.mpr h)
    rw [after_cons, ih hs, step, if_neg (Ne.symm hc)]
    simp only [Text.byteSize_cons, List.length_cons, mk.injEq, true_and]
    omega

/-! ## The two windows -/

/-- Two texts that may be exchanged for each other in a literal of Python. -/
structure Text.Exchangeable (xs ys : List Char) : Prop where
  plain : Plain xs
  plain' : Plain ys
  byteSize : byteSize ys = byteSize xs
  length : ys.length = xs.length

section

variable {d : StringDelimiter} {q : Char} {before after xs ys : List Char} {options : ScanOptions}
  {registry : Registry}

/-- The offsets outside of a literal. -/
def OutsideLiteral (before literal after : List Char) (n : Nat) : Prop :=
  (∃ u, u <+: before ∧ n = Text.byteSize u) ∨
    ∃ u, u <+: after ∧ n = Text.byteSize (before ++ (literal ++ u))

/-- No blank line comes or goes with the text of a literal. -/
theorem sameGap_enclose (hd : d.Quotes q) (h : Text.Exchangeable xs ys) {i j : Nat}
    (hi : OutsideLiteral before (d.enclose xs) after i)
    (hj : OutsideLiteral before (d.enclose xs) after j) :
    SameGap id (before ++ (d.enclose xs ++ after)) (before ++ (d.enclose ys ++ after)) i j := by
  have hsize : Text.byteSize (d.enclose ys) = Text.byteSize (d.enclose xs) := by
    simp [StringDelimiter.enclose, h.byteSize]
  have hfront : ∀ {u} (l : List Char), u <+: before → u <+: before ++ l :=
    fun l hu ↦ hu.trans (List.prefix_append _ l)
  have hback : ∀ {u : List Char} (l : List Char), u <+: after →
      before ++ (l ++ u) <+: before ++ (l ++ after) :=
    fun l hu ↦ (List.prefix_append_right_inj _).mpr ((List.prefix_append_right_inj _).mpr hu)
  rcases hi with ⟨u, hu, rfl⟩ | ⟨u, hu, rfl⟩ <;> rcases hj with ⟨v, hv, rfl⟩ | ⟨v, hv, rfl⟩
  · exact sameGap_of_prefix (hfront _ hu) (hfront _ hv) (hfront _ hu) (hfront _ hv) rfl rfl
      strictMono_id fun _ ↦ rfl
  · refine sameGap_of_prefix (hfront _ hu) (hback _ hv) (hfront _ hu) (hback (d.enclose ys) hv) rfl
      (by simp [hsize]) strictMono_id fun _ ↦ ?_
    obtain ⟨w, rfl⟩ := hu
    rw [List.append_assoc, List.append_assoc, List.drop_left, List.drop_left]
    exact Text.blankLines_exchange (hd.not_mem_enclose h.plain) (hd.not_mem_enclose h.plain')
      (hd.isAllBlank_enclose xs) (hd.isAllBlank_enclose ys) w v
  · refine sameGap_of_prefix (hback _ hu) (hfront _ hv) (hback (d.enclose ys) hu) (hfront _ hv)
      (by simp [hsize]) rfl strictMono_id fun huv ↦ ?_
    have hle := (huv.trans hv).length_le
    have hpos := List.length_pos_iff.mpr hd.opener_ne
    simp only [List.length_append, StringDelimiter.enclose] at hle
    omega
  · refine sameGap_of_prefix (hback _ hu) (hback _ hv) (hback (d.enclose ys) hu)
      (hback (d.enclose ys) hv) (by simp [hsize]) (by simp [hsize]) strictMono_id fun _ ↦ ?_
    have hdrop : ∀ l : List Char,
        (before ++ (l ++ v)).drop (before ++ (l ++ u)).length = v.drop u.length := by
      intro l
      rw [List.length_append, ← List.drop_drop, List.drop_left, List.length_append,
        ← List.drop_drop, List.drop_left]
    rw [hdrop, hdrop]

/-- Positions stay the same. -/
def literalExchange (hd : d.Quotes q) (h : Text.Exchangeable xs ys) (before after : List Char) :
    Exchange (before ++ (d.enclose xs ++ after)) (before ++ (d.enclose ys ++ after)) where
  position := id
  offset := id
  clear := OutsideLiteral before (d.enclose xs) after
  moves := Position.moves_id
  gap _ _ := sameGap_enclose hd h

/-- The text up to a literal that is not empty. -/
def windowBefore (hd : d.Quotes q) (h : Text.Exchangeable xs ys) (hne : xs ≠ [])
    (before after : List Char) : Window .python (literalExchange hd h before after) where
  back := []
  back' := []
  mid := before
  rest := d.enclose xs ++ after
  rest' := d.enclose ys ++ after
  position _ _ := rfl
  clear u hu := .inl ⟨u, hu, by rw [List.nil_append, Position.after_offset]; exact Nat.zero_add _⟩
  ends hnil := by
    obtain ⟨cs, hcs⟩ := hd.opener_eq
    simp [StringDelimiter.enclose, hcs] at hnil
  head := by
    obtain ⟨cs, hcs⟩ := hd.opener_eq
    simp [StringDelimiter.enclose, hcs]
  stop e he := by
    obtain ⟨cs, hcs⟩ := hd.opener_eq
    simp only [StringDelimiter.enclose, hcs, List.cons_append, List.head?_cons,
      Option.some.injEq] at he
    rw [← he]
    exact (Grammar.stops_python hd.quote).blank
  marks t ht r := by
    obtain ⟨x, xs, rfl⟩ := List.exists_cons_of_ne_nil hne
    obtain ⟨y, ys, rfl⟩ := List.exists_cons_of_length_eq_add_one h.length
    have hopener : r ++ d.opener ≠ [] := by simp [hd.opener_ne]
    have henclose : ∀ z zs, r ++ (d.enclose (z :: zs) ++ after) =
        (r ++ d.opener) ++ z :: (zs ++ d.closer ++ after) := by simp [StringDelimiter.enclose]
    rw [henclose, henclose,
      Grammar.isPrefixOf_python ht (Text.not_isQuote h.plain List.mem_cons_self) hopener,
      Grammar.isPrefixOf_python ht (Text.not_isQuote h.plain' List.mem_cons_self) hopener]
  regexLiteral? _ _ _ := rfl
  bodyOpener? u r _ := by
    obtain ⟨cs, hcs⟩ := hd.opener_eq
    simp only [StringDelimiter.enclose, hcs, List.cons_append]
    exact Grammar.bodyOpener?_append_cons hd.quote _ _ r _ _
  lineIndent u r _ := by
    obtain ⟨cs, hcs⟩ := hd.opener_eq
    unfold Cursor.lineIndent
    simp only [Cursor.between, Cursor.lineBehind, StringDelimiter.enclose, hcs, List.cons_append,
      ← List.append_assoc]
    rw [Text.takeWhile_append_cons (Grammar.stops_python hd.quote).blank]

/-- The text after a literal. -/
def windowAfter (hd : d.Quotes q) (h : Text.Exchangeable xs ys)
    (before after : List Char) : Window .python (literalExchange hd h before after) where
  back := before ++ d.enclose xs
  back' := before ++ d.enclose ys
  mid := after
  rest := []
  rest' := []
  position u _ := by
    change Position.start.after _ = _
    rw [Position.after_append, Position.after_append, Position.after_append,
      Position.after_append, Position.after_of_not_mem (hd.not_mem_enclose h.plain),
      Position.after_of_not_mem (hd.not_mem_enclose h.plain')]
    simp [StringDelimiter.enclose, h.byteSize, h.length]
  clear u hu := .inr ⟨u, hu, by
    rw [Position.after_offset, List.append_assoc]; exact Nat.zero_add _⟩
  ends hnil := hnil
  head := List.head?_nil
  stop := Text.isInlineBlank_of_head?_nil
  marks _ _ _ := rfl
  regexLiteral? _ _ _ := rfl
  bodyOpener? _ _ _ := rfl
  lineIndent u r _ := by
    unfold Cursor.lineIndent
    by_cases hu : '\n' ∈ u
    · rw [Cursor.lineBehind_between_of_mem hu]
      rfl
    · obtain ⟨cs, hcs⟩ := hd.opener_eq
      rw [Cursor.lineBehind_between_of_not_mem hu _ _ [],
        Cursor.lineBehind_between_of_not_mem hu _ _ [],
        Cursor.lineBehind_between_of_not_mem (hd.not_mem_enclose h.plain) _ _ [],
        Cursor.lineBehind_between_of_not_mem (hd.not_mem_enclose h.plain') _ _ []]
      simp only [Cursor.between, StringDelimiter.enclose, hcs, List.cons_append, List.append_assoc]
      rw [Text.takeWhile_append_cons (Grammar.stops_python hd.quote).blank]

/-! ## Across the literal -/

theorem tail_enclose (hd : d.Quotes q) (hxs : Text.Plain xs) (after : List Char) :
    d.tail ((d.enclose xs ++ after).drop d.opener.length) =
      (xs.length + d.closer.length, .closed) := by
  rw [StringDelimiter.enclose, List.append_assoc, List.drop_left, List.append_assoc,
    hd.tail_eq hxs]

theorem length_enclose (h : Text.Exchangeable xs ys) :
    (d.enclose ys).length = (d.enclose xs).length := by
  simp [StringDelimiter.enclose, h.length]

/-- Two passes in front of a literal are still abreast after it. -/
theorem Window.Beside.literal {hd : d.Quotes q} {h : Text.Exchangeable xs ys} {hne : xs ≠ []}
    {p p' : Pass} (hbeside : (windowBefore hd h hne before after).Beside p p') {i : Nat}
    (hi : Grammar.python.delimiter i = d) (hahead : p.cursor.ahead = d.enclose xs ++ after) :
    (windowAfter hd h before after).Beside (p.literal .python i).markEnd
      (p'.literal .python i).markEnd := by
  obtain ⟨habreast, r, hat⟩ := hbeside
  obtain ⟨hc, hc'⟩ : p.cursor = .between before (d.enclose xs ++ after) ∧
      p'.cursor = .between before (d.enclose ys ++ after) := hat.eq_between hahead
  have htail := tail_enclose hd h.plain after
  have htail' := tail_enclose hd h.plain' after
  have hlength : p.literalLength (Grammar.python.delimiter i) = (d.enclose xs).length := by
    rw [Pass.literalLength, hi, hahead, htail, StringDelimiter.enclose]
    simp
  have hlength' : p'.literalLength (Grammar.python.delimiter i) = (d.enclose ys).length := by
    rw [Pass.literalLength, hi, congrArg Cursor.ahead hc']
    change d.opener.length + (d.tail ((d.enclose ys ++ after).drop _)).1 = _
    rw [htail', StringDelimiter.enclose]
    simp
  have hcursor :
      (p.literal .python i).markEnd.cursor = .between (before ++ d.enclose xs) after := by
    rw [Pass.literal_eq, hlength]
    change p.cursor.consume _ = _
    rw [hc, Cursor.between_consume, List.take_left, List.drop_left]
  have hcursor' : (p'.literal .python i).markEnd.cursor =
      .between (before ++ d.enclose ys) after := by
    rw [Pass.literal_eq, hlength']
    change p'.cursor.consume _ = _
    rw [hc', Cursor.between_consume, List.take_left, List.drop_left]
  have hend : (p'.literal .python i).markEnd.cursor.position =
      (literalExchange hd h before after).position
        (p.literal .python i).markEnd.cursor.position := by
    have hposition := (windowAfter hd h before after).position [] List.nil_prefix
    rw [hcursor, hcursor']
    simpa [windowAfter, Cursor.between] using hposition.symm
  refine ⟨(habreast.literal ?_ ?_ ?_).markEnd hend, after, [], rfl, ?_, ?_⟩
  · rw [hc, hc']
    rfl
  · rw [hc, hc', hi]
    exact htail'.trans ((congrArg (·, _) (by rw [h.length])).trans htail.symm)
  · rw [Pass.literal_eq, Pass.literal_eq, hlength, hlength', length_enclose h] at hend
    rw [hlength]
    exact hend
  · rw [hcursor]
    simp [windowAfter]
  · rw [hcursor']
    simp [windowAfter]

/-! ## Python -/

/-- A run of line comments lasts up to the end of a line. -/
theorem Cursor.head?_lineComments (c : Cursor) (marker : List Char) (e : Char)
    (he : (c.lineComments marker).2.peek? = some e) : e = '\n' := by
  have hline : ∀ (c : Cursor) e, (c.commentLine marker).2.peek? = some e → e = '\n' := by
    intro c e he
    unfold peek? at he
    rw [commentLine_ahead, ← List.find?_not_eq_head?_dropWhile] at he
    simpa using List.find?_some he
  refine (runsTo_lineComments c marker).1.invariant
    (P := fun st ↦ ∀ e, st.2.peek? = some e → e = '\n') ?_ (hline _) e he
  rintro ⟨ls, c⟩ st' - hnext
  rw [nextCommentLine?_eq] at hnext
  obtain ⟨k, -, rfl⟩ := Option.map_eq_some_iff.mp hnext
  exact hline _

/-- A comment in Python lasts up to the end of a line. -/
theorem Pass.peek?_of_tags {s : Setup} (hgrammar : s.grammar = .python) {source : List Char}
    {p : Pass} (hp : Reaches (step s) (start s source) p) {c : Comment} (hmode : p.mode = .tags c)
    (e : Char) (he : p.cursor.peek? = some e) : e = '\n' := by
  refine (hp.invariant (P := fun p : Pass ↦ Reaches (step s) (start s source) p ∧
    ∀ c, p.mode = .tags c → ∀ e, p.cursor.peek? = some e → e = '\n') ?_
    ⟨.refl _, fun c hc ↦ by cases hc⟩).2 c hmode e he
  rintro a b ⟨ha, -⟩ hab
  refine ⟨ha.trans (.head hab (.refl b)), fun c hc e he ↦ ?_⟩
  obtain ⟨form, hform, rfl⟩ := eq_readComment_of_tags hab hc
  have hstart := atComment_of_reaches ha form hform
  rw [hgrammar] at hstart
  obtain ⟨i, rfl⟩ := Grammar.plain_python.exists_line hstart
  rw [readComment_line_cursor] at he
  exact Cursor.head?_lineComments _ _ e he

/-- A header in front of a literal is read alike, whatever the literal holds. -/
theorem Window.Beside.readsAlike {hd : d.Quotes q} {h : Text.Exchangeable xs ys} {hne : xs ≠ []}
    {p p' : Pass} (hbeside : (windowBefore hd h hne before after).Beside p p') :
    ReadsAlike .python p p' := by
  obtain ⟨-, r, hat⟩ := hbeside
  obtain ⟨cs, hcs⟩ := hd.opener_eq
  have hstops := Grammar.stops_python hd.quote
  have hnames : Grammar.python.NamesStop q := hstops.namesStop (by decide)
  have hends : Text.EndsWith q (r ++ [q]) := List.getLast?_concat
  have hrecognise : ∀ more enclosing, Grammar.python.recognise? ((r ++ [q]) ++ more) enclosing =
      (Grammar.python.recognise? (r ++ [q]) enclosing).map (·.extend more) := fun more enclosing ↦
    Grammar.recognise?_append_of_stops hstops hnames rfl rfl enclosing hends more
  have hahead : ∀ zs,
      r ++ (d.enclose zs ++ after) = (r ++ [q]) ++ (cs ++ (zs ++ d.closer) ++ after) := by
    simp [StringDelimiter.enclose, hcs]
  exact readsAlike_of_extend (hat.ahead.1.trans (hahead xs)) (hat.ahead.2.trans (hahead ys))
    fun more ↦ hrecognise more _

/-! ### The two ways to read a literal -/

theorem Pass.ahead_literal_iff {p : Pass} {g : Grammar} {i : Nat} :
    p.Ahead g (.literal i) ↔
      g.commentStart? p.cursor = none ∧ g.stringStart? p.cursor = some i := by
  refine ⟨fun h ↦ ?_, fun ⟨comment, found⟩ ↦ .literal comment found⟩
  cases h with
  | literal comment found => exact ⟨comment, found⟩

theorem Pass.reads_eq_literal {p : Pass} {g : Grammar} {i : Nat} :
    p.reads g = some (.literal i) ↔ p.mode = .code ∧
      (∃ c, p.cursor.peek? = some c ∧ Text.isBlank c = false) ∧
      g.commentStart? p.cursor = none ∧ g.stringStart? p.cursor = some i := by
  rw [reads_eq_some_iff, ahead_literal_iff, atToken_cursor]
  simp only [reduceCtorEq, and_false, false_or, ← and_assoc, exists_and_right]

theorem Pass.step_of_reads_literal {s : Setup} {p : Pass} {i : Nat}
    (h : p.reads s.grammar = some (.literal i)) :
    step s p = some ({ p.atToken s.grammar with statementStart := false }.literal
      s.grammar i).markEnd := by
  rcases step_of_reads h with ⟨h | h, -⟩ | h
  · cases h
  · cases h
  · exact h

namespace Window.Beside

variable {hd : d.Quotes q} {h : Text.Exchangeable xs ys} {hne : xs ≠ []} {p p' : Pass} {i : Nat}
  {s : Setup}

/-- Two scans are side by side up to the literal. -/
theorem ofReaches (hgrammar : s.grammar = .python) (hd : d.Quotes q)
    (h : Text.Exchangeable xs ys) (hne : xs ≠ [])
    (hp : Reaches (Pass.step s) (start s (before ++ (d.enclose xs ++ after))) p)
    (hle : (d.enclose xs ++ after).length ≤ p.cursor.ahead.length) :
    ∃ p', Reaches (Pass.step s) (start s (before ++ (d.enclose ys ++ after))) p' ∧
      (windowBefore hd h hne before after).Beside p p' := by
  obtain ⟨_, registry, options⟩ := s
  obtain rfl : _ = Grammar.python := hgrammar
  have hstart : (windowBefore hd h hne before after).Beside
      (start ⟨.python, registry, options⟩ (before ++ (d.enclose xs ++ after)))
      (start ⟨.python, registry, options⟩ (before ++ (d.enclose ys ++ after))) :=
    ⟨.start _ _ _, before, [], rfl, rfl, rfl⟩
  refine hstart.reaches (s := ⟨.python, registry, options⟩) (.refl _) hp hle
    (fun a b a' _ _ _ _ _ ha ↦ ha.readsAlike) fun b c hb hbp hmode ↦ .inl ?_
  -- a comment in front of the literal would end with its line
  refine lt_of_le_of_ne (hle.trans
    (Pass.length_ahead_le_of_reaches (Pass.atComment_of_reaches hb) hbp)) fun hlength ↦ ?_
  have hahead := (Pass.reaches_moves hb).2.cursor.ahead_eq hlength.symm
  obtain ⟨cs, hcs⟩ := hd.opener_eq
  refine hd.isBlank_eq.2 (Pass.peek?_of_tags rfl hb hmode q ?_)
  rw [Cursor.peek?, hahead, StringDelimiter.enclose, hcs]
  rfl

/-- A literal that is a token is one in both texts. -/
theorem literalToken (hgrammar : s.grammar = .python)
    (hbeside : (windowBefore hd h hne before after).Beside p p')
    (hi : Grammar.python.delimiter i = d) (hahead : p.cursor.ahead = d.enclose xs ++ after)
    (hreads : p.reads .python = some (.literal i)) :
    ∃ u u', Pass.step s p = some u ∧ Pass.step s p' = some u' ∧
      (windowAfter hd h before after).Beside u u' := by
  obtain ⟨r, hat⟩ := hbeside.place
  have hreads' : p'.reads .python = some (.literal i) := by
    rw [Pass.reads_eq_literal] at hreads ⊢
    rw [hbeside.abreast.mode, hat.peek?, hat.sees.commentStart?, hat.sees.stringStart?, hreads.1]
    exact ⟨rfl, hreads.2⟩
  have hfirst : (windowBefore hd h hne before after).Beside
      { p.atToken .python with statementStart := false }
      { p'.atToken .python with statementStart := false } := by
    refine ⟨{ hbeside.abreast.atToken hat.lineIndent with statementStart := rfl }, r, ?_⟩
    change Window.At _ _ (p.atToken _).cursor (p'.atToken _).cursor
    rwa [Pass.atToken_cursor, Pass.atToken_cursor]
  rw [← hgrammar] at hreads hreads'
  refine ⟨_, _, Pass.step_of_reads_literal hreads, Pass.step_of_reads_literal hreads', ?_⟩
  rw [hgrammar]
  exact hfirst.literal hi ((congrArg Cursor.ahead (p.atToken_cursor _)).trans hahead)

/-- A literal in code that is skipped is skipped in both texts. -/
theorem skippedLiteral (hgrammar : s.grammar = .python)
    (hbeside : (windowBefore hd h hne before after).Beside p p') (hmode : p.mode = .skip)
    (hi : Grammar.python.delimiter i = d) {u v : Pass}
    (hu : Reaches (Pass.skipStep s) (p.consume 1).markEnd u)
    (hahead : u.cursor.ahead = d.enclose xs ++ after)
    (hstart : Grammar.python.stringStart? u.cursor = some i) (hv : Pass.skipStep s u = some v) :
    ∃ e e', Pass.step s p = some e ∧ Pass.step s p' = some e' ∧
      (windowAfter hd h before after).Beside e e' := by
  obtain ⟨_, registry, options⟩ := s
  obtain rfl : _ = Grammar.python := hgrammar
  have hle : (windowBefore hd h hne before after).rest.length ≤ u.cursor.ahead.length := by
    rw [hahead]
    exact Nat.le_refl _
  -- up to the literal
  obtain ⟨u', hu', hbeside'⟩ := (hbeside.skipFirst
    (hle.trans ((Pass.descends_skipStep _).le_of_reaches hu))).skipped hu hle
  obtain ⟨r, hat⟩ := hbeside'.place
  have hstart' := hat.sees.stringStart?.trans hstart
  -- the literal
  obtain ⟨rfl, c, hc, hends⟩ := (Pass.skipStep_eq_some_iff.mp hv).eq_literal hstart
  have hlooks := hbeside'.abreast.looksAlike hat.sees
  have hv' := Pass.skipStep_eq_some_iff.mpr
    (.literal (hat.peek?.trans hc) ((hlooks.skipEnds c).trans hends) hstart')
  have hacross := hbeside'.literal hi hahead
  -- the code after the literal
  obtain ⟨hve, hend⟩ := (Pass.descends_skipStep ⟨.python, registry, options⟩).runsTo_iterate
    (Nat.le_refl (u.literal _ _).markEnd.cursor.ahead.length)
  obtain ⟨e', hve', hafter⟩ := hacross.skipped hve (Nat.zero_le _)
  obtain ⟨r', hat'⟩ := hafter.place
  have hend' := hafter.abreast.skipStep_none hat'.sees hend
  obtain ⟨r₀, hat₀⟩ := hbeside.place
  have hne' : ∀ zs, r₀ ++ (d.enclose zs ++ after) ≠ [] := by
    simp [StringDelimiter.enclose, hd.opener_ne]
  refine ⟨_, _, Pass.step_skip hmode (hat₀.ahead.1.trans_ne (hne' xs)),
    Pass.step_skip (hbeside.abreast.mode.trans (congrArg _ hmode))
      (hat₀.ahead.2.trans_ne (hne' ys)), ?_⟩
  rw [Pass.skip_eq_of_runsTo ⟨hu.trans (.head hv hve), hend⟩,
    Pass.skip_eq_of_runsTo ⟨hu'.trans (.head hv' hve'), hend'⟩]
  exact hafter.toCode (s := ⟨.python, registry, options⟩)

end Window.Beside

end

/-- The scan of a text reads a string literal with a delimiter at the place between two parts of it,
as a token or in code that it skips. -/
def Setup.ReadsLiteral (s : Setup) (i : Nat) (before rest : List Char) : Prop :=
  ∃ p, Reaches (step s) (start s (before ++ rest)) p ∧
    (p.reads s.grammar = some (.literal i) ∧ p.cursor.ahead = rest ∨
      p.mode = .skip ∧ ∃ u v, Reaches (skipStep s) (p.consume 1).markEnd u ∧
        u.cursor.ahead = rest ∧ s.grammar.stringStart? u.cursor = some i ∧ skipStep s u = some v)

theorem Setup.ReadsLiteral.stringStart? {s : Setup} {i : Nat} {before rest : List Char}
    (h : s.ReadsLiteral i before rest) :
    ∃ c : Cursor, s.grammar.stringStart? c = some i := by
  obtain ⟨p, -, ⟨hreads, -⟩ | ⟨-, u, -, -, -, hu, -⟩⟩ := h
  · exact ⟨_, (Pass.reads_eq_literal.mp hreads).2.2.2⟩
  · exact ⟨_, hu⟩

/-- What a string literal of Python holds is opaque: where a scan reads a literal, another text of
the same size in it leaves what is found as it is. -/
theorem scan_of_exchangeable_literal (registry : Registry) (options : ScanOptions) (i : Nat)
    (before after : List Char) {xs ys : List Char} (h : Text.Exchangeable xs ys)
    (hreads : Setup.ReadsLiteral ⟨.python, registry, options⟩ i before
      ((Grammar.python.delimiter i).enclose xs ++ after)) :
    Setup.scan ⟨.python, registry, options⟩
        (before ++ ((Grammar.python.delimiter i).enclose ys ++ after)) =
      Setup.scan ⟨.python, registry, options⟩
        (before ++ ((Grammar.python.delimiter i).enclose xs ++ after)) := by
  rcases eq_or_ne xs [] with rfl | hne
  · rw [List.eq_nil_of_length_eq_zero h.length]
  obtain ⟨c, hc⟩ := hreads.stringStart?
  obtain ⟨q, hd⟩ := Grammar.quotes_delimiter hc
  obtain ⟨p, hp, hliteral⟩ := hreads
  have hle : ((Grammar.python.delimiter i).enclose xs ++ after).length ≤ p.cursor.ahead.length := by
    rcases hliteral with ⟨-, hahead⟩ | ⟨-, u, -, hu, hahead, -⟩
    · rw [hahead]
    · have hskip := (Pass.descends_skipStep _).le_of_reaches hu
      rw [hahead] at hskip
      exact hskip.trans (List.drop_suffix 1 _).length_le
  obtain ⟨p', hp', hbeside⟩ := Window.Beside.ofReaches rfl hd h hne hp hle
  have hacross : ∃ e e', step ⟨.python, registry, options⟩ p = some e ∧
      step ⟨.python, registry, options⟩ p' = some e' ∧
        (windowAfter hd h before after).Beside e e' := by
    rcases hliteral with ⟨hread, hahead⟩ | ⟨hmode, u, v, hu, hahead, hstart, hv⟩
    · exact hbeside.literalToken rfl rfl hahead hread
    · exact hbeside.skippedLiteral rfl hmode rfl hu hahead hstart hv
  obtain ⟨e, e', he, he', hafter⟩ := hacross
  rw [hafter.findings (hp.trans (.head he (.refl e))) (hp'.trans (.head he' (.refl e'))) rfl]
  exact Findings.relocate_id _

/-- The literal of an assignment, which is skipped code, with a comment and with a definition in
it. -/
theorem scan_of_exchangeable_literal_assigned :
    let s : Setup := ⟨.python, .standard, {}⟩
    let d := Grammar.python.delimiter 2
    s.ReadsLiteral 2 "x = ".toList (d.enclose "# @f".toList ++ "\n".toList) ∧
      s.scan ("x = ".toList ++ (d.enclose "def(".toList ++ "\n".toList)) =
        s.scan ("x = ".toList ++ (d.enclose "# @f".toList ++ "\n".toList)) := by
  intro s d
  have hreads : s.ReadsLiteral 2 "x = ".toList (d.enclose "# @f".toList ++ "\n".toList) :=
    ⟨_, .head rfl (.refl _),
      .inr ⟨rfl, _, _, .head rfl (.head rfl (.head rfl (.refl _))), rfl, rfl, rfl⟩⟩
  exact ⟨hreads, scan_of_exchangeable_literal .standard {} 2 _ _
    ⟨by decide, by decide, rfl, rfl⟩ hreads⟩

end Marginalia
