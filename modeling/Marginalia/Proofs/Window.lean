import Marginalia.Proofs.Abreast
import Marginalia.Proofs.Loops
import Marginalia.Proofs.Undisturbed

/-!
# A window into two texts

Two texts have a piece in common, and what comes before and after it in one of them is unlike what
does in the other. As long as no token looks different from within the window, two scans that are
abreast when they enter it stay abreast until one of them comes to its end.
-/

namespace Marginalia

open Text (firstLine)

/-- The cursor between two parts of a text. -/
def Cursor.between (before after : List Char) : Cursor where
  position := Position.start.after before
  behind := before.reverse
  ahead := after

theorem Cursor.between_consume (before after : List Char) (k : Nat) :
    (between before after).consume k = between (before ++ after.take k) (after.drop k) := by
  simp [between, consume, Position.after_append]

theorem Cursor.consume_of_eq_between {c : Cursor} {before after : List Char} {d : Char}
    (h : c = between before (d :: after)) : c.consume 1 = between (before ++ [d]) after := by
  rw [h, between_consume]
  rfl

/-- The line behind a cursor is known by the text back to its start. -/
theorem Cursor.lineBehind_between_of_mem {t : List Char} (h : '\n' ∈ t) (s s' a a' : List Char) :
    (between (s' ++ t) a').lineBehind = (between (s ++ t) a).lineBehind := by
  have hmem : '\n' ∈ t.reverse := List.mem_reverse.mpr h
  unfold lineBehind between
  dsimp only
  rw [List.reverse_append, List.reverse_append, Text.takeWhile_append_of_mem hmem (by simp),
    Text.takeWhile_append_of_mem hmem (by simp)]

theorem Cursor.lineBehind_between_of_not_mem {t : List Char} (h : '\n' ∉ t) (s a a' : List Char) :
    (between (s ++ t) a).lineBehind = (between s a').lineBehind ++ t := by
  have hline : ∀ c ∈ t.reverse, decide (c ≠ '\n') = true := by
    intro c hc
    rw [decide_eq_true_eq]
    rintro rfl
    exact h (List.mem_reverse.mp hc)
  unfold lineBehind between
  dsimp only
  rw [List.reverse_append, List.takeWhile_append_of_pos hline, List.reverse_append,
    List.reverse_reverse]

theorem Cursor.lineBehind_between_of_endsLine {s : List Char} (h : Text.EndsLine s) (a : List Char) :
    (between s a).lineBehind = [] := by
  obtain ⟨init, rfl⟩ := List.getLast?_eq_some_iff.mp h
  simp [lineBehind, between]

/-- A text ahead is known by its length. -/
theorem Cursor.In.ahead_eq {before after : List Char} {c : Cursor} (h : c.In (before ++ after))
    (hlength : c.ahead.length = after.length) : c.ahead = after := by
  have htext : c.behind.reverse ++ c.ahead = before ++ after := h.1
  exact List.append_inj_right' htext hlength

/-- The cursor of a text is known by what is ahead of it. -/
theorem Cursor.In.eq_between {before after : List Char} {c : Cursor} (h : c.In (before ++ after))
    (hahead : c.ahead = after) : c = .between before after := by
  obtain ⟨htext, hposition⟩ := h
  rw [Cursor.text, hahead, List.append_cancel_right_eq] at htext
  have hbehind : c.behind = before.reverse := by rw [← htext, List.reverse_reverse]
  rw [htext] at hposition
  obtain ⟨position, behind, ahead⟩ := c
  simp only at hposition hbehind hahead
  rw [hposition, hbehind, hahead]
  rfl

/-- The number of characters up to the text of the next line, if it starts with the same marker. -/
def Cursor.nextMarker? (marker : List Char) (c : Cursor) : Option Nat :=
  let blanks := (c.ahead.tail.takeWhile Text.isInlineBlank).length
  if c.peek? = some '\n' && marker.isPrefixOf (c.ahead.tail.drop blanks) then
    some (1 + blanks + marker.length)
  else none

theorem Cursor.nextCommentLine?_eq (marker : List Char) (ls : List CommentLine) (c : Cursor) :
    nextCommentLine? marker (ls, c) = (c.nextMarker? marker).map fun k ↦
      (ls ++ [((c.consume k).commentLine marker).1], ((c.consume k).commentLine marker).2) := by
  unfold nextCommentLine? nextMarker? peek?
  cases hahead : c.ahead with
  | nil => rfl
  | cons d rest =>
    by_cases hd : d = '\n'
    · subst hd
      cases hmarker : marker.isPrefixOf
          (rest.drop (rest.takeWhile Text.isInlineBlank).length) <;> simp [hmarker]
    · split
      · rename_i heq
        exact absurd (List.cons.inj heq).1 hd
      · simp [hd]

theorem Cursor.length_commentLine_le (c : Cursor) (marker : List Char) :
    (c.commentLine marker).2.ahead.length ≤ c.ahead.length := by
  change (c.ahead.drop c.restOfLine.length).length ≤ c.ahead.length
  rw [List.length_drop]
  exact Nat.sub_le _ _

variable {source source' : List Char}

/-- A piece of two texts, at positions that are exchanged for each other, with what comes before and
after it in either. From within it, a grammar sees no difference between the two, unless it looks
for the header of an anchor. -/
structure Window (g : Grammar) (x : Exchange source source') where
  back : List Char
  back' : List Char
  mid : List Char
  rest : List Char
  rest' : List Char
  position : ∀ u, u <+: mid →
    x.position (Position.start.after (back ++ u)) = Position.start.after (back' ++ u)
  clear : ∀ u, u <+: mid → x.clear (Position.start.after (back ++ u)).offset
  ends : rest = [] → rest' = []
  head : rest'.head? = rest.head?
  stop : ∀ d, rest.head? = some d → Text.isInlineBlank d = false
  marks : ∀ t ∈ g.marks, ∀ r, t.isPrefixOf (r ++ rest') = t.isPrefixOf (r ++ rest)
  regexLiteral? : ∀ u r, mid = u ++ r →
    g.regexLiteral? (.between (back' ++ u) (r ++ rest')) =
      g.regexLiteral? (.between (back ++ u) (r ++ rest))
  bodyOpener? : ∀ u r, mid = u ++ r →
    g.bodyOpener? (.between (back' ++ u) (r ++ rest')) =
      g.bodyOpener? (.between (back ++ u) (r ++ rest))
  lineIndent : ∀ u r, mid = u ++ r →
    (Cursor.between (back' ++ u) (r ++ rest')).lineIndent =
      (Cursor.between (back ++ u) (r ++ rest)).lineIndent

/-- A text that has ended goes on with no blank. -/
theorem Text.isInlineBlank_of_head?_nil (d : Char) (h : ([] : List Char).head? = some d) :
    Text.isInlineBlank d = false := by cases h

namespace Window

variable {g : Grammar} {x : Exchange source source'} {w : Window g x}

/-- Two cursors at the same place of a window, in front of the part `r` of it. -/
def At (w : Window g x) (r : List Char) (c c' : Cursor) : Prop :=
  ∃ u, w.mid = u ++ r ∧ c = .between (w.back ++ u) (r ++ w.rest) ∧
    c' = .between (w.back' ++ u) (r ++ w.rest')

/-! ## Lookahead -/

/-- A token that the grammar may look for, as it comes from a list of the grammar by its index. -/
theorem isPrefixOf (w : Window g x) {t : List Char} (ht : t ∈ g.marks ∨ t = []) (r : List Char) :
    t.isPrefixOf (r ++ w.rest') = t.isPrefixOf (r ++ w.rest) := by
  rcases ht with ht | rfl
  · exact w.marks t ht r
  · rfl

theorem mem_marks_lineComment (g : Grammar) (i : Nat) :
    g.lineComment i ∈ g.marks ∨ g.lineComment i = [] :=
  Grammar.getD_induction (P := fun t ↦ t ∈ g.marks ∨ t = [])
    (fun _ h ↦ .inl (Grammar.mem_marks_lineComment h)) (.inr rfl) i

theorem mem_marks_blockComment (g : Grammar) (i : Nat) :
    (g.blockComment i).2 ∈ g.marks ∨ (g.blockComment i).2 = [] :=
  Grammar.getD_induction (P := fun t : List Char × List Char ↦ t.2 ∈ g.marks ∨ t.2 = [])
    (fun _ h ↦ .inl (Grammar.mem_marks_blockComment h).2) (.inr rfl) i

theorem mem_marks_closer (g : Grammar) (i : Nat) :
    (g.delimiter i).closer ∈ g.marks ∨ (g.delimiter i).closer = [] :=
  Grammar.getD_induction (P := fun d : StringDelimiter ↦ d.closer ∈ g.marks ∨ d.closer = [])
    (fun _ h ↦ .inl (Grammar.mem_marks_string h).2) (.inr rfl) i

/-- A run of characters that ends within the window is the same run in both texts. -/
theorem takeWhile_eq {p : Char → Bool} (w : Window g x) (r : List Char)
    (h : ((r ++ w.rest).takeWhile p).length ≤ r.length) :
    (r ++ w.rest').takeWhile p = (r ++ w.rest).takeWhile p := by
  rw [List.takeWhile_append] at h ⊢
  rw [List.takeWhile_append]
  split
  · rename_i hall
    rw [if_pos hall, List.length_append] at h
    have hnil : w.rest.takeWhile p = [] := List.eq_nil_of_length_eq_zero (by omega)
    rw [hnil, List.append_cancel_left_eq]
    have hhead := w.head
    cases hrest' : w.rest' with
    | nil => rfl
    | cons d ds =>
      rw [hrest', List.head?_cons] at hhead
      obtain ⟨es, hes⟩ := List.head?_eq_some_iff.mp hhead.symm
      rw [hes, List.takeWhile_cons] at hnil
      rw [List.takeWhile_cons]
      split
      · rename_i hd
        simp [hd] at hnil
      · rfl
  · rfl

/-- No run of spaces and tabs goes on after the window. -/
theorem inlineBlanks_le (w : Window g x) (r : List Char) :
    ((r ++ w.rest).takeWhile Text.isInlineBlank).length ≤ r.length := by
  rw [List.takeWhile_append]
  split
  · have hnil : w.rest.takeWhile Text.isInlineBlank = [] := by
      cases hrest : w.rest with
      | nil => rfl
      | cons d ds => simp [w.stop d (by rw [hrest]; rfl)]
    rw [hnil, List.append_nil]
  · exact (List.takeWhile_prefix _).length_le

namespace At

variable {r : List Char} {c c' : Cursor} {k : Nat}

theorem ahead (h : w.At r c c') : c.ahead = r ++ w.rest ∧ c'.ahead = r ++ w.rest' := by
  obtain ⟨u, -, rfl, rfl⟩ := h
  exact ⟨rfl, rfl⟩

/-- Where no more of the window is ahead, two cursors are at its end. -/
theorem eq_between (h : w.At r c c') (hahead : c.ahead = w.rest) :
    c = .between (w.back ++ w.mid) w.rest ∧ c' = .between (w.back' ++ w.mid) w.rest' := by
  obtain ⟨u, hmid, rfl, rfl⟩ := h
  have hr : r = [] := List.append_cancel_right (hahead.trans (List.nil_append _).symm)
  rw [hr, List.append_nil] at hmid
  rw [hr, hmid]
  exact ⟨rfl, rfl⟩

theorem clear (h : w.At r c c') : x.clear c.position.offset := by
  obtain ⟨u, hmid, rfl, -⟩ := h
  exact w.clear u (hmid ▸ List.prefix_append u r)

/-- What leaves as much text as comes after the window lies within the window, or the window reaches
to the end. -/
theorem fits (h : w.At r c c') (hle : w.rest.length ≤ (c.consume k).ahead.length) :
    k ≤ r.length ∨ w.rest = [] := by
  rw [Cursor.consume_ahead, List.length_drop, h.ahead.1, List.length_append] at hle
  by_cases hnil : w.rest = []
  · exact .inr hnil
  · have := List.length_pos_iff.mpr hnil
    exact .inl (by omega)

theorem level (h : w.At r c c') (hk : k ≤ r.length ∨ w.rest = []) :
    Cursor.Level x.position k c c' := by
  obtain ⟨u, hmid, rfl, rfl⟩ := h
  have hposition : ∀ v, v <+: r → x.position (Position.start.after (w.back ++ u ++ v)) =
      Position.start.after (w.back' ++ u ++ v) := by
    intro v hv
    rw [List.append_assoc, List.append_assoc]
    refine w.position _ ?_
    rw [hmid]
    exact (List.prefix_append_right_inj u).mpr hv
  have htake : (r ++ w.rest).take k <+: r := by
    rcases hk with hk | hnil
    · rw [List.take_append_of_le_length hk]
      exact List.take_prefix k r
    · rw [hnil, List.append_nil]
      exact List.take_prefix k r
  refine ⟨?_, ?_, ?_⟩
  · have hat := hposition [] List.nil_prefix
    rw [List.append_nil, List.append_nil] at hat
    exact hat.symm
  · change (r ++ w.rest').take k = (r ++ w.rest).take k
    rcases hk with hk | hnil
    · rw [List.take_append_of_le_length hk, List.take_append_of_le_length hk]
    · rw [hnil, w.ends hnil]
  · intro v hv
    have hat := hposition [] List.nil_prefix
    rw [List.append_nil, List.append_nil] at hat
    change x.position ((Position.start.after (w.back ++ u)).after v) = _
    rw [← Position.after_append, hposition v (hv.trans htake), Position.after_append]
    exact congrArg (·.after v) hat.symm

theorem consume (h : w.At r c c') (hk : k ≤ r.length ∨ w.rest = []) :
    w.At (r.drop k) (c.consume k) (c'.consume k) := by
  obtain ⟨u, hmid, rfl, rfl⟩ := h
  refine ⟨u ++ r.take k, by rw [hmid, List.append_assoc, List.take_append_drop], ?_, ?_⟩
  · rw [Cursor.between_consume]
    rcases hk with hk | hnil
    · rw [List.take_append_of_le_length hk, List.drop_append_of_le_length hk, List.append_assoc]
    · rw [hnil, List.append_nil, List.append_nil, List.append_assoc]
  · rw [Cursor.between_consume]
    rcases hk with hk | hnil
    · rw [List.take_append_of_le_length hk, List.drop_append_of_le_length hk, List.append_assoc]
    · rw [w.ends hnil, List.append_nil, List.append_nil, List.append_assoc]

theorem agree (h : w.At r c c') : Cursor.Agree g c c' := by
  intro t ht
  unfold Cursor.startsWith
  rw [h.ahead.1, h.ahead.2, w.marks t ht]

theorem lineIndent (h : w.At r c c') : c'.lineIndent = c.lineIndent := by
  obtain ⟨u, hmid, rfl, rfl⟩ := h
  exact w.lineIndent u r hmid

theorem peek? (h : w.At r c c') : c'.peek? = c.peek? := by
  unfold Cursor.peek?
  rw [h.ahead.1, h.ahead.2, List.head?_append, List.head?_append, w.head]

theorem sees (h : w.At r c c') : Cursor.Sees g c c' := by
  have hpeek := h.peek?
  have hagree := h.agree
  have hindent := h.lineIndent
  obtain ⟨u, hmid, hc, hc'⟩ := h
  exact
    { peek? := hpeek
      commentStart? := hagree.commentStart?
      stringStart? := hagree.stringStart?
      regexLiteral? := by rw [hc, hc', w.regexLiteral? u r hmid]
      blockClose? := hagree.blockClose?
      blockOpen? := hagree.blockOpen?
      bodyOpener? := by rw [hc, hc', w.bodyOpener? u r hmid]
      statementEnd? := hagree.statementEnd?
      lineIndent := hindent }

theorem restOfLine (h : w.At r c c') (hk : c.restOfLine.length ≤ r.length ∨ w.rest = []) :
    c'.restOfLine = c.restOfLine := by
  unfold Cursor.restOfLine at hk ⊢
  rw [h.ahead.1] at hk ⊢
  rw [h.ahead.2]
  rcases hk with hk | hnil
  · exact w.takeWhile_eq r hk
  · rw [hnil, w.ends hnil]

end At

/-! ## Literals and block comments -/

section

variable {d : StringDelimiter} (hcloser : d.closer ∈ g.marks ∨ d.closer = [])
include hcloser

/-- A literal that ends where the window does ends with the line. -/
theorem tail_eq_nil (w : Window g x) (hne : w.rest ≠ []) (hfit : (d.tail w.rest).1 ≤ 0) :
    d.tail w.rest' = d.tail w.rest := by
  obtain ⟨c, cs, hrest⟩ := List.exists_cons_of_ne_nil hne
  obtain ⟨cs', hrest'⟩ : ∃ cs', w.rest' = c :: cs' :=
    List.head?_eq_some_iff.mp (w.head.trans (by rw [hrest]; rfl))
  have hclose := w.isPrefixOf hcloser []
  rw [List.nil_append, List.nil_append, hrest, hrest'] at hclose
  rw [hrest] at hfit
  rw [hrest, hrest']
  by_cases hescape : d.escape = some c
  · cases cs with
    | nil => simp [StringDelimiter.tail, hescape] at hfit
    | cons c' cs => simp [StringDelimiter.tail_of_escape hescape] at hfit
  · rw [StringDelimiter.tail_of_not_escape hescape] at hfit
    rw [StringDelimiter.tail_of_not_escape hescape, StringDelimiter.tail_of_not_escape hescape,
      hclose]
    split at hfit
    · rename_i hends
      rw [if_pos hends, if_pos hends]
    · rename_i hends
      rw [if_neg hends, if_neg hends]
      split at hfit
      · rename_i hline
        rw [if_pos hline, if_pos hline]
      · cases hfit

/-- A literal passes over a character in both texts alike. -/
theorem tail_eq_cons (w : Window g x) {c : Char} {r : List Char} (hescape : d.escape ≠ some c)
    (hfit : (d.tail (c :: r ++ w.rest)).1 ≤ (c :: r).length)
    (ih : (d.tail (r ++ w.rest)).1 ≤ r.length → d.tail (r ++ w.rest') = d.tail (r ++ w.rest)) :
    d.tail (c :: r ++ w.rest') = d.tail (c :: r ++ w.rest) := by
  have hclose := w.isPrefixOf hcloser (c :: r)
  rw [List.cons_append, List.cons_append] at hclose
  rw [List.cons_append, StringDelimiter.tail_of_not_escape hescape] at hfit
  rw [List.cons_append, List.cons_append, StringDelimiter.tail_of_not_escape hescape,
    StringDelimiter.tail_of_not_escape hescape, hclose]
  split
  · rfl
  rename_i hends
  rw [if_neg hends] at hfit
  split
  · rfl
  rename_i hline
  rw [if_neg hline] at hfit
  rw [ih (Nat.le_of_succ_le_succ hfit)]

/-- A literal that ends within the window ends in the same way in both texts. -/
theorem tail_eq (w : Window g x) (r : List Char)
    (hfit : (d.tail (r ++ w.rest)).1 ≤ r.length ∨ w.rest = []) :
    d.tail (r ++ w.rest') = d.tail (r ++ w.rest) := by
  by_cases hne : w.rest = []
  · rw [hne, w.ends hne]
  replace hfit := hfit.resolve_right hne
  induction r using List.twoStepInduction with
  | nil => exact w.tail_eq_nil hcloser hne hfit
  | singleton c =>
    by_cases hescape : d.escape = some c
    · -- the escaped character comes after the window
      obtain ⟨e, es, hrest⟩ := List.exists_cons_of_ne_nil hne
      rw [hrest, List.singleton_append, StringDelimiter.tail_of_escape hescape,
        List.length_singleton] at hfit
      omega
    · exact w.tail_eq_cons hcloser hescape hfit (w.tail_eq_nil hcloser hne)
  | cons_cons c e r ih ih' =>
    by_cases hescape : d.escape = some c
    · simp only [List.cons_append, StringDelimiter.tail_of_escape hescape, List.length_cons]
        at hfit ⊢
      rw [ih (by omega)]
    · exact w.tail_eq_cons hcloser hescape hfit (ih' e)

end

/-- A block comment whose closer lies within the window has the same content in both texts. -/
theorem blockContent_eq (w : Window g x) {closer : List Char}
    (hcloser : closer ∈ g.marks ∨ closer = []) (r : List Char)
    (hfit : (blockContent closer (r ++ w.rest)).1.length +
      (if (blockContent closer (r ++ w.rest)).2 then closer.length else 0) ≤ r.length ∨
        w.rest = []) :
    blockContent closer (r ++ w.rest') = blockContent closer (r ++ w.rest) := by
  by_cases hne : w.rest = []
  · rw [hne, w.ends hne]
  replace hfit := hfit.resolve_right hne
  induction r with
  | nil =>
    obtain ⟨c, cs, hrest⟩ := List.exists_cons_of_ne_nil hne
    rw [List.nil_append, hrest, blockContent] at hfit
    split at hfit
    · rename_i hclose
      rw [if_pos rfl, List.length_nil, Nat.zero_add, Nat.le_zero, List.length_eq_zero_iff] at hfit
      simp [hfit] at hclose
    · simp only [List.length_cons, List.length_nil] at hfit
      omega
  | cons c r ih =>
    have hclose := w.isPrefixOf hcloser (c :: r)
    rw [List.cons_append, List.cons_append] at hclose
    rw [List.cons_append, blockContent] at hfit
    rw [List.cons_append, List.cons_append, blockContent, blockContent, hclose]
    split
    · rfl
    rename_i hends
    rw [if_neg hends] at hfit
    simp only [List.length_cons] at hfit
    rw [ih (by omega)]

namespace At

variable {r : List Char} {c c' : Cursor} {k : Nat}

theorem tail (h : w.At r c c') (i : Nat)
    (hfit : (g.delimiter i).opener.length +
      ((g.delimiter i).tail (c.ahead.drop (g.delimiter i).opener.length)).1 ≤ r.length ∨
        w.rest = []) :
    (g.delimiter i).tail (c'.ahead.drop (g.delimiter i).opener.length) =
      (g.delimiter i).tail (c.ahead.drop (g.delimiter i).opener.length) := by
  generalize hd : g.delimiter i = d at hfit
  have hcloser := mem_marks_closer g i
  rw [hd] at hcloser
  rw [h.ahead.1] at hfit ⊢
  rw [h.ahead.2]
  rcases hfit with hfit | hnil
  · have hopener : d.opener.length ≤ r.length := by omega
    rw [List.drop_append_of_le_length hopener] at hfit ⊢
    rw [List.drop_append_of_le_length hopener]
    exact w.tail_eq hcloser _ (.inl (by rw [List.length_drop]; omega))
  · rw [hnil, w.ends hnil]

/-- A block comment that ends within the window has the same content in both texts. -/
theorem blockContent (h : w.At r c c') (i : Nat) (opener : List Char)
    (hfit : opener.length +
      ((blockContent (g.blockComment i).2 (c.ahead.drop opener.length)).1.length +
        if (blockContent (g.blockComment i).2 (c.ahead.drop opener.length)).2 then
          (g.blockComment i).2.length else 0) ≤ r.length ∨ w.rest = []) :
    Marginalia.blockContent (g.blockComment i).2 (c'.ahead.drop opener.length) =
      Marginalia.blockContent (g.blockComment i).2 (c.ahead.drop opener.length) := by
  rw [h.ahead.1] at hfit ⊢
  rw [h.ahead.2]
  rcases hfit with hfit | hnil
  · have hopener : opener.length ≤ r.length := by omega
    rw [List.drop_append_of_le_length hopener] at hfit ⊢
    rw [List.drop_append_of_le_length hopener]
    exact w.blockContent_eq (mem_marks_blockComment g i) _
      (.inl (by rw [List.length_drop]; omega))
  · rw [hnil, w.ends hnil]

/-! ## Line comments -/

/-- A line of a comment that ends within the window is the same line in both texts. -/
theorem commentLine (h : w.At r c c') (marker : List Char)
    (hle : w.rest.length ≤ (c.commentLine marker).2.ahead.length) :
    (c'.commentLine marker).1 = (c.commentLine marker).1.relocate x.position ∧
      (c.commentLine marker).1.Steady x.position ∧
      ∃ r', w.At r' (c.commentLine marker).2 (c'.commentLine marker).2 := by
  have hfit : c.restOfLine.length ≤ r.length ∨ w.rest = [] := h.fits hle
  have hline := h.restOfLine hfit
  have hlevel := h.level hfit
  have hsteady : c.position.Steady x.position c.restOfLine := by
    have hprefix : c.ahead.take c.restOfLine.length = c.restOfLine :=
      (List.prefix_iff_eq_take.mp (List.takeWhile_prefix _)).symm
    exact hprefix ▸ hlevel.steady
  obtain ⟨hstrip, hsteady'⟩ := CommentLine.relocate_strip hsteady
    (Comment.lineDecoration marker c.restOfLine)
  unfold Cursor.commentLine
  rw [hline, hlevel.position]
  exact ⟨hstrip, hsteady', _, h.consume hfit⟩

/-- The next line of a comment starts at the same place in both texts. -/
theorem nextMarker? (h : w.At r c c') {marker : List Char}
    (hmarker : marker ∈ g.marks ∨ marker = []) (hr : r ≠ [] ∨ w.rest = []) :
    c'.nextMarker? marker = c.nextMarker? marker := by
  unfold Cursor.nextMarker?
  rw [h.peek?, h.ahead.1, h.ahead.2]
  cases r with
  | nil =>
    have hnil := hr.resolve_left fun hne ↦ hne rfl
    rw [hnil, w.ends hnil]
  | cons d r =>
    have hle := w.inlineBlanks_le r
    have hstart : marker.isPrefixOf ((r ++ w.rest').drop
          ((r ++ w.rest).takeWhile Text.isInlineBlank).length) =
        marker.isPrefixOf ((r ++ w.rest).drop
          ((r ++ w.rest).takeWhile Text.isInlineBlank).length) := by
      rw [List.drop_append_of_le_length hle, List.drop_append_of_le_length hle]
      exact w.isPrefixOf hmarker _
    simp only [List.cons_append, List.tail_cons, w.takeWhile_eq r hle, hstart]
    rfl

/-- A cursor that has more text ahead than comes after the window is in front of some of it. -/
theorem inside (h : w.At r c c') (hlt : w.rest.length < c.ahead.length ∨ w.rest = []) :
    r ≠ [] ∨ w.rest = [] := by
  refine hlt.imp_left ?_
  rintro hlt rfl
  rw [h.ahead.1, List.nil_append] at hlt
  exact Nat.lt_irrefl _ hlt

end At

/-- Lines of a comment that have been read in either text, up to a place of the window. -/
def Lines (w : Window g x) (st st' : List CommentLine × Cursor) : Prop :=
  st'.1 = st.1.map (·.relocate x.position) ∧ (∀ l ∈ st.1, l.Steady x.position) ∧
    ∃ r, w.At r st.2 st'.2

namespace Lines

variable {marker : List Char} {st st' e : List CommentLine × Cursor}

/-- The line that is read next is the same one in both texts. -/
theorem append {r : List Char} {c c' : Cursor} {ls ls' : List CommentLine}
    (hls : ls' = ls.map (·.relocate x.position)) (hsteady : ∀ l ∈ ls, l.Steady x.position)
    (h : w.At r c c') (marker : List Char)
    (hle : w.rest.length ≤ (c.commentLine marker).2.ahead.length) :
    w.Lines (ls ++ [(c.commentLine marker).1], (c.commentLine marker).2)
      (ls' ++ [(c'.commentLine marker).1], (c'.commentLine marker).2) := by
  obtain ⟨hline, hlsteady, hat⟩ := h.commentLine marker hle
  refine ⟨by rw [hls, List.map_append, hline]; rfl, ?_, hat⟩
  intro l hl
  rcases List.mem_append.mp hl with hl | hl
  · exact hsteady l hl
  · exact List.mem_singleton.mp hl ▸ hlsteady

theorem next (h : w.Lines st st') (hmarker : marker ∈ g.marks ∨ marker = [])
    (he : Cursor.nextCommentLine? marker st = some e) (hle : w.rest.length ≤ e.2.ahead.length) :
    ∃ e', Cursor.nextCommentLine? marker st' = some e' ∧ w.Lines e e' := by
  have hlt : w.rest.length < st.2.ahead.length :=
    hle.trans_lt (Cursor.descends_nextCommentLine? marker _ _ he)
  obtain ⟨ls, c⟩ := st
  obtain ⟨ls', c'⟩ := st'
  obtain ⟨hls, hsteady, r, hat⟩ := h
  rw [Cursor.nextCommentLine?_eq] at he ⊢
  rw [hat.nextMarker? hmarker (hat.inside (.inl hlt))]
  obtain ⟨k, hk, rfl⟩ := Option.map_eq_some_iff.mp he
  rw [hk]
  have hahead := (c.consume k).length_commentLine_le marker
  exact ⟨_, rfl, append hls hsteady (hat.consume (hat.fits (hle.trans hahead))) marker hle⟩

theorem stop (h : w.Lines st st') (hmarker : marker ∈ g.marks ∨ marker = [])
    (hlt : w.rest.length < st.2.ahead.length ∨ w.rest = [])
    (he : Cursor.nextCommentLine? marker st = none) :
    Cursor.nextCommentLine? marker st' = none := by
  obtain ⟨ls, c⟩ := st
  obtain ⟨ls', c'⟩ := st'
  obtain ⟨-, -, r, hat⟩ := h
  rw [Cursor.nextCommentLine?_eq] at he ⊢
  rw [hat.nextMarker? hmarker (hat.inside hlt), Option.map_eq_none_iff.mp he]
  rfl

end Lines

/-- The lines of a comment that ends within the window are the same lines in both texts. -/
theorem At.lineComments {r : List Char} {c c' : Cursor} (h : w.At r c c') {marker : List Char}
    (hmarker : marker ∈ g.marks ∨ marker = [])
    (hlt : w.rest.length < (c.lineComments marker).2.ahead.length ∨ w.rest = []) :
    w.Lines (c.lineComments marker) (c'.lineComments marker) := by
  have hle : w.rest.length ≤ (c.lineComments marker).2.ahead.length := by
    rcases hlt with hlt | hnil
    · omega
    · simp [hnil]
  have hrun := Cursor.runsTo_lineComments c marker
  have hback : ∀ {st}, Reaches (Cursor.nextCommentLine? marker) st (c.lineComments marker) →
      w.rest.length ≤ st.2.ahead.length := fun hst ↦
    hle.trans ((Cursor.descends_nextCommentLine? marker).le_of_reaches hst)
  have hfirst : w.Lines (c.firstCommentLine marker) (c'.firstCommentLine marker) := by
    have hline := hback hrun.1
    have hahead := (c.consume marker.length).length_commentLine_le marker
    exact Lines.append List.map_nil.symm (List.forall_mem_nil _)
      (h.consume (h.fits (hline.trans hahead))) marker hline
  obtain ⟨e, e', -, hlast, hreach, hlines, hstop⟩ := hrun.1.follow w.Lines (fun _ ↦ False)
    (fun a b a' ha _ hab hb ↦ ha.next hmarker hab (hback hb)) hfirst
  obtain rfl := hstop.resolve_right id
  have hend := hlines.stop hmarker hlt hrun.2
  rw [Cursor.lineComments_eq_of_runsTo ⟨hreach, hend⟩]
  exact hlines

/-! ## Passes -/

/-- Two passes that are abreast, at the same place of the window. -/
structure Beside (w : Window g x) (p q : Pass) : Prop where
  abreast : Pass.Abreast x g p q
  place : ∃ r, w.At r p.cursor q.cursor

end Window

namespace Pass

variable {s : Setup} {g : Grammar} {p u : Pass}

theorem skip_eq_of_runsTo (h : RunsTo (skipStep s) (p.consume 1).markEnd u) :
    p.skip s = { u with mode := .code } := by
  unfold skip
  dsimp only
  rw [(descends_skipStep s).iterate_eq (Nat.le_refl _) h]

/-- Where a literal starts, it is what is skipped. -/
theorem Skips.eq_literal {i : Nat} (h : p.Skips s u) (hi : s.grammar.stringStart? p.cursor = some i) :
    u = (p.literal s.grammar i).markEnd ∧
      ∃ c, p.cursor.peek? = some c ∧ p.skipEnds s c = false := by
  cases h with
  | literal peek goesOn found =>
    obtain rfl := Option.some.inj (found.symm.trans hi)
    exact ⟨rfl, _, peek, goesOn⟩
  | regex peek goesOn string found => cases string.symm.trans hi
  | blank peek goesOn string regex blank => cases string.symm.trans hi
  | char peek goesOn string regex blank => cases string.symm.trans hi

end Pass

namespace Window

variable {s : Setup} {x : Exchange source source'} {w : Window s.grammar x}

open Pass (step skipStep start)

namespace Beside

variable {p q p' e : Pass}

/-- What is done to the passes that leaves the cursors at the same place. -/
theorem of_consume (hplace : ∃ r, w.At r p.cursor q.cursor) {k : Nat} {q' : Pass}
    (h : Pass.Abreast x s.grammar p' q') (hp : p'.cursor = p.cursor.consume k)
    (hq : q'.cursor = q.cursor.consume k) (hle : w.rest.length ≤ p'.cursor.ahead.length) :
    w.Beside p' q' := by
  obtain ⟨r, hat⟩ := hplace
  refine ⟨h, r.drop k, ?_⟩
  rw [hp] at hle
  rw [hp, hq]
  exact hat.consume (hat.fits hle)

/-! ### Skipped code -/

theorem skipStep (h : w.Beside p q) (hstep : skipStep s p = some p')
    (hle : w.rest.length ≤ p'.cursor.ahead.length) :
    ∃ q', Pass.skipStep s q = some q' ∧ w.Beside p' q' := by
  obtain ⟨habreast, r, hat⟩ := h
  have hlevel : ∀ k, p'.cursor = p.cursor.consume k →
      Cursor.Level x.position k p.cursor q.cursor := by
    intro k hk
    rw [hk] at hle
    exact hat.level (hat.fits hle)
  have hliteral : ∀ i, s.grammar.stringStart? p.cursor = some i →
      (s.grammar.delimiter i).tail (q.cursor.ahead.drop (s.grammar.delimiter i).opener.length) =
        (s.grammar.delimiter i).tail
          (p.cursor.ahead.drop (s.grammar.delimiter i).opener.length) := by
    intro i hi
    refine hat.tail i (hat.fits ?_)
    rw [((Pass.skipStep_eq_some_iff.mp hstep).eq_literal hi).1, Pass.literal_eq] at hle
    exact hle
  obtain ⟨q', hq', habreast', k, hk, hk'⟩ :=
    habreast.skipStep hat.sees hstep hliteral hlevel
  exact ⟨q', hq', of_consume ⟨r, hat⟩ habreast' hk hk' hle⟩

/-- Code that is skipped within the window is skipped alike in both texts. -/
theorem skipped (h : w.Beside p q) (hrun : Reaches (Pass.skipStep s) p e)
    (hle : w.rest.length ≤ e.cursor.ahead.length) :
    ∃ q', Reaches (Pass.skipStep s) q q' ∧ w.Beside e q' := by
  obtain ⟨e₁, q', -, -, hreach, hbeside, hend⟩ := hrun.follow w.Beside (fun _ ↦ False)
    (fun a b a' ha _ hab hbe ↦ ha.skipStep hab
      (hle.trans ((Pass.descends_skipStep s).le_of_reaches hbe))) h
  obtain rfl := hend.resolve_right id
  exact ⟨q', hreach, hbeside⟩

theorem skipFirst (h : w.Beside p q)
    (hle : w.rest.length ≤ (p.consume 1).markEnd.cursor.ahead.length) :
    w.Beside (p.consume 1).markEnd (q.consume 1).markEnd := by
  obtain ⟨habreast, r, hat⟩ := h
  have hfits : 1 ≤ r.length ∨ w.rest = [] := hat.fits hle
  exact ⟨(habreast.consume 1 1).markEnd ((hat.level hfits).consume_position (Nat.le_refl 1)),
    _, hat.consume hfits⟩

theorem toCode (h : w.Beside p q) : w.Beside { p with mode := .code } { q with mode := .code } :=
  ⟨{ h.abreast with mode := rfl, comment := fun c hc ↦ by cases hc }, h.place⟩

theorem skip (h : w.Beside p q) (hle : w.rest.length ≤ (p.skip s).cursor.ahead.length) :
    w.Beside (p.skip s) (q.skip s) := by
  have hrun : RunsTo (Pass.skipStep s) (p.consume 1).markEnd _ :=
    (Pass.descends_skipStep s).runsTo_iterate (Nat.le_refl _)
  rw [Pass.skip_eq_of_runsTo hrun] at hle ⊢
  generalize iterate _ _ _ = u at hrun hle ⊢
  replace hle : w.rest.length ≤ u.cursor.ahead.length := hle
  have hfirst := h.skipFirst (hle.trans ((Pass.descends_skipStep s).le_of_reaches hrun.1))
  obtain ⟨u', hreach, hbeside⟩ := hfirst.skipped hrun.1 hle
  obtain ⟨r, hat⟩ := hbeside.place
  rw [Pass.skip_eq_of_runsTo ⟨hreach, hbeside.abreast.skipStep_none hat.sees hrun.2⟩]
  exact hbeside.toCode

/-! ### Steps -/

/-- The two passes read headers of anchors alike: the same one, or none. -/
structure ReadsAlike (g : Grammar) (p q : Pass) : Prop where
  anchor : ∀ a, (p.atToken g).tokenAhead g = .anchor a →
    ∃ a', g.recognise? q.cursor.ahead (p.atToken g).assembly.enclosingKind? = some a' ∧
      a'.kind = a.kind ∧ a'.name = a.name ∧
      a'.headerLength q.cursor.ahead = a.headerLength p.cursor.ahead
  plain : (p.atToken g).tokenAhead g = .plain →
    g.recognise? q.cursor.ahead (p.atToken g).assembly.enclosingKind? = none

/-- Where the texts ahead are the same, so are the headers. -/
theorem readsAlike_of_ahead {g : Grammar} (hahead : q.cursor.ahead = p.cursor.ahead) :
    ReadsAlike g p q := by
  obtain ⟨hanchor, hplain⟩ := (p.atToken g).recognise?_of_tokenAhead g
  rw [Pass.atToken_cursor] at hanchor hplain
  rw [← hahead] at hanchor hplain
  exact ⟨fun a ha ↦ ⟨a, hanchor a ha, rfl, rfl, by rw [hahead]⟩, hplain⟩

/-- Headers are read alike in two texts that start alike, if what follows does not matter to
them. -/
theorem readsAlike_of_extend {g : Grammar} {text more more' : List Char}
    (hahead : p.cursor.ahead = text ++ more) (hahead' : q.cursor.ahead = text ++ more')
    (h : ∀ more, g.recognise? (text ++ more) (p.atToken g).assembly.enclosingKind? =
      (g.recognise? text (p.atToken g).assembly.enclosingKind?).map (·.extend more)) :
    ReadsAlike g p q := by
  obtain ⟨hanchor, hplain⟩ := (p.atToken g).recognise?_of_tokenAhead g
  rw [Pass.atToken_cursor, hahead, h] at hanchor hplain
  rw [Option.map_eq_none_iff] at hplain
  refine ⟨fun a ha ↦ ?_, fun hp ↦ by rw [hahead', h, hplain hp]; rfl⟩
  obtain ⟨r, hr, rfl⟩ := Option.map_eq_some_iff.mp (hanchor a ha)
  refine ⟨r.extend more', by rw [hahead', h, hr]; rfl, rfl, rfl, ?_⟩
  rw [hahead, hahead', Recognition.headerLength_extend, Recognition.headerLength_extend]

theorem token (h : w.Beside p q) (hreg : p.Regular s.grammar source) (hp : p.Settled)
    (hread : ReadsAlike s.grammar p q) {t : Token} (ht : (p.atToken s.grammar).Ahead s.grammar t)
    (hle : w.rest.length ≤
      ((p.atToken s.grammar).take s.grammar t).markEnd.cursor.ahead.length) :
    ∃ t', (q.atToken s.grammar).Ahead s.grammar t' ∧
      w.Beside ((p.atToken s.grammar).take s.grammar t).markEnd
        ((q.atToken s.grammar).take s.grammar t').markEnd := by
  obtain ⟨habreast, r, hat⟩ := h
  obtain rfl := Pass.ahead_iff.mp ht
  have hcursor := p.take_atToken_cursor s.grammar ((p.atToken s.grammar).tokenAhead s.grammar)
  have hfits := hle
  rw [show Pass.cursor (Pass.markEnd _) = _ from hcursor] at hfits
  have halike : Token.Alike s.grammar p.cursor.ahead q.cursor.ahead
      ((p.atToken s.grammar).tokenAhead s.grammar)
      ((q.atToken s.grammar).tokenAhead s.grammar) := by
    have halike := (habreast.atToken hat.lineIndent).tokenAhead
    simp only [Pass.atToken_cursor] at halike
    refine halike hat.sees (fun i hi ↦ hat.tail i (hat.fits ?_)) hread.anchor hread.plain
    rw [hi, Pass.tokenLength, Pass.literalLength, Pass.atToken_cursor] at hfits
    exact hfits
  obtain ⟨htoken, hlength⟩ :=
    habreast.token (Pass.atToken_moves hreg hp).2.1.contexts hat.lineIndent halike
    (hat.level (hat.fits hfits)) hat.clear
  exact ⟨_, Pass.ahead_tokenAhead _ _, of_consume ⟨r, hat⟩ htoken hcursor
    (hlength ▸ q.take_atToken_cursor s.grammar _) hle⟩

theorem readComment (h : w.Beside p q) {form : CommentForm}
    (hlt : w.rest.length < (p.readComment s.grammar form).cursor.ahead.length ∨ w.rest = []) :
    w.Beside (p.readComment s.grammar form) (q.readComment s.grammar form) := by
  obtain ⟨habreast, r, hat⟩ := h
  have hle : w.rest.length ≤ (p.readComment s.grammar form).cursor.ahead.length := by
    rcases hlt with hlt | hnil
    · exact hlt.le
    · simp [hnil]
  cases form with
  | line i =>
    have hcursor := p.readComment_line_cursor s.grammar i
    have hcursor' := q.readComment_line_cursor s.grammar i
    rw [hcursor] at hlt
    obtain ⟨hlines, hsteady, r', hat'⟩ := hat.lineComments (mem_marks_lineComment s.grammar i) hlt
    refine ⟨?_, r', by rwa [hcursor, hcursor']⟩
    have hread : p.cursor.lineComments (s.grammar.lineComment i) =
        ((p.cursor.lineComments (s.grammar.lineComment i)).1,
          (p.cursor.lineComments (s.grammar.lineComment i)).2) := rfl
    refine habreast.lineComment hread (Prod.ext hlines rfl)
      (hat.level (k := 0) (.inl (Nat.zero_le _))).position ?_ hat'.clear hsteady
    exact (hat'.level (k := 0) (.inl (Nat.zero_le _))).position
  | block i =>
    have hcursor := p.readComment_block_cursor s.grammar i
    have hfits := hle
    rw [hcursor] at hfits
    have hfound : q.blockFound (s.grammar.blockComment i).1 (s.grammar.blockComment i).2 =
        p.blockFound (s.grammar.blockComment i).1 (s.grammar.blockComment i).2 :=
      hat.blockContent i _ (hat.fits hfits)
    have hcursor' : (q.readComment s.grammar (.block i)).cursor = q.cursor.consume
        (p.blockLength (s.grammar.blockComment i).1 (s.grammar.blockComment i).2) := by
      rw [q.readComment_block_cursor, Pass.blockLength, hfound]
      rfl
    have hat' := hat.consume (hat.fits hfits)
    exact of_consume ⟨r, hat⟩ (habreast.blockComment hfound (hat.level (hat.fits hfits)) hat'.clear)
      hcursor hcursor' hle

/-- A step of the one pass is followed by a step of the other one. -/
theorem step (h : w.Beside p q) (hp : Reaches (step s) (start s source) p)
    (hstep : Pass.step s p = some p') (hread : p.mode = .code →
      (∀ c, p.cursor.peek? = some c → Text.isBlank c = false) → ReadsAlike s.grammar p q)
    (hle : w.rest.length ≤ p'.cursor.ahead.length)
    (hcomment : ∀ c, p'.mode = .tags c → w.rest.length < p'.cursor.ahead.length ∨ w.rest = []) :
    ∃ q', Pass.step s q = some q' ∧ w.Beside p' q' := by
  obtain ⟨r, hat⟩ := h.place
  have hmode : ∀ {m : Mode}, p.mode = m → q.mode = m.relocate x.position :=
    fun hm ↦ h.abreast.mode.trans (congrArg _ hm)
  suffices hsuffices : ∃ q', q.Advances s q' ∧ w.Beside p' q' by
    obtain ⟨q', hq', hbeside⟩ := hsuffices
    exact ⟨q', Pass.step_eq_some_iff.mpr hq', hbeside⟩
  cases Pass.step_eq_some_iff.mp hstep with
  | comment mode =>
    obtain ⟨c, hc⟩ := (Pass.readComment_progress (Pass.atComment_of_reaches hp _ mode)).2
    exact ⟨_, .comment (hmode mode), h.readComment (hcomment c hc)⟩
  | tags mode =>
    have hcursor : ∀ (p : Pass) (c : Comment), (p.placeTags s.registry c).cursor = p.cursor :=
      fun p c ↦ by rw [Pass.placeTags_eq]; rfl
    exact ⟨_, .tags (hmode mode), h.abreast.placeTags mode s.registry, r,
      by rwa [hcursor, hcursor]⟩
  | newline mode peek =>
    exact ⟨_, .newline (hmode mode) (hat.peek?.trans peek),
      of_consume h.place (h.abreast.consume 1 1).afterNewline (p.take_cursor s.grammar .newline)
        (q.take_cursor s.grammar .newline) hle⟩
  | blank mode peek inline blank =>
    exact ⟨_, .blank (hmode mode) (hat.peek?.trans peek) inline blank,
      of_consume h.place (h.abreast.consume 1 1) rfl rfl hle⟩
  | token mode peek blank ahead =>
    have hblank : ∀ c, p.cursor.peek? = some c → Text.isBlank c = false :=
      fun c hc ↦ Option.some.inj (peek.symm.trans hc) ▸ blank
    obtain ⟨t', ht', hbeside⟩ := h.token (Pass.reaches_moves hp).2
      (Pass.settled_of_mode mode (by simp)) (hread mode hblank) ahead hle
    exact ⟨_, .token (hmode mode) (hat.peek?.trans peek) blank ht', hbeside⟩
  | skip mode peek => exact ⟨_, .skip (hmode mode) (hat.peek?.trans peek), h.skip hle⟩

/-- Within a window, one scan follows the other one, as long as it reads the headers of anchors
alike and no comment ends with the window. -/
theorem reaches (h : w.Beside p q) (hp : Reaches (Pass.step s) (start s source) p)
    (hpe : Reaches (Pass.step s) p e) (hle : w.rest.length ≤ e.cursor.ahead.length)
    (hread : ∀ a b a', Reaches (Pass.step s) (start s source) a → Pass.step s a = some b →
      Reaches (Pass.step s) b e → a.mode = .code →
      (∀ c, a.cursor.peek? = some c → Text.isBlank c = false) → w.Beside a a' →
      ReadsAlike s.grammar a a')
    (hcomment : ∀ b c, Reaches (Pass.step s) (start s source) b → Reaches (Pass.step s) b e →
      b.mode = .tags c → w.rest.length < b.cursor.ahead.length ∨ w.rest = []) :
    ∃ q', Reaches (Pass.step s) q q' ∧ w.Beside e q' := by
  obtain ⟨e₁, q', -, -, hreach, hbeside, hend⟩ := hpe.follow
    (fun a a' ↦ Reaches (Pass.step s) (start s source) a ∧ w.Beside a a') (fun _ ↦ False)
    (fun a b a' ha _ hab hbe ↦ by
      obtain ⟨ha, hbeside⟩ := ha
      have hb : Reaches (Pass.step s) (start s source) b := ha.trans (.head hab (.refl b))
      have hahead := Pass.length_ahead_le_of_reaches (Pass.atComment_of_reaches hb) hbe
      obtain ⟨b', hab', hb'⟩ := hbeside.step ha hab (fun hmode hblank ↦
        hread a b a' ha hab hbe hmode hblank hbeside) (hle.trans hahead)
        (fun c hc ↦ hcomment b c hb hbe hc)
      exact ⟨b', hab', hb, hb'⟩) ⟨hp, h⟩
  obtain rfl := hend.resolve_right id
  exact ⟨q', hreach, hbeside.2⟩

/-- Passes that are at the same place of a window that reaches to the end of both texts find the
same in the end. -/
theorem findings (h : w.Beside p q) (hp : Reaches (Pass.step s) (start s source) p)
    (hq : Reaches (Pass.step s) (start s source') q) (hend : w.rest = []) :
    s.scan source' = (s.scan source).relocate x.position := by
  have hrun := Pass.step_run (Pass.atComment_start s source)
  have hreach := hp.to_end (Pass.reaches_run s _) hrun
  obtain ⟨q', hqq', habreast, r, hat⟩ := h.reaches hp hreach (by simp [hend])
    (fun a b a' _ _ _ _ _ ha ↦ by
      obtain ⟨r, hat⟩ := ha.place
      refine readsAlike_of_ahead ?_
      rw [hat.ahead.1, hat.ahead.2, hend, w.ends hend])
    (fun _ _ _ _ _ ↦ .inr hend)
  have hreg := (Pass.reaches_moves (Pass.reaches_run s (start s source))).2
  have hstop : Pass.step s q' = none := by
    obtain ⟨hnil, hmode⟩ := Pass.ahead_eq_nil_of_step_eq_none hrun
    have hatEnd : q'.cursor.atEnd = true := by
      rw [Cursor.atEnd_eq, hat.peek?, ← Cursor.atEnd_eq, Cursor.atEnd, hnil]
      rfl
    unfold Pass.step
    rw [habreast.mode]
    rcases hmode with hmode | hmode <;> simp [hmode, Mode.relocate, hatEnd]
  have hlast := Pass.run_eq_of_reaches (Pass.atComment_start s source') (hq.trans hqq') hstop
  rw [Setup.scan, Setup.scan, hlast]
  exact habreast.findings hreg.contexts (hat.level (k := 0) (.inl (Nat.zero_le _))).position

end Beside

end Window

end Marginalia
