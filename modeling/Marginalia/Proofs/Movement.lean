import Marginalia.Proofs.Gaps
import Marginalia.Proofs.Loops
import Marginalia.Proofs.Placement

/-!
# How far a cursor moves

To move by a count of bytes is a loop: one character after the other is consumed until the sum of
offset and count is reached. The loop stops where it should, at the end of a character and no
further than the end of the text. It is the sum that can fail: it is a sum of words, made before the
end of the text is looked at, so the largest count is too large for any cursor that has left the
start. Positions are counted in words too, but there the text runs out before the words do.
-/

namespace Marginalia

namespace Text

variable {source : List Char} {n : Nat}

/-! ## Places to stop at -/

/-- Where a move towards an offset is to stop: at the first place of the text at or after it, or at
the end of the text if that is nearer. -/
structure IsStop (source : List Char) (target stop : Nat) : Prop where
  place : IsPlace source stop
  reached : target ≤ stop ∨ stop = byteSize source
  first : ∀ k, IsPlace source k → target ≤ k → stop ≤ k

theorem charsCovering_cons (hn : 0 < n) (c : Char) (cs : List Char) :
    charsCovering n (c :: cs) = charsCovering (n - c.utf8Size) cs + 1 := by
  cases n with
  | zero => omega
  | succ n => rfl

/-- The characters of a start that is covered as a whole come first. -/
theorem charsCovering_append (s t : List Char) (n : Nat) :
    charsCovering (byteSize s + n) (s ++ t) = s.length + charsCovering n t := by
  induction s with
  | nil => simp
  | cons c cs ih =>
    have hpos := c.utf8Size_pos
    have hrest : byteSize (c :: cs) + n - c.utf8Size = byteSize cs + n := by
      rw [byteSize_cons]
      omega
    rw [List.cons_append, charsCovering_cons (by rw [byteSize_cons]; omega), hrest, ih,
      List.length_cons]
    omega

end Text

namespace Position

/-! ## Positions in words -/

variable {p q : Position} {s t : List Char}

theorem step_line_le (p : Position) (c : Char) : (p.step c).line ≤ p.line + c.utf8Size := by
  have hpos := c.utf8Size_pos
  unfold step
  split <;> dsimp only <;> omega

theorem step_column_le (p : Position) (c : Char) :
    (p.step c).column ≤ p.column + c.utf8Size := by
  have hpos := c.utf8Size_pos
  unfold step
  split <;> dsimp only <;> omega

/-- No line or column counts more than the bytes of the text. -/
theorem after_le (p : Position) (s : List Char) :
    (p.after s).line ≤ p.line + Text.byteSize s ∧
      (p.after s).column ≤ p.column + Text.byteSize s := by
  induction s generalizing p with
  | nil => exact ⟨Nat.le_refl _, Nat.le_refl _⟩
  | cons c cs ih =>
    obtain ⟨hline, hcolumn⟩ := ih (p.step c)
    have hstepLine := p.step_line_le c
    have hstepColumn := p.step_column_le c
    rw [after_cons, Text.byteSize_cons]
    omega

/-- Counting in words gives the position after a text exactly if no count on the way is too large.
-/
theorem after?_eq_some_iff :
    p.after? s = some q ↔ p.after s = q ∧ ∀ t, t <+: s → t ≠ [] → (p.after t).InWords := by
  induction s generalizing p with
  | nil => simp [after?]
  | cons c cs ih =>
    rw [after?, List.foldlM_cons, step?]
    by_cases hc : (p.step c).InWords
    · rw [if_pos hc]
      change (p.step c).after? cs = some q ↔ _
      rw [ih, after_cons]
      refine and_congr_right fun _ ↦ ⟨fun h t ht hne ↦ ?_, fun h t ht _ ↦ ?_⟩
      · obtain ⟨d, t, rfl⟩ := List.exists_cons_of_ne_nil hne
        obtain ⟨rfl, hrest⟩ := List.cons_prefix_cons.mp ht
        by_cases hnil : t = []
        · exact hnil ▸ hc
        · exact h t hrest hnil
      · exact h (c :: t) (List.cons_prefix_cons.mpr ⟨rfl, ht⟩) (List.cons_ne_nil _ _)
    · rw [if_neg hc]
      refine iff_of_false (by simp) fun h ↦ hc ?_
      exact h.2 [c] (List.cons_prefix_cons.mpr ⟨rfl, List.nil_prefix⟩) (List.cons_ne_nil _ _)

end Position

namespace Text

/-! ## The last character that is not blank -/

/-- The last character that is not blank, given what it was before the character `c`. -/
def lastFilled (last : Option Char) (c : Char) : Option Char := if isBlank c then last else some c

theorem foldl_lastFilled (s : List Char) (last : Option Char) :
    s.foldl lastFilled last = (s.filter (!isBlank ·)).getLast?.or last := by
  induction s generalizing last with
  | nil => rfl
  | cons c cs ih =>
    rw [List.foldl_cons, ih, lastFilled]
    cases hc : isBlank c with
    | true => simp [hc]
    | false =>
      rw [List.filter_cons_of_pos (by simp [hc]), List.getLast?_cons]
      cases (cs.filter (!isBlank ·)).getLast? <;> rfl

end Text

namespace Cursor

variable {source t rest : List Char} {c d : Cursor} {a b k n target : Nat}

/-! ## One character, and several -/

theorem bump_of_ahead {x : Char} (h : c.ahead = x :: rest) :
    c.bump = { position := c.position.step x, behind := x :: c.behind, ahead := rest } := by
  simp [bump, consume, h]

theorem bump_of_end (h : c.ahead = []) : c.bump = c := by
  obtain ⟨position, behind, ahead⟩ := c
  cases h
  rfl

theorem lastSignificant?_bump {x : Char} (h : c.ahead = x :: rest) :
    c.bump.lastSignificant? = Text.lastFilled c.lastSignificant? x := by
  rw [bump_of_ahead h, lastSignificant?, lastSignificant?, Text.lastFilled, List.find?_cons]
  cases Text.isBlank x <;> rfl

theorem consume_succ (c : Cursor) (k : Nat) : c.consume (k + 1) = c.bump.consume k := by
  rw [bump, consume_consume, Nat.add_comm]

theorem lastSignificant?_consume (c : Cursor) (k : Nat) :
    (c.consume k).lastSignificant? = (c.ahead.take k).foldl Text.lastFilled c.lastSignificant? := by
  induction k generalizing c with
  | zero => simp
  | succ k ih =>
    rw [consume_succ, ih]
    cases hahead : c.ahead with
    | nil => rw [bump_of_end hahead, hahead, List.take_nil, List.take_nil]
    | cons x xs =>
      rw [lastSignificant?_bump hahead, bump_of_ahead hahead]
      rfl

/-- What one cursor knows of the text up to it, given what an earlier one knows. -/
structure Tracks (source : List Char) (c d : Cursor) : Prop where
  /-- Position and last character are counted on over the text between the two, in words wherever
  the whole text can be counted in them. -/
  between : ∃ t, Text.slice? source c.position.offset d.position.offset = some t ∧
    d.position = c.position.after t ∧
    (Text.byteSize source + 1 < wordBound → c.position.after? t = some d.position) ∧
    d.lastSignificant? = t.foldl Text.lastFilled c.lastSignificant?
  /-- The last character is the last one of the text from its start that is not blank. -/
  significant : ∃ t, Text.takeBytes? d.position.offset source = some t ∧
    d.lastSignificant? = (t.filter (!Text.isBlank ·)).getLast?

namespace In

theorem take_eq (h : c.In source) : source.take c.behind.length = c.behind.reverse := by
  rw [← h.1, text, ← List.length_reverse, List.take_left]

/-- A cursor that knows its position has come from the start of the text. -/
theorem eq_consume (h : c.In source) : c = (Cursor.ofText source).consume c.behind.length := by
  obtain ⟨position, behind, ahead⟩ := c
  have hbehind : source.take behind.length = behind.reverse := h.take_eq
  have hahead : source.drop behind.length = ahead := by
    rw [← h.1, text, ← List.length_reverse, List.drop_left]
  have hposition : position = Position.start.after behind.reverse := h.2
  simp [Cursor.consume, Cursor.ofText, hbehind, hahead, hposition]

theorem lastSignificant?_eq (h : c.In source) :
    c.lastSignificant? = (c.behind.reverse.filter (!Text.isBlank ·)).getLast? := by
  calc
    c.lastSignificant?
    _ = ((Cursor.ofText source).consume c.behind.length).lastSignificant? :=
      congrArg lastSignificant? h.eq_consume
    _ = (source.take c.behind.length).foldl Text.lastFilled none := lastSignificant?_consume _ _
    _ = (c.behind.reverse.filter (!Text.isBlank ·)).getLast? := by
      rw [h.take_eq, Text.foldl_lastFilled, Option.or_none]

/-- Over a text that can be counted in words, no count is too large. -/
theorem after?_take (h : c.In source) (hsize : Text.byteSize source + 1 < wordBound) (k : Nat) :
    c.position.after? (c.ahead.take k) = some (c.consume k).position := by
  refine Position.after?_eq_some_iff.mpr ⟨rfl, fun t ht _ ↦ ?_⟩
  obtain ⟨rest, hrest⟩ := ht.trans (List.take_prefix k c.ahead)
  have hsource := congrArg Text.byteSize h.1
  rw [text, ← hrest, ← List.append_assoc, Text.byteSize_append] at hsource
  have hposition : c.position.after t = Position.start.after (c.behind.reverse ++ t) := by
    rw [Position.after_append, ← h.2]
  obtain ⟨hline, hcolumn⟩ := Position.start.after_le (c.behind.reverse ++ t)
  rw [hposition]
  refine ⟨?_, ?_, ?_⟩
  · rw [Position.after_offset]
    exact (show 0 + _ < wordBound by omega)
  · exact (show _ ≤ 1 + _ from hline).trans_lt (by omega)
  · exact (show _ ≤ 1 + _ from hcolumn).trans_lt (by omega)

theorem tracks_consume (h : c.In source) (k : Nat) : c.Tracks source (c.consume k) where
  between := ⟨c.ahead.take k, h.slice_consume k, rfl, fun hsize ↦ h.after?_take hsize k,
    lastSignificant?_consume c k⟩
  significant := by
    have hin := h.consume k
    refine ⟨(c.consume k).behind.reverse, ?_, hin.lastSignificant?_eq⟩
    rw [hin.offset_eq, Text.takeBytes?_eq_some_iff]
    exact ⟨⟨_, hin.1⟩, rfl⟩

/-- The text between a cursor and a place after it. -/
theorem exists_ahead_of_isPlace (h : c.In source)
    (ha : Text.IsPlace source (c.position.offset + a)) :
    ∃ t rest, c.ahead = t ++ rest ∧ Text.byteSize t = a := by
  obtain ⟨pre, post, hsource, hsize⟩ := ha
  rw [h.offset_eq] at hsize
  have hprefix : c.behind.reverse <+: pre :=
    Text.prefix_of_byteSize_le ⟨_, h.1⟩ ⟨_, hsource.symm⟩ (by omega)
  obtain ⟨t, rfl⟩ := hprefix
  refine ⟨t, post, ?_, ?_⟩
  · have htext : c.behind.reverse ++ c.ahead = c.behind.reverse ++ t ++ post := h.1.trans hsource
    rwa [List.append_assoc, List.append_cancel_left_eq] at htext
  · rw [Text.byteSize_append] at hsize
    omega

/-- No place of the text lies between a cursor and the cursor after the next character. -/
theorem bump_offset_le (h : c.In source) (hk : Text.IsPlace source k)
    (hlt : c.position.offset < k) : c.bump.position.offset ≤ k := by
  obtain ⟨a, rfl⟩ := Nat.exists_eq_add_of_le hlt.le
  obtain ⟨t, rest, hahead, rfl⟩ := h.exists_ahead_of_isPlace hk
  cases t with
  | nil => exact absurd hlt (Nat.lt_irrefl _)
  | cons x xs =>
    rw [bump_of_ahead hahead, Position.step_offset, Text.byteSize_cons]
    omega

end In

/-! ## Reachable cursors -/

theorem advance?_of_lt (h : c.position.offset + n < wordBound) :
    c.advance? n = some (c.consume (Text.charsCovering n c.ahead)) := if_pos h

theorem advance?_of_le (h : wordBound ≤ c.position.offset + n) : c.advance? n = none :=
  if_neg (Nat.not_lt.mpr h)

theorem advance?_eq_some_iff :
    c.advance? n = some d ↔
      c.position.offset + n < wordBound ∧ c.consume (Text.charsCovering n c.ahead) = d := by
  simp [advance?]

/-- The cursors that moves lead to from the start of a text. -/
inductive Reachable (source : List Char) : Cursor → Prop where
  | start : Reachable source (ofText source)
  | bump {c : Cursor} : Reachable source c → Reachable source c.bump
  | advance {c d : Cursor} {n : Nat} :
    Reachable source c → c.advance? n = some d → Reachable source d

theorem Reachable.consume (h : c.Reachable source) (k : Nat) : (c.consume k).Reachable source := by
  induction k generalizing c with
  | zero => rwa [consume_zero]
  | succ k ih => exact consume_succ c k ▸ ih h.bump

/-- The reachable cursors are those that stand in the text and know their position. -/
theorem reachable_iff_in : c.Reachable source ↔ c.In source := by
  refine ⟨fun h ↦ ?_, fun h ↦ h.eq_consume ▸ Reachable.start.consume _⟩
  induction h with
  | start => exact .ofText source
  | bump _ ih => exact ih.consume 1
  | advance _ hmove ih =>
    obtain ⟨-, rfl⟩ := advance?_eq_some_iff.mp hmove
    exact ih.consume _

/-! ## The loop -/

/-- One turn of a move towards an offset. -/
def approach? (target : Nat) (c : Cursor) : Option Cursor :=
  if c.position.offset < target && !c.atEnd then some c.bump else none

theorem approach?_eq_some_iff :
    approach? target c = some d ↔
      c.position.offset < target ∧ c.ahead ≠ [] ∧ c.bump = d := by
  simp [approach?, atEnd, and_assoc]

theorem approach?_eq_none_iff :
    approach? target c = none ↔ target ≤ c.position.offset ∨ c.ahead = [] := by
  rw [approach?]
  split <;> simp_all [atEnd, imp_iff_not_or]

/-- The loop consumes what it takes to cover the bytes that are missing. -/
theorem runsTo_consume (target : Nat) (c : Cursor) :
    RunsTo (approach? target) c
      (c.consume (Text.charsCovering (target - c.position.offset) c.ahead)) := by
  induction hahead : c.ahead generalizing c with
  | nil =>
    rw [Text.charsCovering, consume_zero]
    exact .stop (approach?_eq_none_iff.mpr (.inr hahead))
  | cons x xs ih =>
    by_cases hlt : c.position.offset < target
    · have hbump := bump_of_ahead hahead
      have hoffset : c.bump.position.offset = c.position.offset + x.utf8Size := by simp [hbump]
      have hrest : c.bump.ahead = xs := by rw [hbump]
      have hruns := ih c.bump hrest
      rw [Text.charsCovering_cons (by omega), Nat.sub_sub, ← hoffset, consume_succ]
      exact .head (approach?_eq_some_iff.mpr ⟨hlt, by simp [hahead], rfl⟩) hruns
    · rw [Nat.sub_eq_zero_of_le (by omega), Text.charsCovering_zero, consume_zero]
      exact .stop (approach?_eq_none_iff.mpr (.inl (by omega)))

/-- A move is the loop towards the sum of offset and count. -/
theorem runsTo_advance? (h : c.advance? n = some d) :
    RunsTo (approach? (c.position.offset + n)) c d := by
  obtain ⟨-, rfl⟩ := advance?_eq_some_iff.mp h
  have hruns := runsTo_consume (c.position.offset + n) c
  rwa [Nat.add_sub_cancel_left] at hruns

/-- The loop ends where a move towards its target is to stop. -/
theorem In.isStop_of_runsTo (h : c.In source) (hle : c.position.offset ≤ target)
    (hruns : RunsTo (approach? target) c d) : Text.IsStop source target d.position.offset := by
  -- until the target is reached, the cursor is not past any place behind it
  have hinv : d.In source ∧ ∀ k, Text.IsPlace source k → target ≤ k → d.position.offset ≤ k := by
    refine hruns.1.invariant (P := fun e ↦ e.In source ∧
      ∀ k, Text.IsPlace source k → target ≤ k → e.position.offset ≤ k) ?_
      ⟨h, fun k _ hk ↦ hle.trans hk⟩
    rintro e e' ⟨he, -⟩ hstep
    obtain ⟨hlt, -, rfl⟩ := approach?_eq_some_iff.mp hstep
    exact ⟨he.consume 1, fun k hplace hk ↦ he.bump_offset_le hplace (hlt.trans_le hk)⟩
  refine ⟨hinv.1.isPlace, ?_, hinv.2⟩
  rcases approach?_eq_none_iff.mp hruns.2 with hreached | hend
  · exact .inl hreached
  · refine .inr ?_
    rw [hinv.1.position_of_end hend, Position.after_offset]
    exact Nat.zero_add _

/-! ## Two moves -/

theorem consume_length_offset (hahead : c.ahead = t ++ rest) :
    (c.consume t.length).position.offset = c.position.offset + Text.byteSize t := by
  rw [consume_position, Position.after_offset, hahead, List.take_left]

/-- Consuming a text that comes next is a move by its bytes. -/
theorem advance?_byteSize (hahead : c.ahead = t ++ rest)
    (hlt : c.position.offset + Text.byteSize t < wordBound) :
    c.advance? (Text.byteSize t) = some (c.consume t.length) := by
  have hcover := Text.charsCovering_append t rest 0
  rw [Nat.add_zero, Text.charsCovering_zero, Nat.add_zero] at hcover
  rw [advance?_of_lt hlt, hahead, hcover]

/-- A move over a text that comes next and on from there. -/
theorem advance?_byteSize_add (hahead : c.ahead = t ++ rest) (n : Nat) :
    c.advance? (Text.byteSize t + n) = (c.consume t.length).advance? n := by
  have hoffset := consume_length_offset hahead
  by_cases hlt : c.position.offset + (Text.byteSize t + n) < wordBound
  · rw [advance?_of_lt hlt, advance?_of_lt (by omega), consume_ahead, hahead, List.drop_left,
      Text.charsCovering_append, consume_consume]
  · rw [advance?_of_le (by omega), advance?_of_le (by omega)]

/-- Moving to a place and on from there is one move; where it fails, so does the one move. -/
theorem In.bind_advance? (h : c.In source) (hplace : Text.IsPlace source (c.position.offset + a))
    (b : Nat) : (c.advance? a).bind (·.advance? b) = c.advance? (a + b) := by
  obtain ⟨t, rest, hahead, rfl⟩ := h.exists_ahead_of_isPlace hplace
  by_cases hlt : c.position.offset + Text.byteSize t < wordBound
  · rw [advance?_byteSize hahead hlt, advance?_byteSize_add hahead]
    rfl
  · rw [advance?_of_le (by omega), advance?_of_le (by omega)]
    rfl

/-! ## Sums that fit in a word -/

/-- A move stops where it should, and knows what is behind it, if the sum of offset and count fits
in a word. Where it does not fit there is no move, however near the end of the text is. Two moves,
the first of them to the end of a character, are the one by both counts, and fail where it does. -/
theorem advance_exact_within_words (h : c.Reachable source) :
    (∀ n, c.position.offset + n < wordBound →
      ∃ d, c.advance? n = some d ∧ c.Tracks source d ∧
        Text.IsStop source (c.position.offset + n) d.position.offset) ∧
    (∀ n, wordBound ≤ c.position.offset + n → c.advance? n = none) ∧
    ∀ a b, Text.IsPlace source (c.position.offset + a) →
      (c.advance? a).bind (·.advance? b) = c.advance? (a + b) := by
  have hin := reachable_iff_in.mp h
  refine ⟨fun n hlt ↦ ?_, fun n ↦ advance?_of_le, fun a b hplace ↦ hin.bind_advance? hplace b⟩
  have hmove := advance?_of_lt hlt
  exact ⟨_, hmove, hin.tracks_consume _,
    hin.isStop_of_runsTo (Nat.le_add_right _ _) (runsTo_advance? hmove)⟩

/-- A count that ends inside a character is rounded up, and the largest count is too large. -/
theorem advance_exact_over_accent :
    let source := "a\u00e9 b".toList
    let c := (ofText source).bump
    (c.Reachable source ∧ c.position.offset + 1 < wordBound ∧
      wordBound ≤ c.position.offset + (wordBound - 1) ∧
      Text.IsPlace source (c.position.offset + 2)) ∧
    (∃ d, c.advance? 1 = some d ∧ c.Tracks source d ∧ Text.IsStop source 2 d.position.offset) ∧
      (c.advance? 1).map (·.position) = some ⟨3, 1, 3⟩ ∧ c.advance? (wordBound - 1) = none ∧
      (c.advance? 2).bind (·.advance? 1) = c.advance? 3 := by
  intro source c
  have hreach : c.Reachable source := Reachable.start.bump
  have hfits : c.position.offset + 1 < wordBound := by decide +kernel
  have hlarge : wordBound ≤ c.position.offset + (wordBound - 1) := by decide +kernel
  have hplace : Text.IsPlace source (c.position.offset + 2) :=
    ⟨"a\u00e9".toList, " b".toList, by decide +kernel, by decide +kernel⟩
  obtain ⟨hmoves, hfails, htwice⟩ := advance_exact_within_words hreach
  exact ⟨⟨hreach, hfits, hlarge, hplace⟩, hmoves 1 hfits, by decide +kernel, hfails _ hlarge,
    htwice 2 1 hplace⟩

/-- Between two letters, a move by the largest count is to stop at the end of the text, one letter
further on, but there is no such move. -/
theorem advance_fails_at_word_bound :
    let source := "ab".toList
    let c := (ofText source).bump
    let n := wordBound - 1
    c.Reachable source ∧ n < wordBound ∧ Text.IsStop source (c.position.offset + n) 2 ∧
      c.advance? n = none := by
  intro source c n
  have hend : Text.IsPlace source 2 := ⟨source, [], by decide +kernel, by decide +kernel⟩
  refine ⟨Reachable.start.bump, by decide +kernel, ⟨hend, .inr (by decide +kernel), ?_⟩,
    by decide +kernel⟩
  exact fun k _ hk ↦ (show 2 ≤ c.position.offset + n by decide +kernel).trans hk

end Cursor
end Marginalia
