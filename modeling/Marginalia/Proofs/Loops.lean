import Marginalia.Proofs.Names
import Marginalia.Proofs.Progress

/-!
# The loops inside a step

A step of a scan reads literals, comments, headers and tags, and closes contexts. Each of these is a
loop whose steps lower a measure: the text, the contexts or the lines that are left. What the scan
computes, by recursion or with a bound, is what the loop arrives at.
-/

namespace Marginalia

section

variable {α : Type} {step : α → Option α} {measure : α → Nat} {a b c : α}

/-- Every step lowers the measure. -/
def Descends (step : α → Option α) (measure : α → Nat) : Prop :=
  ∀ a b, step a = some b → measure b < measure a

/-- The loop of `step` that starts from `a` ends in `b`. -/
def RunsTo (step : α → Option α) (a b : α) : Prop := Reaches step a b ∧ step b = none

theorem RunsTo.stop (h : step a = none) : RunsTo step a a := ⟨.refl a, h⟩

theorem RunsTo.head (h : step a = some b) (h' : RunsTo step b c) : RunsTo step a c :=
  ⟨.head h h'.1, h'.2⟩

theorem Descends.le_of_reaches (h : Descends step measure) (hab : Reaches step a b) :
    measure b ≤ measure a :=
  hab.invariant (P := fun b ↦ measure b ≤ measure a)
    (fun b c hb hbc ↦ (h b c hbc).le.trans hb) (Nat.le_refl _)

/-- A loop that descends has ended after as many steps as its measure counts. -/
theorem Descends.runsTo_iterate (h : Descends step measure) {n : Nat} (hn : measure a ≤ n) :
    RunsTo step a (iterate step n a) :=
  ⟨reaches_iterate n a,
    step_iterate (P := fun _ ↦ True) measure (fun _ _ _ _ ↦ trivial) (fun a b _ ↦ h a b) n a trivial hn⟩

theorem Descends.iterate_eq (h : Descends step measure) {n : Nat} (hn : measure a ≤ n)
    (hb : RunsTo step a b) : iterate step n a = b :=
  have hruns := h.runsTo_iterate hn
  hruns.1.end_unique hruns.2 hb.1 hb.2

end

/-! ## Literals -/

namespace StringDelimiter

/-- The text after one more character of a literal, or after an escaped one. -/
def next? (d : StringDelimiter) : List Char → Option (List Char)
  | [] => none
  | c :: cs =>
    if d.escape = some c then some (cs.drop 1)
    else if !d.closer.isEmpty && d.closer.isPrefixOf (c :: cs) then none
    else if c = '\n' && !d.multiline then none
    else some cs

/-- How a literal ends, given the text where no more of its characters are read. -/
def ending (d : StringDelimiter) : List Char → LiteralEnd
  | [] => .endOfInput
  | c :: cs =>
    if !d.closer.isEmpty && d.closer.isPrefixOf (c :: cs) then .closed else .endOfLine

/-- The length of what ends a literal: its closer, if it has one. -/
def endingLength (d : StringDelimiter) : LiteralEnd → Nat
  | .closed => d.closer.length
  | .endOfLine | .endOfInput => 0

theorem descends_next? (d : StringDelimiter) : Descends d.next? List.length := by
  intro text rest h
  cases text with
  | nil => cases h
  | cons c cs =>
    rw [next?] at h
    split at h
    · cases h
      simp only [List.length_drop, List.length_cons]
      omega
    split at h
    · cases h
    split at h
    · cases h
    · cases h
      exact Nat.lt_succ_self _

/-- A literal lasts up to where the loop over its characters ends. -/
theorem runsTo_tail (d : StringDelimiter) (text : List Char) :
    ∃ rest, RunsTo d.next? text rest ∧ rest.length ≤ text.length ∧
      d.tail text =
        (text.length - rest.length + d.endingLength (d.ending rest), d.ending rest) := by
  fun_induction StringDelimiter.tail d text with
  | case1 => exact ⟨[], .stop rfl, Nat.le_refl _, rfl⟩
  | case2 c hescape =>
    exact ⟨[], .head (by simp [next?, hescape]) (.stop rfl), Nat.zero_le _, rfl⟩
  | case3 c hescape c' cs n stop htail ih =>
    obtain ⟨rest, hruns, hle, heq⟩ := ih
    rw [htail, Prod.mk.injEq] at heq
    refine ⟨rest, .head (by simp [next?, hescape]) hruns, ?_, ?_⟩
    · simp only [List.length_cons]
      omega
    · rw [heq.1, heq.2, Prod.mk.injEq]
      simp only [List.length_cons, and_true]
      omega
  | case4 c cs hescape hclose =>
    refine ⟨c :: cs, .stop ?_, Nat.le_refl _, ?_⟩
    · rw [next?, if_neg hescape, if_pos hclose]
    · simp only [ending, if_pos hclose, endingLength, Nat.sub_self, Nat.zero_add]
  | case5 c cs hescape hclose hline =>
    refine ⟨c :: cs, .stop ?_, Nat.le_refl _, ?_⟩
    · rw [next?, if_neg hescape, if_neg hclose, if_pos hline]
    · simp only [ending, if_neg hclose, endingLength, Nat.sub_self]
  | case6 c cs hescape hclose hline n stop htail ih =>
    obtain ⟨rest, hruns, hle, heq⟩ := ih
    rw [htail, Prod.mk.injEq] at heq
    refine ⟨rest, .head ?_ hruns, ?_, ?_⟩
    · rw [next?, if_neg hescape, if_neg hclose, if_neg hline]
    · simp only [List.length_cons]
      omega
    · rw [heq.1, heq.2, Prod.mk.injEq]
      simp only [List.length_cons, and_true]
      omega

end StringDelimiter

/-! ## Comments -/

theorem Cursor.descends_nextCommentLine? (marker : List Char) :
    Descends (nextCommentLine? marker) (·.2.ahead.length) :=
  fun _ _ h ↦ length_lt_of_nextCommentLine? h

/-- The text after one more character of a block comment. -/
def nextInBlock? (closer : List Char) : List Char → Option (List Char)
  | [] => none
  | c :: cs => if !closer.isEmpty && closer.isPrefixOf (c :: cs) then none else some cs

theorem descends_nextInBlock? (closer : List Char) : Descends (nextInBlock? closer) List.length := by
  intro text rest h
  cases text with
  | nil => cases h
  | cons c cs =>
    rw [nextInBlock?] at h
    split at h
    · cases h
    · cases h
      exact Nat.lt_succ_self _

/-- The content of a block comment lasts up to where the loop over its characters ends, which is at
its closer unless no text is left. -/
theorem runsTo_blockContent (closer text : List Char) :
    ∃ rest, RunsTo (nextInBlock? closer) text rest ∧
      (blockContent closer text).1 ++ rest = text ∧
      (blockContent closer text).2 = !rest.isEmpty := by
  fun_induction blockContent closer text with
  | case1 => exact ⟨[], .stop rfl, rfl, rfl⟩
  | case2 c cs hclose => exact ⟨c :: cs, .stop (by rw [nextInBlock?, if_pos hclose]), rfl, rfl⟩
  | case3 c cs hclose content closed hcontent ih =>
    obtain ⟨rest, hruns, htext, hclosed⟩ := ih
    rw [hcontent] at htext hclosed
    refine ⟨rest, .head (by rw [nextInBlock?, if_neg hclose]) hruns, ?_, hclosed⟩
    rw [List.cons_append, htext]

/-! ## Contexts -/

namespace Pass

variable {s : Setup} {g : Grammar}

theorem descends_skipStep (s : Setup) : Descends (skipStep s) (·.cursor.ahead.length) :=
  fun _ _ h ↦ length_lt_of_skipStep h

/-- End the innermost indentation body if a line with the given indentation leaves it. -/
def leaveBody? (indent : Nat) (p : Pass) : Option Pass :=
  match p.nesting.contexts with
  | .body _ (some level) :: outer =>
    if level < indent then none
    else
      let p := { p with nesting := { p.nesting with contexts := outer } }
      some ((p.emit (.bodyLeft p.lastEnd)).emit (.blockClosed outer.length))
  | _ => none

theorem descends_leaveBody? (indent : Nat) : Descends (leaveBody? indent) (·.nesting.depth) := by
  intro p q h
  unfold leaveBody? at h
  split at h
  · rename_i opened level outer hcontexts
    split at h
    · cases h
    · cases h
      simp only [Nesting.depth, emit, hcontexts, List.length_cons]
      omega
  · cases h

/-- The bodies that a line leaves are those that the loop over them ends. -/
theorem runsTo_leaveBodies (indent : Nat) (cs : List Context) (p : Pass)
    (h : p.nesting.contexts = cs) : RunsTo (leaveBody? indent) p (leaveBodies indent cs p) := by
  fun_induction leaveBodies indent cs p with
  | case1 opened level outer p hlt => exact .stop (by simp [leaveBody?, h, hlt])
  | case2 opened level outer p hlt q ih =>
    exact .head (by simp [leaveBody?, h, hlt, q]) (ih rfl)
  | case3 cs p hne =>
    refine .stop ?_
    unfold leaveBody?
    split
    · rename_i opened level outer hcontexts
      exact absurd (h.symm.trans hcontexts) (hne opened level outer)
    · rfl

/-- Close the innermost context without its closer if more than `depth` are open. -/
def unwindNext? (g : Grammar) (stop : Position) (closer : Option (List Char)) (depth : Nat)
    (p : Pass) : Option Pass :=
  match p.nesting.contexts with
  | [] => none
  | c :: outer =>
    if depth < p.nesting.depth then
      some (unwind g stop closer { p with nesting := { p.nesting with contexts := outer } } c)
    else none

theorem descends_unwindNext? (g : Grammar) (stop : Position) (closer : Option (List Char))
    (depth : Nat) : Descends (unwindNext? g stop closer depth) (·.nesting.depth) := by
  intro p q h
  unfold unwindNext? at h
  split at h
  · cases h
  · rename_i c outer hcontexts
    split at h
    · cases h
      rw [unwind_eq]
      simp only [Nesting.depth, send, note, hcontexts, List.length_cons]
      omega
    · cases h

theorem runsTo_unwind (g : Grammar) (stop : Position) (closer : Option (List Char))
    (inner outer : List Context) (p : Pass) (h : p.nesting.contexts = inner ++ outer) :
    RunsTo (unwindNext? g stop closer outer.length) p
      { inner.foldl (unwind g stop closer) p with
        nesting := { p.nesting with contexts := outer } } := by
  induction inner generalizing p with
  | nil =>
    rw [List.nil_append] at h
    have hp : p = { p with nesting := { p.nesting with contexts := outer } } := by rw [← h]
    rw [List.foldl_nil, ← hp]
    refine .stop ?_
    unfold unwindNext?
    split
    · rfl
    · rw [if_neg (by rw [Nesting.depth, h]; omega)]
  | cons c inner ih =>
    refine .head (b := unwind g stop closer
      { p with nesting := { p.nesting with contexts := inner ++ outer } } c) ?_ ?_
    · unfold unwindNext?
      rw [h]
      simp only [List.cons_append]
      rw [if_pos (by rw [Nesting.depth, h, List.length_append, List.length_cons]; omega)]
    · have hruns := ih (unwind g stop closer
        { p with nesting := { p.nesting with contexts := inner ++ outer } } c)
        (by rw [unwind_eq]; rfl)
      simp only [foldl_unwind, unwind_eq, List.foldl_cons] at hruns ⊢
      exact hruns

/-- To close a context, the loop over those inside it closes them first. -/
theorem runsTo_closeThrough (p : Pass) (g : Grammar) (i k : Nat) (closed : Context) :
    ∃ q, RunsTo (unwindNext? g p.cursor.position (some (g.pair i).closer) (p.nesting.depth - k)) p q ∧
      p.closeThrough g i k closed = q.closeThrough g i 0 closed := by
  have hruns := runsTo_unwind g p.cursor.position (some (g.pair i).closer)
    (p.nesting.contexts.take k) (p.nesting.contexts.drop k) p (List.take_append_drop k _).symm
  rw [List.length_drop] at hruns
  refine ⟨_, hruns, ?_⟩
  simp only [closeThrough, foldl_unwind, List.take_zero, List.foldl_nil, List.drop_drop]
  rfl

end Pass

/-! ## Headers -/

namespace Grammar

variable {g : Grammar}

theorem descends_modifier? (g : Grammar) : Descends g.modifier? List.length :=
  fun _ _ h ↦ (modifier?_suffix h).2

/-- Go over one more segment of a dotted path and the dot after it. -/
def segment? (g : Grammar) (path : Bool × List Char) : Option (Bool × List Char) :=
  match g.ident? path.2 with
  | none => none
  | some i =>
    match path.2.drop i.length with
    | '.' :: rest => some (true, rest)
    | _ => none

theorem descends_segment? (g : Grammar) : Descends g.segment? (·.2.length) := by
  rintro ⟨qualified, text⟩ path h
  unfold segment? at h
  split at h
  · cases h
  · split at h
    · rename_i i hi rest hrest
      cases h
      have hlen := congrArg List.length hrest
      simp only [List.length_drop, List.length_cons] at hlen ⊢
      omega
    · cases h

/-- A path ends with the segment where the loop over its segments ends. -/
theorem runsTo_dottedPath? (g : Grammar) {fuel : Nat} (qualified : Bool) {text : List Char}
    (h : text.length ≤ fuel) :
    ∃ last, RunsTo g.segment? (qualified, text) last ∧
      g.dottedPath? fuel qualified text =
        (g.ident? last.2).map fun i ↦ (i, last.1, last.2.drop i.length) := by
  induction fuel generalizing qualified text with
  | zero =>
    rw [List.length_eq_zero_iff.mp (Nat.le_zero.mp h)]
    exact ⟨(qualified, []), .stop rfl, rfl⟩
  | succ fuel ih =>
    cases hi : g.ident? text with
    | none => exact ⟨(qualified, text), .stop (by simp [segment?, hi]), by simp [dottedPath?, hi]⟩
    | some i =>
      by_cases hdot : ∃ rest, text.drop i.length = '.' :: rest
      · obtain ⟨rest, hrest⟩ := hdot
        have hstep : g.segment? (qualified, text) = some (true, rest) := by simp [segment?, hi, hrest]
        have hlt : rest.length < text.length := descends_segment? g _ _ hstep
        obtain ⟨last, hruns, hlast⟩ := ih true (show rest.length ≤ fuel by omega)
        refine ⟨last, .head hstep hruns, ?_⟩
        rw [← hlast]
        simp [dottedPath?, hi, hrest]
      · refine ⟨(qualified, text), .stop ?_, ?_⟩
        · simp only [segment?, hi]
          split
          · rename_i rest hrest
            exact absurd ⟨rest, hrest⟩ hdot
          · rfl
        · simp only [dottedPath?, hi, Option.map_some]
          split
          · rename_i rest hrest
            exact absurd ⟨rest, hrest⟩ hdot
          · rfl

end Grammar

/-! ## Tags -/

namespace TagLines

/-- The first tag of a comment that starts at a line with the given index or later. -/
def next? (lines : List CommentLine) (index : Nat) : Option TagLines := do
  let skipped ← (lines.drop index).findIdx? (·.startsTag)
  let first ← lines[index + skipped]?
  let continuation := (lines.drop (index + skipped + 1)).takeWhile (!·.startsTag)
  return ⟨first, continuation, index + skipped + 1 + continuation.length⟩

/-- Add the next tag of a comment to those that have been found, and go on after it. -/
def more? (lines : List CommentLine) (found : List TagLines × Nat) : Option (List TagLines × Nat) :=
  (next? lines found.2).map fun t ↦ (found.1 ++ [t], t.next)

theorem next?_eq_some {lines : List CommentLine} {index : Nat} {t : TagLines}
    (h : next? lines index = some t) : index < t.next ∧ index < lines.length := by
  simp only [next?, Option.bind_eq_bind, Option.bind_eq_some_iff, pure, Option.some.injEq] at h
  obtain ⟨skipped, hskipped, first, -, rfl⟩ := h
  have hlt := (List.findIdx?_eq_some_iff_getElem.mp hskipped).1
  simp only [List.length_drop] at hlt
  exact ⟨by dsimp only; omega, by omega⟩

theorem descends_more? (lines : List CommentLine) :
    Descends (more? lines) fun found ↦ lines.length - found.2 := by
  rintro ⟨found, index⟩ found' h
  obtain ⟨t, ht, rfl⟩ := Option.map_eq_some_iff.mp h
  obtain ⟨hnext, hlt⟩ := next?_eq_some ht
  dsimp only at hnext hlt ⊢
  omega

/-- Lines that start no tag are passed over. -/
theorem ofLines_append {ls : List CommentLine} (h : ∀ l ∈ ls, l.startsTag = false) (index : Nat)
    (more : List CommentLine) : ofLines index (ls ++ more) = ofLines (index + ls.length) more := by
  induction ls generalizing index with
  | nil => rfl
  | cons l ls ih =>
    obtain ⟨hl, hls⟩ := List.forall_mem_cons.mp h
    rw [List.cons_append, ofLines, if_neg (by simp [hl]), ih hls, List.length_cons]
    congr 1
    omega

/-- The lines that continue a tag are passed over. -/
theorem ofLines_drop_continuation (index : Nat) (ls : List CommentLine) :
    ofLines (index + (ls.takeWhile (!·.startsTag)).length)
      (ls.drop (ls.takeWhile (!·.startsTag)).length) = ofLines index ls := by
  have hplain : ∀ l ∈ ls.takeWhile (!·.startsTag), l.startsTag = false := by
    intro l hl
    simpa using List.mem_takeWhile_imp hl
  have hprefix : ls.takeWhile (!·.startsTag) <+: ls := List.takeWhile_prefix _
  generalize ls.takeWhile (!·.startsTag) = continuation at hplain hprefix
  obtain ⟨more, rfl⟩ := hprefix
  rw [List.drop_left, ofLines_append hplain]

theorem ofLines_of_next?_eq_none {lines : List CommentLine} {index : Nat}
    (h : next? lines index = none) : ofLines index (lines.drop index) = [] := by
  have hplain : ∀ l ∈ lines.drop index, l.startsTag = false := by
    refine List.findIdx?_eq_none_iff.mp ?_
    by_contra hsome
    obtain ⟨skipped, hskipped⟩ := Option.ne_none_iff_exists'.mp hsome
    have hlt := (List.findIdx?_eq_some_iff_getElem.mp hskipped).1
    rw [List.length_drop] at hlt
    simp [next?, hskipped, show index + skipped < lines.length by omega] at h
  rw [← List.append_nil (lines.drop index), ofLines_append hplain]
  rfl

theorem ofLines_of_next?_eq_some {lines : List CommentLine} {index : Nat} {t : TagLines}
    (h : next? lines index = some t) :
    ofLines index (lines.drop index) = t :: ofLines t.next (lines.drop t.next) := by
  simp only [next?, Option.bind_eq_bind, Option.bind_eq_some_iff, pure, Option.some.injEq] at h
  obtain ⟨skipped, hskipped, first, hfirst, rfl⟩ := h
  obtain ⟨hlt', htag, hplain⟩ := List.findIdx?_eq_some_iff_getElem.mp hskipped
  have hlt : skipped < lines.length - index := by rwa [List.length_drop] at hlt'
  -- The lines that are passed over, the first line of the tag, and what follows it.
  have hget : lines[index + skipped]? = some ((lines.drop index)[skipped]) := by
    rw [List.getElem_drop, List.getElem?_eq_getElem (by omega)]
  rw [hget, Option.some.injEq] at hfirst
  have hlines : lines.drop index =
      (lines.drop index).take skipped ++ first :: lines.drop (index + skipped + 1) := by
    nth_rewrite 1 [← List.take_append_drop skipped (lines.drop index)]
    rw [List.drop_eq_getElem_cons hlt', hfirst, List.drop_drop]
    rfl
  have hskip : ∀ l ∈ (lines.drop index).take skipped, l.startsTag = false := by
    intro l hl
    obtain ⟨j, hj, rfl⟩ := List.mem_iff_getElem.mp hl
    rw [List.getElem_take]
    simpa using hplain j (by simp at hj; omega)
  have hlength : ((lines.drop index).take skipped).length = skipped := by
    rw [List.length_take, List.length_drop]
    omega
  rw [hlines, ofLines_append hskip, hlength, ofLines, if_pos (by rw [← hfirst]; exact htag)]
  have hrest := ofLines_drop_continuation (index + skipped + 1) (lines.drop (index + skipped + 1))
  rw [List.drop_drop] at hrest
  dsimp only
  rw [hrest]

/-- The tags of a comment are those that the loop over its lines finds. -/
theorem runsTo_ofLines (lines : List CommentLine) (found : List TagLines) (index : Nat) :
    ∃ stop, RunsTo (more? lines) (found, index)
      (found ++ ofLines index (lines.drop index), stop) := by
  induction hn : lines.length - index using Nat.strong_induction_on generalizing found index with
  | _ n ih =>
    cases hnext : next? lines index with
    | none =>
      rw [ofLines_of_next?_eq_none hnext, List.append_nil]
      exact ⟨index, .stop (by simp [more?, hnext])⟩
    | some t =>
      have hstep : more? lines (found, index) = some (found ++ [t], t.next) := by
        simp [more?, hnext]
      obtain ⟨stop, hruns⟩ :=
        ih _ (hn ▸ descends_more? lines _ _ hstep) (found ++ [t]) t.next rfl
      refine ⟨stop, .head hstep ?_⟩
      rw [ofLines_of_next?_eq_some hnext]
      simpa using hruns

end TagLines

/-! ## All loops -/

/-- Each loop inside a step of a scan lowers a measure with every turn, and what the scan computes
there is what the loop arrives at. -/
structure Setup.LoopsEnd (s : Setup) : Prop where
  /-- The characters of a string literal, up to what ends it. -/
  literal : ∀ d : StringDelimiter, Descends d.next? List.length ∧
    ∀ text, ∃ rest, RunsTo d.next? text rest ∧ rest.length ≤ text.length ∧
      d.tail text = (text.length - rest.length + d.endingLength (d.ending rest), d.ending rest)
  /-- Literals, regular expressions and characters of code that is skipped. -/
  skip : Descends (Pass.skipStep s) (·.cursor.ahead.length) ∧
    ∀ p : Pass, ∃ q, RunsTo (Pass.skipStep s) (p.consume 1).markEnd q ∧
      p.skip s = { q with mode := .code }
  /-- Line comments with the same marker. -/
  lineComments : ∀ marker, Descends (Cursor.nextCommentLine? marker) (·.2.ahead.length) ∧
    ∀ c : Cursor, ∃ line d, (c.consume marker.length).commentLine marker = (line, d) ∧
      RunsTo (Cursor.nextCommentLine? marker) ([line], d) (c.lineComments marker)
  /-- The characters of a block comment, up to its closer. -/
  blockComment : ∀ closer, Descends (nextInBlock? closer) List.length ∧
    ∀ text, ∃ rest, RunsTo (nextInBlock? closer) text rest ∧
      (blockContent closer text).1 ++ rest = text ∧ (blockContent closer text).2 = !rest.isEmpty
  /-- The indentation bodies that a line leaves. -/
  dedent : ∀ indent, Descends (Pass.leaveBody? indent) (·.nesting.depth) ∧
    ∀ p : Pass, RunsTo (Pass.leaveBody? indent) p (Pass.leaveBodies indent p.nesting.contexts p)
  /-- The contexts inside the one that a bracket closes. -/
  closeBlock : ∀ stop closer depth,
    Descends (Pass.unwindNext? s.grammar stop closer depth) (·.nesting.depth) ∧
    ∀ (p : Pass) i k closed, ∃ q,
      RunsTo (Pass.unwindNext? s.grammar p.cursor.position (some (s.grammar.pair i).closer)
        (p.nesting.depth - k)) p q ∧
      p.closeThrough s.grammar i k closed = q.closeThrough s.grammar i 0 closed
  /-- The modifiers in front of an anchor. -/
  modifiers : Descends s.grammar.modifier? List.length ∧
    ∀ text, RunsTo s.grammar.modifier? text (s.grammar.skipModifiers text)
  /-- The segments of the path in front of an assignment. -/
  path : Descends s.grammar.segment? (·.2.length) ∧
    ∀ text, ∃ last, RunsTo s.grammar.segment? (false, text) last ∧
      s.grammar.dottedPath? text.length false text =
        (s.grammar.ident? last.2).map fun i ↦ (i, last.1, last.2.drop i.length)
  /-- The tags of a comment. -/
  tags : ∀ lines, Descends (TagLines.more? lines) (fun found ↦ lines.length - found.2) ∧
    ∃ stop, RunsTo (TagLines.more? lines) ([], 0) (TagLines.ofLines 0 lines, stop)

theorem Setup.loopsEnd (s : Setup) : s.LoopsEnd where
  literal d := ⟨d.descends_next?, d.runsTo_tail⟩
  skip := ⟨Pass.descends_skipStep s,
    fun _ ↦ ⟨_, (Pass.descends_skipStep s).runsTo_iterate (Nat.le_refl _), rfl⟩⟩
  lineComments marker := ⟨Cursor.descends_nextCommentLine? marker,
    fun _ ↦ ⟨_, _, rfl, (Cursor.descends_nextCommentLine? marker).runsTo_iterate (Nat.le_refl _)⟩⟩
  blockComment closer := ⟨descends_nextInBlock? closer, runsTo_blockContent closer⟩
  dedent indent := ⟨Pass.descends_leaveBody? indent,
    fun p ↦ Pass.runsTo_leaveBodies indent _ p rfl⟩
  closeBlock stop closer depth := ⟨Pass.descends_unwindNext? s.grammar stop closer depth,
    fun p ↦ p.runsTo_closeThrough s.grammar⟩
  modifiers := ⟨s.grammar.descends_modifier?,
    fun _ ↦ s.grammar.descends_modifier?.runsTo_iterate (Nat.le_refl _)⟩
  path := ⟨s.grammar.descends_segment?,
    fun _ ↦ s.grammar.runsTo_dottedPath? false (Nat.le_refl _)⟩
  tags lines := ⟨TagLines.descends_more? lines, TagLines.runsTo_ofLines lines [] 0⟩

end Marginalia
