import Marginalia.Proofs.Placement
import Marginalia.Proofs.Walk

/-!
# Findings with other positions

What a scan finds in a text, with the positions exchanged for others. Nothing that is read from a
comment depends on where it stands, except for the positions themselves; they are exchanged along
with the lines, as long as the exchange keeps step with the text of each line.
-/

namespace Marginalia

variable {f : Position → Position}

/-- The region with other positions. -/
def Span.relocate (f : Position → Position) (s : Span) : Span := ⟨f s.start, f s.stop⟩

/-- The diagnostic with other positions. -/
def Diagnostic.relocate (f : Position → Position) (d : Diagnostic) : Diagnostic :=
  { d with span := d.span.relocate f }

/-- The tag with other positions. -/
def Tag.relocate (f : Position → Position) (t : Tag) : Tag := { t with span := t.span.relocate f }

/-- The anchor with other positions. -/
def Anchor.relocate (f : Position → Position) (a : Anchor) : Anchor :=
  { a with span := a.span.relocate f }

namespace Node

mutual

/-- The node with other positions. -/
def relocate (f : Position → Position) : Node → Node
  | ⟨anchor, tags, children, span⟩ =>
    ⟨anchor.map (·.relocate f), tags.map (·.relocate f), relocateAll f children, span.relocate f⟩

/-- The nodes with other positions. -/
def relocateAll (f : Position → Position) : List Node → List Node
  | [] => []
  | n :: ns => relocate f n :: relocateAll f ns

end

theorem relocateAll_eq_map (ns : List Node) : relocateAll f ns = ns.map (relocate f) := by
  induction ns with
  | nil => rfl
  | cons n ns ih => rw [relocateAll, ih, List.map_cons]

theorem relocate_eq (n : Node) :
    n.relocate f =
      ⟨n.anchor.map (·.relocate f), n.tags.map (·.relocate f), n.children.map (relocate f),
        n.span.relocate f⟩ := by
  obtain ⟨anchor, tags, children, span⟩ := n
  rw [relocate, relocateAll_eq_map]

@[simp]
theorem relocate_anchor (n : Node) : (n.relocate f).anchor = n.anchor.map (·.relocate f) := by
  rw [relocate_eq]

@[simp]
theorem relocate_children (n : Node) : (n.relocate f).children = n.children.map (relocate f) := by
  rw [relocate_eq]

end Node

/-- The outline with other positions. -/
def Outline.relocate (f : Position → Position) (o : Outline) : Outline :=
  ⟨o.root.relocate f, o.unresolved.map (·.relocate f)⟩

/-- The findings with other positions. -/
def Findings.relocate (f : Position → Position) (found : Findings) : Findings :=
  ⟨found.outline.relocate f, found.diagnostics.map (·.relocate f)⟩

/-! ## Positions that stay -/

section Same

@[simp]
theorem Diagnostic.relocate_id (d : Diagnostic) : d.relocate id = d := rfl

@[simp]
theorem Tag.relocate_id (t : Tag) : t.relocate id = t := rfl

@[simp]
theorem Anchor.relocate_id (a : Anchor) : a.relocate id = a := rfl

@[simp]
theorem Node.relocate_id (n : Node) : n.relocate id = n := by
  induction n using Node.induction with
  | h n ih =>
    have hchildren : n.children.map (relocate id) = n.children :=
      (List.map_congr_left ih).trans (List.map_id _)
    rw [relocate_eq, hchildren]
    simp only [Anchor.relocate_id, Tag.relocate_id]
    obtain ⟨anchor, tags, children, span⟩ := n
    cases anchor <;> simp [Span.relocate]

theorem Findings.relocate_id (found : Findings) : found.relocate id = found := by
  obtain ⟨⟨root, unresolved⟩, diagnostics⟩ := found
  simp [Findings.relocate, Outline.relocate]

end Same

/-! ## Comments -/

/-- The line of a comment with another position. -/
def CommentLine.relocate (f : Position → Position) (l : CommentLine) : CommentLine :=
  { l with start := f l.start }

/-- The comment with other positions. -/
def Comment.relocate (f : Position → Position) (c : Comment) : Comment :=
  ⟨c.lines.map (·.relocate f), c.span.relocate f⟩

/-- The tag and what is wrong with it with other positions. -/
def ParsedTag.relocate (f : Position → Position) (t : ParsedTag) : ParsedTag :=
  ⟨t.tag.relocate f, t.diagnostics.map (·.relocate f)⟩

/-- The positions after a place keep step with the text there. -/
def Position.Steady (f : Position → Position) (p : Position) (s : List Char) : Prop :=
  ∀ t, t <+: s → f (p.after t) = (f p).after t

/-- The positions in a line keep step with its text. -/
def CommentLine.Steady (f : Position → Position) (l : CommentLine) : Prop :=
  l.start.Steady f l.text

namespace Position.Steady

variable {p : Position} {s t : List Char}

theorem mono (h : p.Steady f s) (ht : t <+: s) : p.Steady f t := fun u hu ↦ h u (hu.trans ht)

theorem append (h : p.Steady f (s ++ t)) : (p.after s).Steady f t := by
  intro u hu
  have hs : f (p.after s) = (f p).after s := h s (List.prefix_append s t)
  have hsu : f (p.after (s ++ u)) = (f p).after (s ++ u) :=
    h _ (List.prefix_append_right_inj s |>.mpr hu)
  rw [← after_append, hsu, after_append, hs]

end Position.Steady

theorem CommentLine.relocate_strip {p : Position} {line : List Char} (h : p.Steady f line)
    (k : Nat) :
    strip (f p) line k = (strip p line k).relocate f ∧ (strip p line k).Steady f := by
  have hline : line.take k ++ line.drop k = line := List.take_append_drop k line
  constructor
  · unfold strip relocate
    rw [h _ (List.take_prefix k line)]
  · rw [← hline] at h
    exact h.append

/-- Positions that keep step with lines keep step with the first one and with the others. -/
theorem Position.Steady.lines {p : Position} {l : List Char} {ls : List (List Char)}
    (h : p.Steady f (Text.unlines (l :: ls))) :
    p.Steady f l ∧ (ls ≠ [] → f ((p.after l).step '\n') = ((f p).after l).step '\n' ∧
      ((p.after l).step '\n').Steady f (Text.unlines ls)) := by
  cases ls with
  | nil =>
    rw [Text.unlines_singleton] at h
    exact ⟨h, fun hne ↦ absurd rfl hne⟩
  | cons m ms =>
    rw [Text.unlines_cons_cons] at h
    have hl : (f p).after l = f (p.after l) := (h l (List.prefix_append l _)).symm
    have hrest : (p.after l).Steady f (['\n'] ++ Text.unlines (m :: ms)) := h.append
    refine ⟨h.mono (List.prefix_append l _), fun _ ↦ ⟨?_, hrest.append⟩⟩
    rw [hl]
    exact hrest ['\n'] (List.prefix_append ['\n'] _)

namespace Comment

theorem relocate_stripLines (k : List Char → Nat) {p : Position} {ls : List (List Char)}
    (h : p.Steady f (Text.unlines ls)) :
    stripLines k (f p) ls = (stripLines k p ls).map (·.relocate f) ∧
      ∀ l ∈ stripLines k p ls, l.Steady f := by
  induction ls generalizing p with
  | nil => exact ⟨rfl, fun l hl ↦ by cases hl⟩
  | cons l ls ih =>
    obtain ⟨hl, hls⟩ := h.lines
    obtain ⟨hstrip, hsteady⟩ := CommentLine.relocate_strip hl (k l)
    have hrest : stripLines k (((f p).after l).step '\n') ls =
        (stripLines k ((p.after l).step '\n') ls).map (·.relocate f) ∧
          ∀ m ∈ stripLines k ((p.after l).step '\n') ls, m.Steady f := by
      by_cases hne : ls = []
      · subst hne
        exact ⟨rfl, fun m hm ↦ by cases hm⟩
      · rw [← (hls hne).1]
        exact ih (hls hne).2
    rw [stripLines, stripLines, List.map_cons, hstrip, hrest.1]
    exact ⟨rfl, List.forall_mem_cons.mpr ⟨hsteady, hrest.2⟩⟩

/-- The lines of a block comment are exchanged with its start. -/
theorem relocate_blockLines {content : List Char} {p : Position} (h : p.Steady f content) :
    blockLines content (f p) = (blockLines content p).map (·.relocate f) ∧
      ∀ l ∈ blockLines content p, l.Steady f := by
  unfold blockLines
  rw [← Text.unlines_lines content] at h
  cases hlines : Text.lines content with
  | nil => exact absurd hlines (Text.pieces_ne_nil _ _)
  | cons l ls =>
    rw [hlines] at h
    obtain ⟨hl, hls⟩ := h.lines
    obtain ⟨hstrip, hsteady⟩ :=
      CommentLine.relocate_strip hl (decoration (fun c ↦ c = '*' || c = '!') l)
    dsimp only
    by_cases hne : ls = []
    · subst hne
      rw [hstrip]
      exact ⟨rfl, List.forall_mem_cons.mpr ⟨hsteady, fun m hm ↦ by cases hm⟩⟩
    · obtain ⟨hrest, hrestSteady⟩ := relocate_stripLines
        (fun m ↦ if hasGutter (l :: ls) then gutter m else 0) (hls hne).2
      rw [hstrip, ← (hls hne).1, hrest]
      exact ⟨rfl, List.forall_mem_cons.mpr ⟨hsteady, hrestSteady⟩⟩

end Comment

namespace Arguments

/-- The reading of a tag's arguments with other positions. -/
def Reading.relocate (f : Position → Position) (r : Reading) : Reading :=
  { r with diagnostics := r.diagnostics.map (·.relocate f) }

/-- The header of a tag with other positions. -/
def Site.relocate (f : Position → Position) (s : Site) : Site :=
  { s with span := s.span.relocate f }

theorem parenthesised_relocate (s : Site) (d : Option TagDefinition) (inner : List Char) :
    parenthesised (s.relocate f) d inner = (parenthesised s d inner).relocate f := by
  unfold parenthesised
  cases split? {} inner with
  | none => rfl
  | some found =>
    cases d with
    | none => rfl
    | some d =>
      dsimp only
      cases ofTexts d (trimParts found.1) <;> rfl

theorem missing_relocate (s : Site) (slot : Slot) (r : Reading) :
    missing (s.relocate f) slot (r.relocate f) = (missing s slot r).relocate f := by
  unfold missing
  split
  · rfl
  · simp [Reading.relocate, Site.malformed, Site.relocate, Diagnostic.relocate]

/-- The reading so far, or at its end, with other positions. -/
def Words.relocate (f : Position → Position) : Words → Words
  | .ok r => .ok (r.relocate f)
  | .error r => .error (r.relocate f)

theorem fillWord_relocate (s : Site) (raw : List Char) (r : Reading) (slot : Slot) :
    fillWord (s.relocate f) raw (r.relocate f) slot =
      Words.relocate f (fillWord s raw r slot) := by
  have hmissing : (.ok (missing (s.relocate f) slot (r.relocate f)) : Words) =
      Words.relocate f (.ok (missing s slot r)) := congrArg Except.ok (missing_relocate s slot r)
  unfold fillWord
  rw [show (r.relocate f).rest = r.rest from rfl]
  split
  · rfl
  · split
    · exact hmissing
    · rfl
  all_goals
    dsimp only
    split
    · exact hmissing
    · cases check slot (r.rest.takeWhile (!Text.isBlank ·)) with
      | ok value => rfl
      | error why =>
        dsimp only
        split
        · rfl
        · simp [Words.relocate, Reading.relocate, Site.malformed, Site.relocate, Diagnostic.relocate]

theorem foldlM_relocate (s : Site) (raw : List Char) (slots : List Slot) (r : Reading) :
    slots.foldlM (fillWord (s.relocate f) raw) (r.relocate f) =
      Words.relocate f (slots.foldlM (fillWord s raw) r) := by
  induction slots generalizing r with
  | nil => rfl
  | cons slot slots ih =>
    rw [List.foldlM_cons, List.foldlM_cons, fillWord_relocate]
    cases fillWord s raw r slot with
    | ok r' => exact ih r'
    | error r' => rfl

/-- What the words make, whether or not all slots were read. -/
def Words.reading : Words → Reading
  | .ok r | .error r => r

theorem asWords_eq (s : Site) (d : TagDefinition) (text : List Char) :
    asWords s d text =
      Words.reading ((leadingType s d text).bind (d.slots.foldlM (fillWord s (Text.trim text)))) :=
  rfl

theorem reading_relocate (w : Words) : (w.relocate f).reading = w.reading.relocate f := by
  cases w <;> rfl

theorem asWords_relocate (s : Site) (d : TagDefinition) (text : List Char) :
    asWords (s.relocate f) d text = (asWords s d text).relocate f := by
  have hlead : leadingType (s.relocate f) d text = Words.relocate f (leadingType s d text) := by
    unfold leadingType
    dsimp only
    split
    · split <;> rfl
    · rfl
  rw [asWords_eq, asWords_eq, hlead, ← reading_relocate]
  cases leadingType s d text with
  | error r => rfl
  | ok r => exact congrArg Words.reading (foldlM_relocate s (Text.trim text) d.slots r)

theorem read_relocate (s : Site) (d : Option TagDefinition) (text : List Char) :
    read (s.relocate f) d text = (read s d text).relocate f := by
  unfold read
  split
  · exact parenthesised_relocate s _ _
  · exact asWords_relocate s _ _
  · rfl

end Arguments

/-! ## Tags -/

/-- The lines of a tag with other positions. -/
def TagLines.relocate (f : Position → Position) (t : TagLines) : TagLines :=
  { t with first := t.first.relocate f, continuation := t.continuation.map (·.relocate f) }

namespace TagLines

/-- The positions in the lines of a tag keep step with their texts. -/
structure Steady (f : Position → Position) (t : TagLines) : Prop where
  first : t.first.Steady f
  continuation : ∀ l ∈ t.continuation, l.Steady f

theorem ofLines_relocate (i : Nat) (ls : List CommentLine) :
    ofLines i (ls.map (·.relocate f)) = (ofLines i ls).map (·.relocate f) := by
  induction ls generalizing i with
  | nil => rfl
  | cons l ls ih =>
    have htake : (ls.map (·.relocate f)).takeWhile (!·.startsTag) =
        (ls.takeWhile (!·.startsTag)).map (·.relocate f) := List.takeWhile_map
    rw [List.map_cons, ofLines, ofLines, htake, ih,
      show (l.relocate f).startsTag = l.startsTag from rfl]
    dsimp only
    rw [List.length_map]
    split <;> rfl

theorem steady_of_mem_ofLines {i : Nat} {ls : List CommentLine} (h : ∀ l ∈ ls, l.Steady f) :
    ∀ t ∈ ofLines i ls, t.Steady f := by
  induction ls generalizing i with
  | nil => exact fun t ht ↦ by cases ht
  | cons l ls ih =>
    obtain ⟨hl, hls⟩ := List.forall_mem_cons.mp h
    unfold ofLines
    dsimp only
    split
    · refine List.forall_mem_cons.mpr ⟨⟨hl, fun m hm ↦ ?_⟩, ih hls⟩
      exact hls m ((List.takeWhile_sublist _).subset hm)
    · exact ih hls

variable {t : TagLines}

theorem start_relocate (h : t.Steady f) : (t.relocate f).start = f t.start :=
  (h.first _ (List.takeWhile_prefix _)).symm

theorem headerSpan_relocate (h : t.Steady f) :
    (t.relocate f).headerSpan = t.headerSpan.relocate f := by
  have htext : t.first.start.Steady f
      (Text.indentation t.first.text ++ Text.trimStart t.first.text) := by
    rw [Text.indentation_append_trimStart]
    exact h.first
  have hheader : f (t.start.after t.header) = (f t.start).after t.header :=
    htext.append t.header (Text.trimEnd_prefix _)
  unfold headerSpan
  rw [start_relocate h]
  exact congrArg (Span.mk (f t.start)) hheader.symm

theorem span_relocate (h : t.Steady f) : (t.relocate f).span = t.span.relocate f := by
  have hlast : (t.relocate f).last = t.last.relocate f := by
    simp only [last, relocate, List.getLast?_map]
    cases t.continuation.getLast? <;> rfl
  have hsteady : t.last.Steady f := by
    unfold last
    cases hc : t.continuation.getLast? with
    | none => exact h.first
    | some l => exact h.continuation l (List.mem_of_getLast? hc)
  unfold span
  rw [start_relocate h, hlast]
  exact congrArg (Span.mk (f t.start)) (hsteady _ (Text.trimEnd_prefix _)).symm

theorem body_relocate (rest : List Char) (ls : List CommentLine) :
    body rest (ls.map (·.relocate f)) = body rest ls := by
  have hcommon : commonIndent (ls.map (·.relocate f)) = commonIndent ls := by
    unfold commonIndent
    rw [List.filter_map, List.map_map]
    rfl
  unfold body
  dsimp only
  rw [hcommon, List.map_map]
  rfl

theorem parse_relocate (registry : Registry) (h : t.Steady f) :
    (t.relocate f).parse registry = (t.parse registry).relocate f := by
  have hread : Arguments.read
      ⟨String.ofList (t.first.tagName?.getD []), t.headerSpan.relocate f⟩
      (registry.get? (String.ofList (t.first.tagName?.getD [])))
      (t.header.drop (1 + (t.first.tagName?.getD []).length)) = _ :=
    Arguments.read_relocate ⟨String.ofList (t.first.tagName?.getD []), t.headerSpan⟩ _ _
  have hname : (t.relocate f).first.tagName? = t.first.tagName? := rfl
  have hheader : (t.relocate f).header = t.header := rfl
  have hcontinuation : (t.relocate f).continuation = t.continuation.map (·.relocate f) := rfl
  unfold parse ParsedTag.relocate Tag.relocate
  simp only [hname, hheader, hcontinuation, headerSpan_relocate h, span_relocate h, hread,
    body_relocate, Arguments.Reading.relocate]
  congr 1
  split <;> rfl

end TagLines

namespace Comment

theorem tagsAfter_relocate (registry : Registry) (seen : List String) {ts : List TagLines}
    (h : ∀ t ∈ ts, t.Steady f) :
    tagsAfter registry seen (ts.map (·.relocate f)) =
      (tagsAfter registry seen ts).map (·.relocate f) := by
  induction ts generalizing seen with
  | nil => rfl
  | cons t ts ih =>
    obtain ⟨ht, hts⟩ := List.forall_mem_cons.mp h
    have honce : isOnce registry ((t.parse registry).relocate f).tag =
        isOnce registry (t.parse registry).tag := rfl
    have hseen : ((t.parse registry).relocate f).tag.name = (t.parse registry).tag.name := rfl
    rw [List.map_cons, tagsAfter, tagsAfter, TagLines.parse_relocate registry ht]
    simp only [honce, hseen, ih _ hts]
    split
    · split
      · simp [ParsedTag.relocate, duplicate, Diagnostic.relocate, Tag.relocate]
      · rfl
    · rfl

/-- The tags of a comment and what is wrong with them are exchanged with its lines. -/
theorem tags_relocate (registry : Registry) {c : Comment} (h : ∀ l ∈ c.lines, l.Steady f) :
    (c.relocate f).tags registry = (c.tags registry).map (·.relocate f) := by
  unfold tags
  rw [← tagsAfter_relocate registry [] (TagLines.steady_of_mem_ofLines h),
    ← TagLines.ofLines_relocate]
  rfl

end Comment

end Marginalia
