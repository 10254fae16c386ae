import Marginalia.Proofs.Locality
import Marginalia.Proofs.Relocation

/-!
# Text added before a scan

What is found in a text is found further on when the text comes after another one: offsets grow by
its size and lines by its newlines, and columns stay as they are if it ends with a line. Nothing
that is read from a comment depends on where it stands, except for the positions themselves.
-/

namespace Marginalia

/-! ## Positions -/

namespace Position

variable {before : List Char}

/-- The position in the text when it comes after another one, which ends with a line. -/
def shift (before : List Char) (p : Position) : Position :=
  ⟨p.offset + Text.byteSize before, p.line + before.count '\n', p.column⟩

@[simp]
theorem shift_offset (before : List Char) (p : Position) :
    (p.shift before).offset = p.offset + Text.byteSize before := rfl

theorem step_shift (p : Position) (c : Char) : (p.shift before).step c = (p.step c).shift before := by
  unfold step shift
  split
  · simp only [mk.injEq, and_true]
    omega
  · simp only [mk.injEq, and_true]
    omega

theorem after_shift (p : Position) (s : List Char) :
    (p.shift before).after s = (p.after s).shift before := by
  induction s generalizing p with
  | nil => rfl
  | cons c s ih => rw [after_cons, after_cons, step_shift, ih]

theorem after_line (p : Position) (s : List Char) : (p.after s).line = p.line + s.count '\n' := by
  induction s generalizing p with
  | nil => rfl
  | cons c s ih =>
    rw [after_cons, ih, List.count_cons]
    unfold step
    split
    · rename_i hc
      simp only [hc, beq_self_eq_true, if_true]
      omega
    · rename_i hc
      simp [hc]

/-- A text that ends with a line leads to the start of the next one. -/
theorem start_after (h : before = [] ∨ Text.EndsLine before) :
    start.after before = start.shift before := by
  have hline := start.after_line before
  have hoffset := start.after_offset before
  have hcolumn : (start.after before).column = 1 := by
    rcases h with rfl | h
    · rfl
    · obtain ⟨init, rfl⟩ := List.getLast?_eq_some_iff.mp h
      rw [after_append]
      rfl
  generalize start.after before = p at hline hoffset hcolumn ⊢
  obtain ⟨offset, line, column⟩ := p
  simp only at hline hoffset hcolumn
  rw [hline, hoffset, hcolumn]
  rfl

end Position

/-- The region in the text when it comes after another one. -/
def Span.shift (before : List Char) (s : Span) : Span := ⟨s.start.shift before, s.stop.shift before⟩

/-- The diagnostic of the text when it comes after another one. -/
def Diagnostic.shift (before : List Char) (d : Diagnostic) : Diagnostic :=
  { d with span := d.span.shift before }

/-- The tag in the text when it comes after another one. -/
def Tag.shift (before : List Char) (t : Tag) : Tag := { t with span := t.span.shift before }

@[simp]
theorem Tag.shift_placement (before : List Char) (t : Tag) :
    (t.shift before).placement = t.placement := rfl

/-- The anchor in the text when it comes after another one. -/
def Anchor.shift (before : List Char) (a : Anchor) : Anchor := { a with span := a.span.shift before }

namespace Node

mutual

/-- The node of the text when it comes after another one. -/
def shift (before : List Char) : Node → Node
  | ⟨anchor, tags, children, span⟩ =>
    ⟨anchor.map (·.shift before), tags.map (·.shift before), shiftAll before children,
      span.shift before⟩

/-- The nodes of the text when it comes after another one. -/
def shiftAll (before : List Char) : List Node → List Node
  | [] => []
  | n :: ns => shift before n :: shiftAll before ns

end

variable {before : List Char}

theorem shiftAll_eq_map (ns : List Node) : shiftAll before ns = ns.map (shift before) := by
  induction ns with
  | nil => rfl
  | cons n ns ih => rw [shiftAll, ih, List.map_cons]

theorem shift_eq (n : Node) :
    n.shift before =
      ⟨n.anchor.map (·.shift before), n.tags.map (·.shift before), n.children.map (shift before),
        n.span.shift before⟩ := by
  obtain ⟨anchor, tags, children, span⟩ := n
  rw [shift, shiftAll_eq_map]

@[simp]
theorem shift_children (n : Node) : (n.shift before).children = n.children.map (shift before) := by
  rw [shift_eq]

/-- Nodes keep their order. -/
theorem key_shift (n : Node) : (n.shift before).key = n.key + Text.byteSize before := by
  rw [shift_eq]
  unfold key
  obtain ⟨anchor, tags, children, span⟩ := n
  cases anchor with
  | none => cases tags <;> rfl
  | some a =>
    cases tags with
    | nil => rfl
    | cons t ts => exact (Nat.add_min_add_right _ _ _)

end Node

/-! ## Comments -/

/-- The line of a comment in the text when it comes after another one. -/
def CommentLine.shift (before : List Char) (l : CommentLine) : CommentLine :=
  { l with start := l.start.shift before }

/-- The comment in the text when it comes after another one. -/
def Comment.shift (before : List Char) (c : Comment) : Comment :=
  ⟨c.lines.map (·.shift before), c.span.shift before⟩

/-- The tag and what is wrong with it in the text when it comes after another one. -/
def ParsedTag.shift (before : List Char) (t : ParsedTag) : ParsedTag :=
  ⟨t.tag.shift before, t.diagnostics.map (·.shift before)⟩

variable {before : List Char}

/-- A text that comes before moves all positions alike. -/
theorem Position.steady_shift (p : Position) (s : List Char) : p.Steady (shift before) s :=
  fun t _ ↦ (after_shift p t).symm

theorem CommentLine.strip_shift (p : Position) (line : List Char) (k : Nat) :
    strip (p.shift before) line k = (strip p line k).shift before :=
  (relocate_strip (p.steady_shift line) k).1

namespace Comment

theorem blockLines_shift (content : List Char) (p : Position) :
    blockLines content (p.shift before) = (blockLines content p).map (·.shift before) :=
  (relocate_blockLines (p.steady_shift content)).1

/-- The tags of a comment and what is wrong with them move with it. -/
theorem tags_shift (registry : Registry) (c : Comment) :
    (c.shift before).tags registry = (c.tags registry).map (·.shift before) :=
  tags_relocate registry fun l _ ↦ l.start.steady_shift l.text

end Comment

end Marginalia
