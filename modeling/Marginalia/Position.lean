import Marginalia.Count
import Marginalia.Text.Bytes

/-!
# Positions and spans

A position counts bytes from the start of the text and names a line and a column, both counted
from one; a column counts characters. A span is the half-open region between two positions.
-/

namespace Marginalia

/-- A point in a text. -/
structure Position where
  offset : Nat
  line : Nat
  column : Nat
deriving DecidableEq, Repr

namespace Position

/-- The start of a text. -/
def start : Position := ⟨0, 1, 1⟩

instance : Inhabited Position := ⟨start⟩

/-- The position after one more character. -/
def step (p : Position) (c : Char) : Position :=
  if c = '\n' then ⟨p.offset + c.utf8Size, p.line + 1, 1⟩
  else ⟨p.offset + c.utf8Size, p.line, p.column + 1⟩

/-- The position after more text. -/
def after (p : Position) (s : List Char) : Position := s.foldl step p

@[simp]
theorem after_nil (p : Position) : p.after [] = p := rfl

@[simp]
theorem after_cons (p : Position) (c : Char) (s : List Char) :
    p.after (c :: s) = (p.step c).after s := rfl

theorem after_append (p : Position) (s t : List Char) : p.after (s ++ t) = (p.after s).after t :=
  List.foldl_append

@[simp]
theorem step_offset (p : Position) (c : Char) : (p.step c).offset = p.offset + c.utf8Size := by
  unfold step; split <;> rfl

@[simp]
theorem after_offset (p : Position) (s : List Char) :
    (p.after s).offset = p.offset + Text.byteSize s := by
  induction s generalizing p with
  | nil => rfl
  | cons c s ih => simp [ih, Nat.add_assoc]

/-- Earlier by offset, then line, then column. -/
def precedes (p q : Position) : Bool :=
  p.offset < q.offset ||
    (p.offset = q.offset && (p.line < q.line || (p.line = q.line && p.column < q.column)))

/-- The counts of a position fit in words. -/
def InWords (p : Position) : Prop :=
  p.offset < wordBound ∧ p.line < wordBound ∧ p.column < wordBound

instance (p : Position) : Decidable p.InWords := inferInstanceAs (Decidable (_ ∧ _ ∧ _))

/-- The position after one more character, counted in 64-bit words. There is none where a count does
not fit. -/
def step? (p : Position) (c : Char) : Option Position :=
  if (p.step c).InWords then some (p.step c) else none

/-- The position after more text, counted in 64-bit words. -/
def after? (p : Position) (s : List Char) : Option Position := s.foldlM step? p

/-- A position as `LINE:COLUMN`. -/
def render (p : Position) : String := s!"{p.line}:{p.column}"

end Position

/-- The region from `start` up to, not including, `stop`. -/
structure Span where
  start : Position
  stop : Position
deriving DecidableEq, Repr

namespace Span

/-- The empty region at a position. -/
def point (p : Position) : Span := ⟨p, p⟩

instance : Inhabited Span := ⟨point .start⟩

/-- Whether `t` lies inside `s`, edges included. -/
def contains (s t : Span) : Bool :=
  s.start.offset ≤ t.start.offset && t.stop.offset ≤ s.stop.offset

/-- A span as `LINE:COLUMN-LINE:COLUMN`. -/
def render (s : Span) : String := s!"{s.start.render}-{s.stop.render}"

end Span

end Marginalia
