import Marginalia.Position

/-!
# Open contexts

The contexts a scan is inside of, innermost first, up to a depth limit. What opens past the limit
is only counted, so that the closers that belong to it can be told apart.
-/

namespace Marginalia

/-- Something that has opened and not yet closed. -/
inductive Context where
  /-- A pair of brackets, by its index in the grammar. -/
  | block (pair : Nat) (opened : Position)
  /-- The body of an anchor; an indentation body knows the indentation of its anchor's line. -/
  | body (opened : Position) (indent : Option Nat)
  /-- A string literal, by the index of its delimiter in the grammar. -/
  | literal (delimiter : Nat) (opened : Position)
  /-- A comment. -/
  | comment (opened : Position)
deriving DecidableEq, Repr

/-- Where a context opened. -/
def Context.opened : Context → Position
  | block _ opened | body opened _ | literal _ opened | comment opened => opened

/-- Whether a context is the body of an anchor. -/
def Context.isBody : Context → Bool
  | body _ _ => true
  | block _ _ | literal _ _ | comment _ => false

/-- The open contexts. -/
structure Nesting where
  /-- The open contexts, innermost first. -/
  contexts : List Context := []
  limit : Nat
  /-- The number of contexts that opened past the limit. -/
  overflow : Nat := 0
deriving DecidableEq, Repr

/-- What became of a context that opened. -/
inductive Opening where
  | entered
  /-- Past the limit; the first of an episode is marked. -/
  | overflowed (first : Bool)
deriving DecidableEq, Repr

namespace Nesting

/-- The number of open contexts. -/
def depth (n : Nesting) : Nat := n.contexts.length

/-- The innermost context. -/
def top? (n : Nesting) : Option Context := n.contexts.head?

/-- What happens to a context that opens now. -/
def opening (n : Nesting) : Opening :=
  if 0 < n.overflow ∨ n.limit ≤ n.depth then .overflowed (n.overflow = 0) else .entered

/-- Open a context, or count it past the limit. -/
def push (n : Nesting) (c : Context) : Nesting :=
  match n.opening with
  | .entered => { n with contexts := c :: n.contexts }
  | .overflowed _ => { n with overflow := n.overflow + 1 }

/-- Close the innermost context. -/
def pop (n : Nesting) : Nesting := { n with contexts := n.contexts.tail }

/-- Forget one context that opened past the limit. -/
def absorb (n : Nesting) : Nesting := { n with overflow := n.overflow - 1 }

/-- Forget all contexts that opened past the limit. -/
def clearOverflow (n : Nesting) : Nesting := { n with overflow := 0 }

/-- Close what `push` has opened, counted contexts included. -/
def undo (n : Nesting) : Opening → Nesting
  | .entered => n.pop
  | .overflowed _ => n.absorb

/-- Opening a context and closing it again changes nothing. -/
@[simp]
theorem undo_push (n : Nesting) (c : Context) : (n.push c).undo n.opening = n := by
  unfold push
  cases h : n.opening <;> simp [undo, pop, absorb]

theorem absorb_push {n : Nesting} {first : Bool} (h : n.opening = .overflowed first) (c : Context) :
    (n.push c).absorb = n := by
  simp [push, h, absorb]

end Nesting

end Marginalia
