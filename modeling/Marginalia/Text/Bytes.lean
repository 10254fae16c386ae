/-!
# Texts measured in bytes

A text is a list of characters; its size is the number of bytes of its UTF-8 encoding. Offsets
are sizes, so that a text can be cut at an offset only where a character ends.
-/

namespace Marginalia.Text

/-- The number of bytes of a text. -/
def byteSize : List Char → Nat
  | [] => 0
  | c :: cs => c.utf8Size + byteSize cs

@[simp]
theorem byteSize_nil : byteSize [] = 0 := rfl

@[simp]
theorem byteSize_cons (c : Char) (cs : List Char) :
    byteSize (c :: cs) = c.utf8Size + byteSize cs := rfl

@[simp]
theorem byteSize_append (s t : List Char) : byteSize (s ++ t) = byteSize s + byteSize t := by
  induction s with
  | nil => simp
  | cons c cs ih => simp [ih, Nat.add_assoc]

@[simp]
theorem byteSize_reverse (s : List Char) : byteSize s.reverse = byteSize s := by
  induction s with
  | nil => rfl
  | cons c cs ih => simp [ih, Nat.add_comm]

theorem length_le_byteSize (s : List Char) : s.length ≤ byteSize s := by
  induction s with
  | nil => simp
  | cons c cs ih => have := c.utf8Size_pos; simp; omega

/-- How many characters make up the shortest start of a text that has `n` bytes or more; all of
them, when the text is shorter. -/
def charsCovering : Nat → List Char → Nat
  | _, [] => 0
  | 0, _ => 0
  | n + 1, c :: cs => charsCovering (n + 1 - c.utf8Size) cs + 1

@[simp]
theorem charsCovering_zero (s : List Char) : charsCovering 0 s = 0 := by
  cases s <;> rfl

/-- What is left after exactly `n` bytes; nothing, when `n` lies inside a character or past the
end. -/
def dropBytes? : Nat → List Char → Option (List Char)
  | 0, s => some s
  | _ + 1, [] => none
  | n + 1, c :: cs => if c.utf8Size ≤ n + 1 then dropBytes? (n + 1 - c.utf8Size) cs else none

/-- The first `n` bytes; nothing, when `n` lies inside a character or past the end. -/
def takeBytes? : Nat → List Char → Option (List Char)
  | 0, _ => some []
  | _ + 1, [] => none
  | n + 1, c :: cs =>
    if c.utf8Size ≤ n + 1 then (takeBytes? (n + 1 - c.utf8Size) cs).map (c :: ·) else none

theorem dropBytes?_cons {n : Nat} {c : Char} (h : c.utf8Size ≤ n) (cs : List Char) :
    dropBytes? n (c :: cs) = dropBytes? (n - c.utf8Size) cs := by
  cases n with
  | zero => have := c.utf8Size_pos; omega
  | succ n => rw [dropBytes?, if_pos h]

theorem takeBytes?_cons {n : Nat} {c : Char} (h : c.utf8Size ≤ n) (cs : List Char) :
    takeBytes? n (c :: cs) = (takeBytes? (n - c.utf8Size) cs).map (c :: ·) := by
  cases n with
  | zero => have := c.utf8Size_pos; omega
  | succ n => rw [takeBytes?, if_pos h]

@[simp]
theorem dropBytes?_append (s t : List Char) : dropBytes? (byteSize s) (s ++ t) = some t := by
  induction s with
  | nil => cases t <;> rfl
  | cons c cs ih => simp [dropBytes?_cons, ih]

@[simp]
theorem takeBytes?_append (s t : List Char) : takeBytes? (byteSize s) (s ++ t) = some s := by
  induction s with
  | nil => cases t <;> rfl
  | cons c cs ih => simp [takeBytes?_cons, ih]

/-- The text between two offsets, when both end a character and are in order. -/
def slice? (s : List Char) (start stop : Nat) : Option (List Char) :=
  if start ≤ stop then (dropBytes? start s).bind (takeBytes? (stop - start)) else none

/-- The text between the offsets where it starts and ends is the text itself. -/
theorem slice?_append (s t u : List Char) :
    slice? (s ++ (t ++ u)) (byteSize s) (byteSize s + byteSize t) = some t := by
  simp [slice?]

end Marginalia.Text
