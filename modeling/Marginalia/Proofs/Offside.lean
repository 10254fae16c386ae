import Marginalia.Proofs.Placement
import Mathlib.Data.List.FinRange

/-!
# The offside rule

Lines of code are nested by their indentation alone. A header encloses a later line if that line and
all lines in between are indented deeper than the header is; the nearest header that encloses a line
is its parent. The headers that have not been left yet can be kept in a list, the nearest first: a
line leaves those that are not indented less than it is, and is put in front if it is a header
itself.
-/

namespace Marginalia

/-- An identifier in ASCII. -/
def isAsciiIdent : List Char → Bool
  | [] => false
  | c :: cs => (c.isAlpha || c = '_') && cs.all fun c ↦ c.isAlphanum || c = '_'

/-- A name for a class or a function. -/
structure Identifier where
  text : List Char
  valid : isAsciiIdent text = true
deriving DecidableEq, Repr

/-- What stands on a line after its indentation. -/
inductive Statement where
  /-- A line `class N:`. -/
  | classHeader (name : Identifier)
  /-- A line `def n():`. -/
  | defHeader (name : Identifier)
  /-- A line `pass`. -/
  | pass
deriving DecidableEq, Repr

namespace Statement

/-- Whether a body may follow. -/
def isHeader : Statement → Bool
  | classHeader _ | defHeader _ => true
  | pass => false

/-- Whether the body of a class may follow. -/
def isClass : Statement → Bool
  | classHeader _ => true
  | defHeader _ | pass => false

def text : Statement → List Char
  | classHeader name => "class ".toList ++ (name.text ++ [':'])
  | defHeader name => "def ".toList ++ (name.text ++ "():".toList)
  | pass => "pass".toList

/-- The anchor of a header that starts at `p`, in the body of a class or not. -/
def anchor? (inClass : Bool) (p : Position) : Statement → Option Anchor
  | classHeader name =>
    some ⟨.classDecl, String.ofList name.text, ⟨p, p.after ("class ".toList ++ name.text)⟩⟩
  | defHeader name =>
    some ⟨if inClass then .methodDecl else .functionDecl, String.ofList name.text,
      ⟨p, p.after ("def ".toList ++ name.text)⟩⟩
  | pass => none

variable {st : Statement} {inClass : Bool} {p : Position} {x : Anchor}

theorem isHeader_eq (st : Statement) (inClass : Bool) (p : Position) :
    st.isHeader = (st.anchor? inClass p).isSome := by
  cases st <;> rfl

theorem isClass_iff :
    (st.anchor? inClass p).map (·.kind) = some .classDecl ↔ st.isClass = true := by
  cases st with
  | classHeader name => simp [anchor?, isClass]
  | defHeader name => cases inClass <;> simp [anchor?, isClass]
  | pass => simp [anchor?, isClass]

theorem start_of_anchor? (h : st.anchor? inClass p = some x) : x.span.start = p := by
  cases st with
  | pass => cases h
  | classHeader name | defHeader name =>
    cases h
    rfl

end Statement

/-- A line of code: any number of spaces and tabs, then a statement. -/
structure CodeLine where
  indent : List Char
  statement : Statement
  blank : indent.all Text.isInlineBlank = true

namespace CodeLine

def text (l : CodeLine) : List Char := l.indent ++ l.statement.text

theorem isInlineBlank_of_mem (l : CodeLine) : ∀ c ∈ l.indent, Text.isInlineBlank c = true :=
  List.all_eq_true.mp l.blank

/-- How deep a line is indented. -/
def width (l : CodeLine) : Nat := l.indent.length

/-! ## Lines one below the other -/

variable (ls : List CodeLine)

/-- The lines as a text, with a newline at its end or without one. -/
def source (closed : Bool) : List Char :=
  Text.unlines (ls.map text) ++ if closed then ['\n'] else []

/-- The text in front of a line. -/
def textBefore (i : Nat) : List Char := (ls.take i).flatMap fun l ↦ l.text ++ ['\n']

/-- The lines that start a body, from the first to the last. -/
def headers : List (Fin ls.length) :=
  (List.finRange ls.length).filter fun i ↦ (ls.get i).statement.isHeader

/-- The lines in front of a line, from the nearest to the first. -/
def earlier (i : Nat) : List (Fin ls.length) := ((List.finRange ls.length).take i).reverse

/-- A line is in the body of an earlier header if it and all lines in between are indented deeper
than the header is. -/
def Encloses (j i : Fin ls.length) : Prop :=
  (ls.get j).statement.isHeader = true ∧ j < i ∧
    ∀ k, j < k → k ≤ i → (ls.get j).width < (ls.get k).width

instance (j i : Fin ls.length) : Decidable (Encloses ls j i) :=
  inferInstanceAs (Decidable ((ls.get j).statement.isHeader = true ∧ j < i ∧
    ∀ k, j < k → k ≤ i → (ls.get j).width < (ls.get k).width))

/-- The headers that a line is in the body of, from the nearest to the first. -/
def enclosing (i : Fin ls.length) : List (Fin ls.length) := (earlier ls i).filter (Encloses ls · i)

/-- The nearest header that a line is in the body of. -/
def parent? (i : Fin ls.length) : Option (Fin ls.length) := (earlier ls i).find? (Encloses ls · i)

/-- The anchor of a line. -/
def anchor? (i : Fin ls.length) : Option Anchor :=
  (ls.get i).statement.anchor? ((parent? ls i).any fun j ↦ (ls.get j).statement.isClass)
    (Position.start.after (textBefore ls i ++ (ls.get i).indent))

/-- The anchor of a header, and that of its parent; there is none if the parent is the root. -/
def kin? (i : Fin ls.length) : Option (Option Anchor × Option (Option Anchor)) :=
  (anchor? ls i).map fun a ↦ (some a, some ((parent? ls i).bind (anchor? ls)))

/-! ## Headers that have not been left -/

/-- The body of a header goes on up to a line. -/
def IsOpenAt (j : Fin ls.length) (i : Nat) : Prop :=
  (ls.get j).statement.isHeader = true ∧ ∀ k, j < k → k < i → (ls.get j).width < (ls.get k).width

instance (j : Fin ls.length) (i : Nat) : Decidable (IsOpenAt ls j i) :=
  inferInstanceAs (Decidable ((ls.get j).statement.isHeader = true ∧
    ∀ k : Fin ls.length, j < k → k < i → (ls.get j).width < (ls.get k).width))

/-- The headers in front of a line whose bodies go on up to it, from the nearest to the first. -/
def openAt (i : Nat) : List (Fin ls.length) := (earlier ls i).filter (IsOpenAt ls · i)

variable {ls}

theorem isHeader_eq (i : Fin ls.length) : (ls.get i).statement.isHeader = (anchor? ls i).isSome :=
  Statement.isHeader_eq _ _ _

theorem isHeader_of_anchor? {i : Fin ls.length} {x : Anchor} (h : anchor? ls i = some x) :
    (ls.get i).statement.isHeader = true := by
  rw [isHeader_eq, h]
  rfl

theorem start_of_anchor? {i : Fin ls.length} {x : Anchor} (h : anchor? ls i = some x) :
    x.span.start = Position.start.after (textBefore ls i ++ (ls.get i).indent) :=
  Statement.start_of_anchor? h

theorem le_start_of_anchor? {i : Fin ls.length} {x : Anchor} (h : anchor? ls i = some x) :
    Text.byteSize (textBefore ls i) ≤ x.span.start.offset := by
  rw [start_of_anchor? h, Position.after_offset, Text.byteSize_append]
  omega

theorem mem_headers {i : Fin ls.length} :
    i ∈ headers ls ↔ (ls.get i).statement.isHeader = true := by
  rw [headers, List.mem_filter]
  exact and_iff_right (List.mem_finRange i)

theorem filterMap_kin? (ls : List CodeLine) :
    (List.finRange ls.length).filterMap (kin? ls) =
      (headers ls).map fun i ↦ (anchor? ls i, some ((parent? ls i).bind (anchor? ls))) := by
  rw [headers]
  induction List.finRange ls.length with
  | nil => rfl
  | cons i is ih =>
    cases hx : anchor? ls i with
    | none =>
      have hheader : (ls.get i).statement.isHeader = false := by
        rw [isHeader_eq, hx]
        rfl
      rw [List.filterMap_cons_none (by rw [kin?, hx]; rfl), List.filter_cons, hheader, ih]
      rfl
    | some x =>
      rw [List.filterMap_cons_some (by rw [kin?, hx]; rfl), List.filter_cons,
        isHeader_of_anchor? hx, if_pos rfl, List.map_cons, ih, hx]

theorem mem_earlier {i : Nat} {j : Fin ls.length} : j ∈ earlier ls i ↔ j < i := by
  rw [earlier, List.mem_reverse, List.mem_take_iff_getElem]
  simp only [List.getElem_finRange, List.length_finRange]
  constructor
  · rintro ⟨k, hk, rfl⟩
    simp only [Fin.val_cast]
    omega
  · intro h
    exact ⟨j, by omega, rfl⟩

theorem take_finRange_succ (i : Fin ls.length) :
    (List.finRange ls.length).take (i + 1) = (List.finRange ls.length).take i ++ [i] := by
  rw [List.take_add_one, List.getElem?_eq_getElem (by simp)]
  simp

theorem earlier_succ (i : Fin ls.length) : earlier ls (i + 1) = i :: earlier ls i := by
  rw [earlier, take_finRange_succ, List.reverse_append]
  rfl

theorem pairwise_earlier (i : Nat) : (earlier ls i).Pairwise (· > ·) := by
  rw [earlier, List.pairwise_reverse]
  exact (List.pairwise_lt_finRange _).take

theorem isOpenAt_succ {j i : Fin ls.length} (h : j < i) :
    IsOpenAt ls j (i + 1) ↔ Encloses ls j i := by
  simp only [IsOpenAt, Encloses, h, true_and, Nat.lt_succ_iff, Fin.val_fin_le]

theorem encloses_iff {j i : Fin ls.length} (h : j < i) :
    Encloses ls j i ↔ IsOpenAt ls j i ∧ (ls.get j).width < (ls.get i).width := by
  constructor
  · rintro ⟨hheader, -, hdeep⟩
    exact ⟨⟨hheader, fun k hjk hki ↦ hdeep k hjk (Fin.le_of_lt hki)⟩, hdeep i h (Fin.le_refl i)⟩
  · rintro ⟨⟨hheader, hdeep⟩, hi⟩
    refine ⟨hheader, h, fun k hjk hki ↦ ?_⟩
    rcases Fin.lt_or_eq_of_le hki with hki | rfl
    · exact hdeep k hjk hki
    · exact hi

/-- A line leaves the headers that are not indented less. -/
theorem enclosing_eq (i : Fin ls.length) :
    enclosing ls i = (openAt ls i).filter fun j ↦ (ls.get j).width < (ls.get i).width := by
  rw [enclosing, openAt, List.filter_filter]
  refine List.filter_congr fun j hj ↦ ?_
  rw [Bool.eq_iff_iff, Bool.and_eq_true, decide_eq_true_eq, decide_eq_true_eq, decide_eq_true_eq,
    and_comm]
  exact encloses_iff (mem_earlier.mp hj)

/-- Behind a line the bodies go on that it is in, and its own. -/
theorem openAt_succ (i : Fin ls.length) :
    openAt ls (i + 1) = (if (ls.get i).statement.isHeader then [i] else []) ++ enclosing ls i := by
  have hself : IsOpenAt ls i (i + 1) ↔ (ls.get i).statement.isHeader = true := by
    refine and_iff_left fun k hik hki ↦ absurd hik ?_
    exact Fin.not_lt.mpr (Nat.lt_succ_iff.mp hki)
  have hrest : (earlier ls i).filter (IsOpenAt ls · (i + 1)) = enclosing ls i :=
    List.filter_congr fun j hj ↦ decide_eq_decide.mpr (isOpenAt_succ (mem_earlier.mp hj))
  rw [openAt, earlier_succ, List.filter_cons, hrest]
  simp only [hself, decide_eq_true_eq]
  split <;> rfl

theorem parent?_eq_head? (i : Fin ls.length) : parent? ls i = (enclosing ls i).head? :=
  List.head?_filter.symm

/-- The nearer a header is, the deeper it is indented. -/
theorem pairwise_openAt (i : Nat) :
    (openAt ls i).Pairwise fun j k ↦ (ls.get k).width < (ls.get j).width := by
  rw [openAt, List.pairwise_filter]
  refine (pairwise_earlier i).imp_of_mem fun {j k} hj _ hkj _ hk ↦ ?_
  exact (of_decide_eq_true hk).2 j hkj (mem_earlier.mp hj)

/-! ## The text of lines -/

theorem textBefore_succ (i : Fin ls.length) :
    textBefore ls (i + 1) = textBefore ls i ++ ((ls.get i).text ++ ['\n']) := by
  rw [textBefore, List.take_add_one, List.getElem?_eq_getElem i.isLt, Option.toList_some,
    List.flatMap_append, List.flatMap_singleton]
  rfl

theorem textBefore_endsLine (i : Fin ls.length) :
    textBefore ls i = [] ∨ Text.EndsLine (textBefore ls i) := by
  obtain ⟨i, hi⟩ := i
  cases i with
  | zero => exact .inl rfl
  | succ i =>
    have hsucc : textBefore ls (i + 1) = _ := textBefore_succ ⟨i, Nat.lt_of_succ_lt hi⟩
    refine .inr ?_
    rw [Text.EndsLine, hsucc, ← List.append_assoc]
    exact List.getLast?_concat

theorem byteSize_textBefore_le {i j : Nat} (h : i ≤ j) :
    Text.byteSize (textBefore ls i) ≤ Text.byteSize (textBefore ls j) := by
  obtain ⟨more, hmore⟩ := List.take_prefix_take_left (l := ls) h
  rw [textBefore, textBefore, ← hmore, List.flatMap_append, Text.byteSize_append]
  exact Nat.le_add_right _ _

/-- No two headers have the same anchor. -/
theorem nodup_anchor? (ls : List CodeLine) : ((headers ls).map (anchor? ls)).Nodup := by
  have hlt : ∀ i ∈ headers ls, ∀ j ∈ headers ls, i < j → anchor? ls i ≠ anchor? ls j := by
    intro i hi j hj hij heq
    have hsome : (anchor? ls i).isSome = true := (isHeader_eq i).symm.trans (mem_headers.mp hi)
    obtain ⟨x, hx⟩ := Option.isSome_iff_exists.mp hsome
    have hle : Text.byteSize (textBefore ls (i + 1)) ≤ x.span.start.offset :=
      (byteSize_textBefore_le (Nat.succ_le_of_lt hij)).trans
        (le_start_of_anchor? (heq.symm.trans hx))
    have hsucc := congrArg Text.byteSize (textBefore_succ i)
    have hnewline : 0 < Text.byteSize ['\n'] := by decide
    rw [CodeLine.text] at hsucc
    simp only [Text.byteSize_append] at hsucc
    rw [start_of_anchor? hx, Position.after_offset, Text.byteSize_append] at hle
    have hstart : Position.start.offset = 0 := rfl
    omega
  have hsorted : (headers ls).Pairwise (· < ·) := (List.pairwise_lt_finRange _).filter _
  exact List.pairwise_map.mpr (hsorted.imp_of_mem fun hi hj hij ↦ hlt _ hi _ hj hij)

/-- What follows a line. -/
def textAfter (ls : List CodeLine) (closed : Bool) (i : Nat) : List Char :=
  if i + 1 < ls.length then '\n' :: source (ls.drop (i + 1)) closed
  else if closed then ['\n'] else []

theorem source_drop (closed : Bool) (i : Fin ls.length) :
    source (ls.drop i) closed = (ls.get i).text ++ textAfter ls closed i := by
  rw [List.drop_eq_getElem_cons i.isLt, source, List.map_cons, textAfter]
  by_cases hlt : i + 1 < ls.length
  · rw [if_pos hlt, source, List.drop_eq_getElem_cons hlt, List.map_cons, Text.unlines_cons_cons,
      List.append_assoc]
    rfl
  · rw [if_neg hlt, List.drop_eq_nil_of_le (Nat.le_of_not_lt hlt), List.map_nil,
      Text.unlines_singleton]
    rfl

theorem head?_textAfter {closed : Bool} {i : Nat} {d : Char}
    (h : (textAfter ls closed i).head? = some d) : d = '\n' := by
  unfold textAfter at h
  split at h
  · exact (Option.some.inj h).symm
  · split at h
    · exact (Option.some.inj h).symm
    · cases h

end CodeLine

end Marginalia
