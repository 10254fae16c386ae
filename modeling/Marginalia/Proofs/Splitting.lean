import Marginalia.Proofs.Bounds
import Mathlib.Data.Bool.AllAny

/-!
# Brackets in argument lists

An argument list is split by counting brackets, whatever their kind. A nest keeps the closers that
are due instead and stops at a closer that is not the next of them. As long as it goes on, the count
is the number of closers due; so the parts of an argument list, which leave the count at zero, are
balanced unless a closer in them is out of place.
-/

namespace Marginalia

/-- What is trimmed off the end of a text are blanks. -/
theorem Text.exists_trimEnd_append (s : List Char) :
    ∃ blanks, (∀ c ∈ blanks, isBlank c = true) ∧ s = trimEnd s ++ blanks := by
  refine ⟨(s.reverse.takeWhile isBlank).reverse, fun c hc ↦ ?_, ?_⟩
  · exact List.mem_takeWhile_imp (List.mem_reverse.mp hc)
  · rw [trimEnd, ← List.reverse_append, List.takeWhile_append_dropWhile, List.reverse_reverse]

namespace Arguments

variable {c : Char} {text rest : List Char}

/-! ## Nests -/

/-- The brackets that are open at a place in a text. -/
structure Nest where
  /-- The closers that are due, innermost first. -/
  due : List Char := []
  /-- The mark that ends the quotation. -/
  quotation : Option Char := none
  /-- Just after a backslash in a quotation. -/
  escaped : Bool := false
deriving DecidableEq, Repr

/-- The closer that belongs to an opener. -/
def closer? (c : Char) : Option Char :=
  if c = '(' then some ')'
  else if c = '[' then some ']'
  else if c = '\x7b' then some '\x7d'
  else if c = '<' then some '>'
  else none

/-- Whether a character closes brackets of some kind. -/
def isCloser (c : Char) : Bool := c = ')' || c = ']' || c = '\x7d' || c = '>'

/-- The characters that open and close brackets and quotations. -/
def heeded : List Char := quotes ++ ['(', ')', '[', ']', '\x7b', '\x7d', '<', '>']

theorem ignored_of_notMem (hc : c ∉ heeded) :
    quotes.contains c = false ∧ closer? c = none ∧ isCloser c = false := by
  have hmark : quotes.contains c = false := by
    rw [← Bool.not_eq_true, List.contains_iff_mem]
    exact fun hmem ↦ hc (List.mem_append_left _ hmem)
  simp only [heeded, List.mem_append, List.mem_cons, List.not_mem_nil, or_false, not_or] at hc
  obtain ⟨-, h1, h2, h3, h4, h5, h6, h7, h8⟩ := hc
  exact ⟨hmark, by simp [closer?, h1, h3, h5, h7], by simp [isCloser, h2, h4, h6, h8]⟩

namespace Nest

variable {n m : Nest}

/-- The nest after one more character; none at a closer that is not the next one due. -/
def step? (n : Nest) (c : Char) : Option Nest :=
  match n.quotation with
  | some q =>
    if n.escaped then some { n with escaped := false }
    else if c = '\\' then some { n with escaped := true }
    else if c = q then some { n with quotation := none }
    else some n
  | none =>
    if quotes.contains c then some { n with quotation := some c }
    else
      match closer? c with
      | some q => some { n with due := q :: n.due }
      | none =>
        if isCloser c then
          match n.due with
          | [] => none
          | q :: due => if q = c then some { n with due } else none
        else some n

/-- The nest after a text. -/
def run? (n : Nest) (text : List Char) : Option Nest := text.foldlM step? n

@[simp] theorem run?_nil (n : Nest) : n.run? [] = some n := rfl

@[simp] theorem run?_cons (n : Nest) (c : Char) (text : List Char) :
    n.run? (c :: text) = (n.step? c).bind (·.run? text) := rfl

/-- Outside of quotations a nest ignores everything but brackets and quotation marks. -/
theorem run?_of_notMem (hquote : n.quotation = none) (h : ∀ c ∈ text, c ∉ heeded) :
    n.run? text = some n := by
  induction text with
  | nil => rfl
  | cons c text ih =>
    obtain ⟨hc, htext⟩ := List.forall_mem_cons.mp h
    obtain ⟨hmark, hopener, hcloser⟩ := ignored_of_notMem hc
    have hstep : n.step? c = some n := by
      simp only [step?, hquote, hmark, hopener, hcloser, Bool.false_eq_true, if_false]
    rw [run?_cons, hstep]
    exact ih htext

/-- Where a splitter stands that has counted the brackets of a nest. -/
def splitter (n : Nest) : Splitter := ⟨n.due.length, n.quotation, n.escaped⟩

/-- An opener is counted, and so is a closer. -/
theorem step_eq (s : Splitter) (hquote : s.quotation = none) (c : Char) :
    s.step c =
      if quotes.contains c then { s with quotation := some c }
      else if (closer? c).isSome then { s with depth := s.depth + 1 }
      else if isCloser c then { s with depth := s.depth - 1 }
      else s := by
  have hopener : (closer? c).isSome = (c = '(' || c = '[' || c = '\x7b' || c = '<') := by
    unfold closer?
    split_ifs <;> simp [*]
  rw [Splitter.step, hquote, hopener]
  rfl

theorem splitter_step? (h : n.step? c = some m) : n.splitter.step c = m.splitter := by
  unfold step? at h
  split at h
  · rename_i q hq
    simp only [Splitter.step, splitter, hq]
    split_ifs at h ⊢ <;> cases h <;> simp_all
  · rename_i hq
    rw [step_eq n.splitter hq]
    split at h
    · rename_i hmark
      cases h
      rw [if_pos hmark]
      rfl
    rename_i hmark
    rw [if_neg hmark]
    split at h
    · rename_i q hcloser
      cases h
      rw [hcloser]
      rfl
    rename_i hcloser
    rw [hcloser]
    split at h
    · rename_i hclose
      split at h
      · cases h
      · rename_i q due hdue
        split at h
        · cases h
          simp [hclose, splitter, hdue]
        · cases h
    · rename_i hclose
      cases h
      simp [hclose]

/-- As long as a nest goes on, the splitter counts the closers that are due. -/
theorem splitter_run? (h : n.run? text = some m) :
    text.foldl Splitter.step n.splitter = m.splitter := by
  induction text generalizing n with
  | nil =>
    cases h
    rfl
  | cons c text ih =>
    rw [run?_cons] at h
    obtain ⟨k, hk, hrest⟩ := Option.bind_eq_some_iff.mp h
    rw [List.foldl_cons, splitter_step? hk, ih hrest]

theorem eq_of_splitter_eq (h : n.splitter = {}) : n = {} := by
  obtain ⟨due, quotation, escaped⟩ := n
  simp only [splitter, Splitter.mk.injEq, List.length_eq_zero_iff] at h
  simp [h]

end Nest

/-- Brackets match in pairs of a kind, quotations set aside. -/
def Balanced (text : List Char) : Prop := Nest.run? {} text = some {}

instance (text : List Char) : Decidable (Balanced text) :=
  inferInstanceAs (Decidable (Nest.run? {} text = some {}))

/-! ## Splitters -/

namespace Splitter

variable {s : Splitter}

/-- A quotation is ended by one of the marks, and nothing is escaped outside of it. -/
structure Sound (s : Splitter) : Prop where
  marks : ∀ q, s.quotation = some q → q ∈ quotes
  escaped : s.quotation = none → s.escaped = false

theorem sound_start : Sound {} := ⟨by simp, fun _ ↦ rfl⟩

theorem Sound.step (h : s.Sound) (c : Char) : (s.step c).Sound := by
  cases hq : s.quotation with
  | some q =>
    have hmark := h.marks q hq
    simp only [Splitter.step, hq]
    split_ifs with hescaped hslash hend
    · exact ⟨by simpa [hq] using hmark, by simp⟩
    · exact ⟨by simpa [hq] using hmark, by simp⟩
    · exact ⟨by simp, fun _ ↦ by simpa using hescaped⟩
    · exact h
  | none =>
    have hescaped := h.escaped hq
    rw [Nest.step_eq s hq]
    split_ifs with hmark hopener hcloser
    · exact ⟨by simpa using hmark, by simp⟩
    · exact ⟨by simp [hq], fun _ ↦ hescaped⟩
    · exact ⟨by simp [hq], fun _ ↦ hescaped⟩
    · exact h

theorem Sound.foldl (h : s.Sound) (text : List Char) : (text.foldl Splitter.step s).Sound := by
  induction text generalizing s with
  | nil => exact h
  | cons c text ih => exact ih (h.step c)

theorem Sound.eq_of_atTop (h : s.Sound) (htop : s.atTop = true) : s = {} := by
  simp only [atTop, Bool.and_eq_true, decide_eq_true_eq, Option.isNone_iff_eq_none] at htop
  obtain ⟨hdepth, hquote⟩ := htop
  have hescaped := h.escaped hquote
  obtain ⟨depth, quotation, escaped⟩ := s
  simp_all

/-! ### Blanks -/

theorem ne_of_isBlank {special : List Char} (hspecial : ∀ d ∈ special, Text.isBlank d = false)
    (hc : Text.isBlank c = true) : c ∉ special := by
  intro hmem
  rw [hspecial c hmem] at hc
  cases hc

theorem step_of_notMem (hquote : s.quotation = none) (hc : c ∉ heeded) : s.step c = s := by
  obtain ⟨hmark, hopener, hcloser⟩ := ignored_of_notMem hc
  rw [Nest.step_eq s hquote, hmark, hopener, hcloser]
  rfl

theorem isBlank_heeded : ∀ d ∈ heeded, Text.isBlank d = false :=
  List.all_iff_forall_prop.mp (by decide)

/-- A quotation goes on over blanks; outside of quotations nothing happens. -/
theorem Sound.step_of_isBlank (h : s.Sound) (hc : Text.isBlank c = true) :
    (s.quotation = none → s.step c = s) ∧
      ∀ q, s.quotation = some q → (s.step c).quotation = some q := by
  refine ⟨fun hq ↦ step_of_notMem hq (ne_of_isBlank isBlank_heeded hc), fun q hq ↦ ?_⟩
  have hne : c ≠ q := by
    rintro rfl
    have hmark : c ∈ heeded := List.mem_append_left _ (h.marks c hq)
    exact ne_of_isBlank isBlank_heeded hc hmark
  simp only [Splitter.step, hq]
  split_ifs <;> simp_all

/-- Blanks that end outside of brackets and quotations have started there. -/
theorem Sound.foldl_blanks (h : s.Sound) (htext : ∀ d ∈ text, Text.isBlank d = true)
    (hend : text.foldl Splitter.step s = {}) : s = {} := by
  induction text generalizing s with
  | nil => exact hend
  | cons c text ih =>
    obtain ⟨hc, htext⟩ := List.forall_mem_cons.mp htext
    have hnext : s.step c = {} := ih (h.step c) htext hend
    obtain ⟨hnone, hsome⟩ := h.step_of_isBlank hc
    cases hq : s.quotation with
    | none => rw [← hnone hq, hnext]
    | some q =>
      have hstays := hsome q hq
      rw [hnext] at hstays
      cases hstays

/-! ### Texts that are not split -/

/-- The splitter goes over a text without splitting it, and ends outside of brackets and quotations.
-/
def Whole (s : Splitter) : List Char → Prop
  | [] => s = {}
  | c :: cs => (s.atTop = true → c ≠ ')' ∧ c ≠ ',') ∧ (s.step c).Whole cs

theorem Whole.foldl_eq (h : s.Whole text) : text.foldl step s = {} := by
  induction text generalizing s with
  | nil => exact h
  | cons c text ih => exact ih h.2

/-- Blanks in front of a text are passed over. -/
theorem Whole.of_blanks_append {blanks : List Char} (hblanks : ∀ d ∈ blanks, Text.isBlank d = true)
    (h : Whole {} (blanks ++ text)) : Whole {} text := by
  induction blanks with
  | nil => exact h
  | cons c blanks ih =>
    obtain ⟨hc, hblanks⟩ := List.forall_mem_cons.mp hblanks
    have hnext := h.2
    rw [(sound_start.step_of_isBlank hc).1 rfl] at hnext
    exact ih hblanks hnext

/-- Blanks after a text are passed over. -/
theorem Whole.of_append_blanks {blanks : List Char} (hs : s.Sound)
    (hblanks : ∀ d ∈ blanks, Text.isBlank d = true) (h : s.Whole (text ++ blanks)) :
    s.Whole text := by
  induction text generalizing s with
  | nil => exact hs.foldl_blanks hblanks h.foldl_eq
  | cons c text ih => exact ⟨h.1, ih (hs.step c) h.2⟩

/-- A text that is not split is not split without the blanks around it. -/
theorem Whole.trim (h : Whole {} text) : Whole {} (Text.trim text) := by
  have hindentation : ∀ d ∈ Text.indentation text, Text.isBlank d = true :=
    fun d hd ↦ List.mem_takeWhile_imp hd
  have hstart : Whole {} (Text.trimStart text) := by
    refine Whole.of_blanks_append hindentation ?_
    rwa [Text.indentation_append_trimStart]
  obtain ⟨blanks, hblanks, heq⟩ := Text.exists_trimEnd_append (Text.trimStart text)
  rw [heq] at hstart
  exact hstart.of_append_blanks sound_start hblanks

/-- A splitter goes on after a text that is not split. -/
theorem Whole.split?_append (h : s.Whole text) {tail part : List Char} {parts : List (List Char)}
    (htail : split? {} tail = some (part :: parts, rest)) :
    split? s (text ++ tail) = some ((text ++ part) :: parts, rest) := by
  induction text generalizing s with
  | nil =>
    rw [show s = {} from h]
    exact htail
  | cons c text ih =>
    obtain ⟨hc, htext⟩ := h
    have hclose : (s.atTop && decide (c = ')')) = false := by
      rw [Bool.and_eq_false_imp]
      exact fun htop ↦ decide_eq_false (hc htop).1
    have hcomma : (s.atTop && decide (c = ',')) = false := by
      rw [Bool.and_eq_false_imp]
      exact fun htop ↦ decide_eq_false (hc htop).2
    rw [List.cons_append, split?, hclose, hcomma, ih htext]
    rfl

end Splitter

/-! ## Parts -/

/-- The parts of an argument list are not split any further. -/
theorem whole_of_split? {s : Splitter} (hs : s.Sound) {inner : List Char}
    {parts : List (List Char)} (h : split? s inner = some (parts, rest)) :
    ∃ first more, parts = first :: more ∧ s.Whole first ∧
      ∀ part ∈ more, Splitter.Whole {} part := by
  induction inner generalizing s parts rest with
  | nil => cases h
  | cons c cs ih =>
    rw [split?] at h
    split at h
    · rename_i hclose
      cases h
      exact ⟨[], [], rfl, hs.eq_of_atTop (Bool.and_eq_true_iff.mp hclose).1, by simp⟩
    rename_i hclose
    split at h
    · rename_i hcomma
      have htop := hs.eq_of_atTop (Bool.and_eq_true_iff.mp hcomma).1
      obtain ⟨⟨later, rest'⟩, hlater, heq⟩ := Option.map_eq_some_iff.mp h
      cases heq
      obtain ⟨first, more, rfl, hfirst, hmore⟩ := ih hs hlater
      rw [htop] at hfirst
      exact ⟨[], first :: more, rfl, htop, List.forall_mem_cons.mpr ⟨hfirst, hmore⟩⟩
    · rename_i hcomma
      obtain ⟨⟨later, rest'⟩, hlater, heq⟩ := Option.map_eq_some_iff.mp h
      obtain ⟨first, more, rfl, hfirst, hmore⟩ := ih (hs.step c) hlater
      cases heq
      refine ⟨c :: first, more, rfl, ⟨fun htop ↦ ⟨?_, ?_⟩, hfirst⟩, hmore⟩
      · rintro rfl
        exact hclose (by simp [htop])
      · rintro rfl
        exact hcomma (by simp [htop])

/-- The trimmed parts of an argument list are not split any further. -/
theorem whole_of_mem_trimParts {inner : List Char} {parts : List (List Char)}
    (h : split? {} inner = some (parts, rest)) {part : List Char} (hpart : part ∈ trimParts parts) :
    Splitter.Whole {} part := by
  obtain ⟨first, more, rfl, hfirst, hmore⟩ := whole_of_split? Splitter.sound_start h
  have hmem : part ∈ (first :: more).map Text.trim := by
    unfold trimParts at hpart
    dsimp only at hpart
    split at hpart
    · cases hpart
    · exact hpart
  obtain ⟨raw, hraw, rfl⟩ := List.mem_map.mp hmem
  have hall : ∀ raw ∈ first :: more, Splitter.Whole {} raw :=
    List.forall_mem_cons.mpr ⟨hfirst, hmore⟩
  exact (hall raw hraw).trim

/-- A trimmed part of an argument list is balanced, unless a closer in it is out of place. -/
theorem balanced_of_mem_trimParts {inner : List Char} {parts : List (List Char)}
    (h : split? {} inner = some (parts, rest)) {part : List Char} (hpart : part ∈ trimParts parts)
    (hrun : (Nest.run? {} part).isSome = true) : Balanced part := by
  have hcount := (whole_of_mem_trimParts h hpart).foldl_eq
  obtain ⟨n, hn⟩ := Option.isSome_iff_exists.mp hrun
  rw [Balanced, hn, Nest.eq_of_splitter_eq ((Nest.splitter_run? hn).symm.trans hcount)]

/-- A text that may stand between two commas: its brackets are balanced, and no comma stands outside
of them. -/
structure IsPart (text : List Char) : Prop where
  balanced : Balanced text
  commas : ∀ front back, text = front ++ ',' :: back → ¬Balanced front

theorem isPart_iff {text : List Char} : IsPart text ↔
    Balanced text ∧ ∀ i < text.length, text[i]? = some ',' → ¬Balanced (text.take i) := by
  constructor
  · rintro ⟨hbalanced, hcommas⟩
    refine ⟨hbalanced, fun i hi hcomma ↦ hcommas _ (text.drop (i + 1)) ?_⟩
    obtain ⟨_, hget⟩ := List.getElem?_eq_some_iff.mp hcomma
    rw [← hget, List.getElem_cons_drop, List.take_append_drop]
  · rintro ⟨hbalanced, hcommas⟩
    refine ⟨hbalanced, ?_⟩
    rintro front back rfl
    simpa using hcommas front.length

instance (text : List Char) : Decidable (IsPart text) := decidable_of_iff _ isPart_iff.symm

theorem Nest.not_atTop_of_closing {n m : Nest} (h : n.step? ')' = some m) :
    n.splitter.atTop = false := by
  unfold step? at h
  cases hq : n.quotation with
  | some q => simp [Splitter.atTop, splitter, hq]
  | none =>
    cases hdue : n.due with
    | cons q due => simp [Splitter.atTop, splitter, hdue]
    | nil => simp [hq, hdue, quotes, closer?, isCloser] at h

/-- A text is not split if its brackets are balanced and no comma in it stands outside of brackets and
quotations. -/
theorem whole_of_run? {n : Nest} (hrun : n.run? text = some {})
    (hcommas : ∀ front back m, text = front ++ ',' :: back → n.run? front = some m →
      m.splitter.atTop = false) : n.splitter.Whole text := by
  induction text generalizing n with
  | nil =>
    cases hrun
    rfl
  | cons c text ih =>
    rw [Nest.run?_cons] at hrun
    obtain ⟨k, hk, hrest⟩ := Option.bind_eq_some_iff.mp hrun
    refine ⟨fun htop ↦ ⟨?_, ?_⟩, ?_⟩
    · rintro rfl
      rw [Nest.not_atTop_of_closing hk] at htop
      cases htop
    · rintro rfl
      rw [hcommas [] text n rfl rfl] at htop
      cases htop
    · rw [Nest.splitter_step? hk]
      refine ih hrest fun front back m heq hm ↦ hcommas (c :: front) back m ?_ ?_
      · rw [heq, List.cons_append]
      · rw [Nest.run?_cons, hk]
        exact hm

theorem IsPart.whole (h : IsPart text) : Splitter.Whole {} text := by
  refine whole_of_run? (n := {}) h.balanced fun front back m heq hm ↦ ?_
  by_contra htop
  rw [Bool.not_eq_false] at htop
  have hsound : m.splitter.Sound := Nest.splitter_run? hm ▸ Splitter.sound_start.foldl front
  refine h.commas front back heq ?_
  rw [Balanced, hm, Nest.eq_of_splitter_eq (hsound.eq_of_atTop htop)]

theorem trim_cons_space (text : List Char) : Text.trim (' ' :: text) = Text.trim text := by
  rw [Text.trim, Text.trimStart, List.dropWhile_cons_of_pos (by decide)]
  rfl

/-- Parts that are joined by commas and spaces are found again. -/
theorem split?_joined {value : List Char} {values : List (List Char)}
    (hparts : ∀ v ∈ value :: values, Splitter.Whole {} v) (rest : List Char) :
    ∃ part parts, split? {} ([',', ' '].intercalate (value :: values) ++ ')' :: rest) =
        some (part :: parts, rest) ∧
      (part :: parts).map Text.trim = (value :: values).map Text.trim := by
  induction values generalizing value with
  | nil =>
    have hclose : split? {} (')' :: rest) = some ([[]], rest) := rfl
    refine ⟨value, [], ?_, rfl⟩
    rw [List.intercalate_singleton, (hparts value (by simp)).split?_append hclose, List.append_nil]
  | cons next values ih =>
    obtain ⟨part, parts, hsplit, htrim⟩ := ih fun v hv ↦ hparts v (List.mem_cons_of_mem _ hv)
    have hcomma : split? {} (',' :: ' ' :: ([',', ' '].intercalate (next :: values) ++ ')' :: rest)) =
        some ([] :: (' ' :: part) :: parts, rest) := by
      rw [split?, split?, show Splitter.step {} ' ' = {} from rfl, hsplit]
      rfl
    refine ⟨value, (' ' :: part) :: parts, ?_, ?_⟩
    · rw [List.intercalate_cons_cons, List.append_assoc, List.append_assoc]
      refine ((hparts value (by simp)).split?_append hcomma).trans ?_
      rw [List.append_nil]
    · rw [List.map_cons, List.map_cons, trim_cons_space, ← List.map_cons, htrim, ← List.map_cons]

end Arguments

end Marginalia
