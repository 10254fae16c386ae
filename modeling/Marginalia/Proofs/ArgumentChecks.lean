import Marginalia.Proofs.Relocation
import Marginalia.Proofs.Splitting
import Mathlib.Data.List.DropRight

/-!
# What is checked of arguments

The arguments of a tag are refused as a whole, and kept as one raw text with one diagnostic, or they
all fill slots. In the second case a required slot may still be left: reported, if the words have run
out before it, and not reported where neither form of arguments looks at it. Words fill no type,
which stands in braces in front of them; arguments in parentheses fill the first slots, the optional
ones among them too.
-/

namespace Marginalia

/-- Whether an argument fills a slot. -/
def Argument.isParsed : Argument → Bool
  | parsed _ _ _ => true
  | raw _ => false

/-- One of the arguments fills the slot. -/
def Slot.FilledBy (slot : Slot) (arguments : List Argument) : Prop :=
  ∃ text, .parsed slot.name slot.kind text ∈ arguments

theorem Slot.FilledBy.append {slot : Slot} {arguments : List Argument}
    (h : slot.FilledBy arguments) (more : List Argument) : slot.FilledBy (arguments ++ more) :=
  h.imp fun _ hmem ↦ List.mem_append_left _ hmem

namespace Arguments

variable {s : Site} {d : TagDefinition} {slot : Slot} {text raw value : List Char}

/-- An argument fills one of the slots, with a path where that takes an identifier, and with a text
of the given form where it takes a type. -/
def Fits (slots : List Slot) (isType : List Char → Prop) (a : Argument) : Prop :=
  ∃ slot ∈ slots, ∃ value, a = fill slot value ∧
    (slot.kind = .identifier → isPath value = true) ∧ (slot.kind = .typeExpression → isType value)

theorem Fits.isParsed {slots : List Slot} {isType : List Char → Prop} {a : Argument}
    (h : Fits slots isType a) : a.isParsed = true := by
  obtain ⟨slot, -, value, rfl, -⟩ := h
  rfl

/-- A type in parentheses is not empty, and balanced unless a closer in it is out of place. -/
def IsListed (value : List Char) : Prop :=
  value ≠ [] ∧ ((Nest.run? {} value).isSome = true → Balanced value)

/-- A type in front of words is what stands between the first brace and the next closing one. -/
def IsBraced (text value : List Char) : Prop :=
  ∃ inner, Text.trimStart text = '\x7b' :: inner ∧ '\x7d' ∈ inner ∧
    value = Text.trim (inner.takeWhile (· ≠ '\x7d'))

/-- The texts that are taken for types after the name of a tag. -/
def IsType (text : List Char) : List Char → Prop :=
  if text.head? = some '(' then IsListed else IsBraced text

/-- The diagnostic of a required slot that has no word. -/
def Site.missing (s : Site) (slot : Slot) : Diagnostic :=
  s.malformed s!"missing `{slot.name}`" []

/-- A slot that may be left without a report: one for a type that no braces give, or one behind the
arguments in parentheses, the first of which have filled optional slots. -/
def PassesOver (d : TagDefinition) (text : List Char) (arguments : List Argument) (slot : Slot) :
    Prop :=
  if text.head? = some '(' then
    ∃ front back, d.slots = front ++ slot :: back ∧ arguments.length ≤ front.length ∧
      ∃ other ∈ front, other.optional = true
  else
    slot.kind = .typeExpression ∧
      (d.slots.find? (·.kind = .typeExpression) = some slot →
        (Text.trimStart text).head? ≠ some '\x7b')

/-- What becomes of the arguments of a tag. -/
inductive Verdict (s : Site) (d : TagDefinition) (text : List Char) (r : Reading) : Prop
  /-- All of them are kept as one raw text. -/
  | refused (why : String) (raw : List Char)
      (arguments : r.arguments = [.raw (String.ofList raw)])
      (diagnostics : r.diagnostics = [s.malformed why raw])
  /-- All of them fill slots, and words are missing for those that are left. -/
  | accepted (left : List Slot)
      (fits : ∀ a ∈ r.arguments, Fits d.slots (IsType text) a)
      (diagnostics : r.diagnostics = left.map s.missing)
      (required : ∀ slot ∈ left, slot ∈ d.slots ∧ slot.optional = false ∧
        slot.kind ≠ .typeExpression ∧ text.head? ≠ some '(')
      (filled : ∀ slot ∈ d.slots, slot.optional = false →
        slot.FilledBy r.arguments ∨ slot ∈ left ∨ PassesOver d text r.arguments slot)

theorem verdict_keepRaw (why : String) (raw rest : List Char) :
    Verdict s d text (s.keepRaw why raw rest) := .refused why raw rfl rfl

/-! ## In parentheses -/

theorem check_ok (h : check slot text = .ok value) :
    (slot.kind = .identifier → isPath value = true) ∧
      (slot.kind = .typeExpression → value = text ∧ text ≠ []) := by
  unfold check at h
  split at h
  · rename_i hkind
    split at h
    · rename_i hpath
      cases h
      exact ⟨fun _ ↦ hpath, by simp [hkind]⟩
    · cases h
  · rename_i hkind
    simp [hkind]
  · rename_i hkind
    split at h
    · cases h
    · rename_i hempty
      cases h
      exact ⟨by simp [hkind], fun _ ↦ ⟨rfl, by simpa using hempty⟩⟩
  · rename_i hkind
    simp [hkind]

/-- Texts fill the first slots, one each. -/
theorem fillAll_ok {slots : List Slot} {texts : List (List Char)} {arguments : List Argument}
    (h : fillAll slots texts = .ok arguments) :
    (∀ a ∈ arguments, ∃ slot ∈ slots, ∃ text ∈ texts, ∃ value,
      a = fill slot value ∧ check slot text = .ok value) ∧
    arguments.length ≤ texts.length ∧
    ∀ front slot back, slots = front ++ slot :: back → front.length < texts.length →
      slot.FilledBy arguments := by
  induction slots generalizing texts arguments with
  | nil =>
    cases h
    simp
  | cons head slots ih =>
    cases texts with
    | nil =>
      cases h
      simp
    | cons text texts =>
      rw [fillAll] at h
      cases hcheck : check head text with
      | error why =>
        rw [hcheck] at h
        cases h
      | ok value =>
        cases hrest : fillAll slots texts with
        | error why =>
          rw [hcheck, hrest] at h
          cases h
        | ok later =>
          rw [hcheck, hrest] at h
          cases h
          obtain ⟨hfits, hlength, hfilled⟩ := ih hrest
          refine ⟨?_, Nat.succ_le_succ hlength, ?_⟩
          · rintro a (- | ⟨-, ha⟩)
            · exact ⟨head, by simp, text, by simp, value, rfl, hcheck⟩
            · obtain ⟨slot, hslot, text, htext, value, rfl, hvalue⟩ := hfits a ha
              exact ⟨slot, by simp [hslot], text, by simp [htext], value, rfl, hvalue⟩
          · rintro (- | ⟨first, front⟩) slot back heq hlt
            · obtain ⟨rfl, -⟩ := List.cons.inj heq
              exact ⟨String.ofList value, List.mem_cons_self⟩
            · obtain ⟨-, heq⟩ := List.cons.inj heq
              obtain ⟨v, hv⟩ := hfilled front slot back heq (Nat.lt_of_succ_lt_succ hlt)
              exact ⟨v, List.mem_cons_of_mem _ hv⟩

/-- Where there are as many texts as required slots, one that gets none has an optional one before
it. -/
theorem exists_optional {front back : List Slot} (hslots : d.slots = front ++ slot :: back)
    (hrequired : slot.optional = false) {n : Nat} (harity : d.requiredArity ≤ n)
    (hn : n ≤ front.length) : ∃ other ∈ front, other.optional = true := by
  by_contra hnone
  have hfront : ∀ other ∈ front, (!other.optional) = true := by
    intro other hother
    rw [Bool.not_eq_true', ← Bool.not_eq_true]
    exact fun hoptional ↦ hnone ⟨other, hother, hoptional⟩
  have hcount : d.requiredArity = front.length + (back.countP (!·.optional) + 1) := by
    rw [TagDefinition.requiredArity, hslots, List.countP_append, List.countP_eq_length.mpr hfront,
      List.countP_cons_of_pos (by simp [hrequired])]
  omega

theorem verdict_parenthesised (s : Site) (d : TagDefinition) (inner : List Char) :
    Verdict s d ('(' :: inner) (parenthesised s (some d) inner) := by
  unfold parenthesised
  cases hsplit : split? {} inner with
  | none => exact verdict_keepRaw _ _ _
  | some found =>
    obtain ⟨parts, rest⟩ := found
    dsimp only
    cases hfill : ofTexts d (trimParts parts) with
    | error why => exact verdict_keepRaw _ _ _
    | ok arguments =>
      unfold ofTexts at hfill
      dsimp only at hfill
      split at hfill
      · split at hfill <;> cases hfill
      rename_i harity
      obtain ⟨hfits, hlength, hfilled⟩ := fillAll_ok hfill
      refine .accepted [] (fun a ha ↦ ?_) rfl (by simp) fun slot hslot hrequired ↦ ?_
      · obtain ⟨slot, hslot, part, hpart, value, rfl, hcheck⟩ := hfits a ha
        obtain ⟨hpath, htype⟩ := check_ok hcheck
        refine ⟨slot, hslot, value, rfl, hpath, fun hkind ↦ ?_⟩
        obtain ⟨rfl, hne⟩ := htype hkind
        exact ⟨hne, balanced_of_mem_trimParts hsplit hpart⟩
      · obtain ⟨front, back, hslots⟩ := List.append_of_mem hslot
        rcases Nat.lt_or_ge front.length (trimParts parts).length with hlt | hge
        · exact .inl (hfilled front slot back hslots hlt)
        · have hoptional := exists_optional hslots hrequired (by omega) hge
          exact .inr (.inr ⟨front, back, hslots, hlength.trans hge, hoptional⟩)

/-! ## As words -/

/-- What one slot makes of the words: it is skipped, it is left because the words have run out, it
is filled, or all arguments are refused. -/
inductive Filling (s : Site) (raw : List Char) (r : Reading) (slot : Slot) : Words → Prop
  | skipped (free : slot.kind = .typeExpression ∨ slot.optional = true) :
      Filling s raw r slot (.ok r)
  | missing (empty : r.rest = []) (untyped : slot.kind ≠ .typeExpression)
      (required : slot.optional = false) :
      Filling s raw r slot (.ok { r with diagnostics := r.diagnostics ++ [s.missing slot] })
  | filled (value rest : List Char) (words : r.rest ≠ []) (untyped : slot.kind ≠ .typeExpression)
      (path : slot.kind = .identifier → isPath value = true)
      (trimmed : Text.trimStart rest = rest) :
      Filling s raw r slot
        (.ok { r with arguments := r.arguments ++ [fill slot value], rest })
  | refused (why : String) (words : r.rest ≠ []) :
      Filling s raw r slot
        (.error ⟨[.raw (String.ofList raw)], r.diagnostics ++ [s.malformed why raw], []⟩)

theorem filling_missing {r : Reading} (hempty : r.rest = [])
    (huntyped : slot.kind ≠ .typeExpression) :
    Filling s raw r slot (.ok (missing s slot r)) := by
  unfold missing
  split
  · rename_i hoptional
    exact .skipped (.inr hoptional)
  · rename_i hrequired
    exact .missing hempty huntyped (Bool.eq_false_iff.mpr hrequired)

theorem trimStart_trimStart (text : List Char) :
    Text.trimStart (Text.trimStart text) = Text.trimStart text :=
  List.dropWhile_idempotent _ text

/-- No words are left where a word is looked for and none is found. -/
theorem eq_nil_of_word {rest : List Char} (htrimmed : Text.trimStart rest = rest)
    (hword : rest.takeWhile (!Text.isBlank ·) = []) : rest = [] := by
  cases rest with
  | nil => rfl
  | cons c cs =>
    have hblank : Text.isBlank c = true := by
      by_contra hc
      simp [hc] at hword
    have hlength := congrArg List.length htrimmed
    have hle := (List.dropWhile_suffix Text.isBlank (l := cs)).length_le
    rw [Text.trimStart, List.dropWhile_cons_of_pos hblank, List.length_cons] at hlength
    omega

theorem filling_fillWord (s : Site) (raw : List Char) {r : Reading}
    (htrimmed : Text.trimStart r.rest = r.rest) (slot : Slot) :
    Filling s raw r slot (fillWord s raw r slot) := by
  unfold fillWord
  cases hkind : slot.kind with
  | typeExpression => exact .skipped (.inl hkind)
  | freeText =>
    dsimp only
    split
    · rename_i hempty
      exact filling_missing (List.isEmpty_iff.mp hempty) (by simp [hkind])
    · rename_i hwords
      exact .filled r.rest [] (by simpa using hwords) (by simp [hkind]) (by simp [hkind]) rfl
  | identifier | string =>
    have huntyped : slot.kind ≠ .typeExpression := by simp [hkind]
    dsimp only
    split
    · rename_i hnone
      exact filling_missing (eq_nil_of_word htrimmed (List.isEmpty_iff.mp hnone)) huntyped
    · rename_i hsome
      have hwords : r.rest ≠ [] := by
        intro hnil
        simp [hnil] at hsome
      split
      · rename_i value hvalue
        exact .filled value _ hwords huntyped (check_ok hvalue).1 (trimStart_trimStart _)
      · rename_i why _
        split
        · rename_i hoptional
          exact .skipped (.inr hoptional)
        · exact .refused why hwords

/-- What words have made of the slots so far. -/
structure Account (s : Site) (d : TagDefinition) (text : List Char) (done left : List Slot)
    (r : Reading) : Prop where
  trimmed : Text.trimStart r.rest = r.rest
  fits : ∀ a ∈ r.arguments, Fits d.slots (IsBraced text) a
  diagnostics : r.diagnostics = left.map s.missing
  /-- A slot is left only when the words have run out. -/
  usedUp : left ≠ [] → r.rest = []
  required : ∀ slot ∈ left, slot ∈ done ∧ slot.optional = false ∧ slot.kind ≠ .typeExpression
  filled : ∀ slot ∈ done, slot.optional = false → slot.kind ≠ .typeExpression →
    slot.FilledBy r.arguments ∨ slot ∈ left
  typed : ∀ slot, d.slots.find? (·.kind = .typeExpression) = some slot →
    (Text.trimStart text).head? = some '{' → slot.FilledBy r.arguments

namespace Account

variable {done left : List Slot} {r r' : Reading}

/-- Where words are left, no slot has been. -/
theorem left_eq_nil (h : Account s d text done left r) (hwords : r.rest ≠ []) : left = [] := by
  by_contra hleft
  exact hwords (h.usedUp hleft)

theorem required_append (h : Account s d text done left r) (slot : Slot) :
    ∀ other ∈ left, other ∈ done ++ [slot] ∧ other.optional = false ∧
      other.kind ≠ .typeExpression := fun other hother ↦
  (h.required other hother).imp_left fun hmem ↦ List.mem_append_left _ hmem

/-- A slot that needs no word is accounted for. -/
theorem skip (h : Account s d text done left r)
    (free : slot.kind = .typeExpression ∨ slot.optional = true) :
    Account s d text (done ++ [slot]) left r := by
  refine { h with required := h.required_append slot, filled := ?_ }
  intro other hother hrequired huntyped
  rcases List.mem_append.mp hother with hother | hother
  · exact h.filled other hother hrequired huntyped
  · rw [List.mem_singleton.mp hother] at hrequired huntyped
    rcases free with hkind | hoptional
    · exact absurd hkind huntyped
    · rw [hoptional] at hrequired
      cases hrequired

/-- A slot that the words have run out before is left. -/
theorem leave (h : Account s d text done left r) (hempty : r.rest = [])
    (huntyped : slot.kind ≠ .typeExpression) (hrequired : slot.optional = false) :
    Account s d text (done ++ [slot]) (left ++ [slot])
      { r with diagnostics := r.diagnostics ++ [s.missing slot] } := by
  refine { h with diagnostics := ?_, usedUp := fun _ ↦ hempty, required := ?_, filled := ?_ }
  · rw [h.diagnostics, List.map_append]
    rfl
  · intro other hother
    rcases List.mem_append.mp hother with hother | hother
    · exact h.required_append slot other hother
    · rw [List.mem_singleton.mp hother]
      exact ⟨by simp, hrequired, huntyped⟩
  · intro other hother hrequired huntyped
    rcases List.mem_append.mp hother with hother | hother
    · exact (h.filled other hother hrequired huntyped).imp_right (List.mem_append_left _)
    · exact .inr (List.mem_append_right _ hother)

/-- A slot that makes a word its own is filled. -/
theorem fill (h : Account s d text done left r) (hslot : slot ∈ d.slots) {rest : List Char}
    (hwords : r.rest ≠ []) (huntyped : slot.kind ≠ .typeExpression)
    (hpath : slot.kind = .identifier → isPath value = true)
    (htrimmed : Text.trimStart rest = rest) :
    Account s d text (done ++ [slot]) left
      { r with arguments := r.arguments ++ [Arguments.fill slot value], rest } := by
  refine { trimmed := htrimmed, fits := ?_, diagnostics := h.diagnostics
           usedUp := absurd (h.left_eq_nil hwords), required := h.required_append slot
           filled := ?_, typed := ?_ }
  · intro a ha
    rcases List.mem_append.mp ha with ha | ha
    · exact h.fits a ha
    · exact ⟨slot, hslot, value, List.mem_singleton.mp ha, hpath, fun hkind ↦ absurd hkind huntyped⟩
  · intro other hother hrequired huntyped
    rcases List.mem_append.mp hother with hother | hother
    · exact (h.filled other hother hrequired huntyped).imp_left (·.append _)
    · rw [List.mem_singleton.mp hother]
      exact .inl ⟨String.ofList value, List.mem_append_right _ (List.mem_singleton_self _)⟩
  · exact fun other hother hbrace ↦ (h.typed other hother hbrace).append _

/-- A slot is accounted for, or all arguments are refused; then no slot has been left before. -/
theorem step (h : Account s d text done left r) {w : Words} (hslot : slot ∈ d.slots)
    (hw : Filling s raw r slot w) :
    (∃ left' r', w = .ok r' ∧ Account s d text (done ++ [slot]) left' r') ∨
      ∃ why, w = .error ⟨[.raw (String.ofList raw)], [s.malformed why raw], []⟩ := by
  cases hw with
  | skipped free => exact .inl ⟨left, r, rfl, h.skip free⟩
  | missing empty untyped required =>
    exact .inl ⟨left ++ [slot], _, rfl, h.leave empty untyped required⟩
  | filled value rest words untyped path trimmed =>
    exact .inl ⟨left, _, rfl, h.fill hslot words untyped path trimmed⟩
  | refused why words =>
    rw [h.diagnostics, h.left_eq_nil words]
    exact .inr ⟨why, rfl⟩

/-- All slots are accounted for, or all arguments are refused. -/
theorem run (raw : List Char) (h : Account s d text done left r) {slots : List Slot}
    (hslots : slots ⊆ d.slots) :
    (∃ left' r', slots.foldlM (fillWord s raw) r = .ok r' ∧
      Account s d text (done ++ slots) left' r') ∨
    ∃ why, slots.foldlM (fillWord s raw) r =
      .error ⟨[.raw (String.ofList raw)], [s.malformed why raw], []⟩ := by
  induction slots generalizing done left r with
  | nil => exact .inl ⟨left, r, rfl, by rwa [List.append_nil]⟩
  | cons slot slots ih =>
    obtain ⟨hslot, hslots⟩ := List.cons_subset.mp hslots
    rw [List.foldlM_cons]
    rcases h.step hslot (filling_fillWord s raw h.trimmed slot) with
      ⟨left', r', hok, haccount⟩ | ⟨why, herror⟩
    · rw [hok, List.append_cons]
      exact ih haccount hslots
    · rw [herror]
      exact .inr ⟨why, rfl⟩

end Account

/-- The words start with nothing, or with a type in braces. -/
theorem account_leadingType (s : Site) (d : TagDefinition) (text : List Char) :
    (∃ r, leadingType s d text = .ok r ∧ Account s d text [] [] r) ∨
      ∃ why raw, leadingType s d text = .error (s.keepRaw why raw []) := by
  unfold leadingType
  dsimp only
  split
  · rename_i slot inner hfind hwords
    split
    · exact .inr ⟨_, _, rfl⟩
    · rename_i c rest hrest
      have hmem : slot ∈ d.slots := List.mem_of_find?_eq_some hfind
      have hkind : slot.kind = .typeExpression := by simpa using List.find?_some hfind
      have hbrace : '}' ∈ inner := by
        by_contra hnone
        have hnil : inner.dropWhile (· ≠ '}') = [] :=
          List.dropWhile_eq_nil_iff.mpr fun c hc ↦ by
            simp only [ne_eq, decide_not, Bool.not_eq_true', decide_eq_false_iff_not]
            rintro rfl
            exact hnone hc
        rw [hnil] at hrest
        cases hrest
      refine .inl ⟨_, rfl, ?_⟩
      refine { trimmed := trimStart_trimStart rest, fits := ?_, diagnostics := rfl
               usedUp := absurd rfl, required := by simp, filled := by simp, typed := ?_ }
      · intro a ha
        exact ⟨slot, hmem, _, List.mem_singleton.mp ha, by simp [hkind],
          fun _ ↦ ⟨inner, hwords, hbrace, rfl⟩⟩
      · intro other hother _
        obtain rfl : slot = other := Option.some.inj (hfind.symm.trans hother)
        exact ⟨_, List.mem_singleton_self _⟩
  · rename_i hnone
    refine .inl ⟨_, rfl, ?_⟩
    refine { trimmed := trimStart_trimStart text, fits := by simp, diagnostics := rfl
             usedUp := absurd rfl, required := by simp, filled := by simp, typed := ?_ }
    intro slot hfind hhead
    obtain ⟨inner, hinner⟩ := List.head?_eq_some_iff.mp hhead
    exact absurd hinner (hnone slot inner hfind)

theorem verdict_asWords (s : Site) (d : TagDefinition) {text : List Char}
    (htext : text.head? ≠ some '(') : Verdict s d text (asWords s d text) := by
  rw [asWords_eq]
  rcases account_leadingType s d text with ⟨r, hlead, haccount⟩ | ⟨why, raw, hlead⟩
  · rw [hlead]
    change Verdict s d text (Words.reading (d.slots.foldlM (fillWord s (Text.trim text)) r))
    rcases haccount.run (Text.trim text) (List.Subset.refl d.slots) with
      ⟨left, r', hok, hfinal⟩ | ⟨why, herror⟩
    · rw [hok]
      rw [List.nil_append] at hfinal
      refine .accepted left ?_ hfinal.diagnostics (fun slot hslot ↦ ?_) fun slot hslot hrequired ↦ ?_
      · rw [IsType, if_neg htext]
        exact hfinal.fits
      · obtain ⟨hmem, hrequired, huntyped⟩ := hfinal.required slot hslot
        exact ⟨hmem, hrequired, huntyped, htext⟩
      · by_cases hkind : slot.kind = .typeExpression
        · by_cases hfirst : d.slots.find? (·.kind = .typeExpression) = some slot ∧
            (Text.trimStart text).head? = some '{'
          · exact .inl (hfinal.typed slot hfirst.1 hfirst.2)
          · refine .inr (.inr ?_)
            rw [PassesOver, if_neg htext]
            exact ⟨hkind, fun hfind hhead ↦ hfirst ⟨hfind, hhead⟩⟩
        · exact (hfinal.filled slot hslot hrequired hkind).imp_right .inl
    · rw [herror]
      exact .refused why _ rfl rfl
  · rw [hlead]
    exact verdict_keepRaw why raw []

theorem read_eq_asWords (s : Site) (d : TagDefinition) (htext : text.head? ≠ some '(') :
    read s (some d) text = asWords s d text := by
  unfold read
  split
  · exact absurd rfl htext
  · rename_i heq
    cases heq
    rfl
  · rename_i heq
    cases heq

/-- Arguments are refused as a whole, or they all fill slots. -/
theorem verdict_read (s : Site) (d : TagDefinition) (text : List Char) :
    Verdict s d text (read s (some d) text) := by
  by_cases htext : text.head? = some '('
  · obtain ⟨inner, rfl⟩ := List.head?_eq_some_iff.mp htext
    exact verdict_parenthesised s d inner
  · rw [read_eq_asWords s d htext]
    exact verdict_asWords s d htext

/-- Without a definition all arguments are raw. -/
theorem isParsed_read_none (s : Site) (text : List Char) :
    ∀ a ∈ (read s none text).arguments, a.isParsed = false := by
  intro a ha
  unfold read at ha
  split at ha
  · unfold parenthesised at ha
    split at ha
    · rw [List.mem_singleton.mp ha]
      rfl
    · obtain ⟨part, -, rfl⟩ := List.mem_map.mp ha
      rfl
  · cases ‹none = some _›
  · cases ha

end Arguments

/-! ## Tags -/

namespace TagLines

variable {registry : Registry} {t : TagLines} {d : TagDefinition}

/-- The tag of the lines, for diagnostics about its arguments. -/
def site (t : TagLines) : Arguments.Site := ⟨String.ofList (t.first.tagName?.getD []), t.headerSpan⟩

/-- What follows the name in the header of a tag. -/
def afterName (t : TagLines) : List Char := t.header.drop (1 + (t.first.tagName?.getD []).length)

theorem parse_arguments (registry : Registry) (t : TagLines) :
    (t.parse registry).tag.arguments =
      (Arguments.read t.site (registry.get? (t.parse registry).tag.name) t.afterName).arguments :=
  rfl

theorem parse_diagnostics_of_get? (hd : registry.get? (t.parse registry).tag.name = some d) :
    (t.parse registry).diagnostics = (Arguments.read t.site (some d) t.afterName).diagnostics := by
  have hd : registry.get? (String.ofList (t.first.tagName?.getD [])) = some d := hd
  unfold parse
  simp only [hd, Option.isSome_some, if_true]
  rfl

/-- What is reported of the arguments of a registered tag, and what they fill. They are kept as one
raw text with one diagnostic; or each of them fills a slot, and each required slot is filled, is
reported to have no word, or is one that the form of the arguments passes over. -/
theorem parse_checks_arguments (registry : Registry) (t : TagLines) {d : TagDefinition}
    (hd : registry.get? (t.parse registry).tag.name = some d) :
    let p := t.parse registry
    let reports := p.diagnostics.filter (·.kind = .malformedArgument)
    (∃ report raw, reports = [report] ∧ report.recovered = some raw ∧
        p.tag.arguments = [.raw raw]) ∨
      ((∀ a ∈ p.tag.arguments, a.isParsed = true) ∧
        ∃ left : List Slot, reports = left.map t.site.missing ∧
          (∀ slot ∈ left, slot ∈ d.slots ∧ slot.optional = false ∧
            slot.kind ≠ .typeExpression ∧ t.afterName.head? ≠ some '(') ∧
          ∀ slot ∈ d.slots, slot.optional = false →
            slot.FilledBy p.tag.arguments ∨ slot ∈ left ∨
              Arguments.PassesOver d t.afterName p.tag.arguments slot) := by
  intro p reports
  have harguments : p.tag.arguments =
      (Arguments.read t.site (some d) t.afterName).arguments := by
    rw [parse_arguments, hd]
  have hreports : reports = (Arguments.read t.site (some d) t.afterName).diagnostics := by
    refine Eq.trans ?_ (parse_diagnostics_of_get? hd)
    refine List.filter_eq_self.mpr fun report hreport ↦ decide_eq_true ?_
    rw [parse_diagnostics_of_get? hd] at hreport
    exact (Arguments.at_read t.site (some d) t.afterName report hreport).2
  rw [harguments, hreports]
  cases Arguments.verdict_read t.site d t.afterName with
  | refused why raw arguments diagnostics =>
    exact .inl ⟨_, String.ofList raw, diagnostics, rfl, arguments⟩
  | accepted left fits diagnostics required filled =>
    exact .inr ⟨fun a ha ↦ (fits a ha).isParsed, left, diagnostics, required, filled⟩

/-- The name of a parameter is filled from the first word. -/
theorem parse_fills_first_word :
    let t : TagLines := ⟨⟨"@param selector The element".toList, .start⟩, [], 1⟩
    ∃ d, Registry.standard.get? (t.parse .standard).tag.name = some d ∧
      ∀ slot ∈ d.slots, slot.optional = false →
        slot.FilledBy (t.parse .standard).tag.arguments := by
  intro t
  have hd : Registry.standard.get? (t.parse .standard).tag.name = some
      { name := "param"
        slots := [{ name := "name", kind := .identifier },
          { name := "type", kind := .typeExpression, optional := true }]
        placement := .nextAnchor } := by decide +kernel
  have harguments : (t.parse .standard).tag.arguments =
      [.parsed "name" .identifier "selector"] := by decide +kernel
  have hnone : (t.parse .standard).diagnostics.filter (·.kind = .malformedArgument) = [] := by
    decide +kernel
  refine ⟨_, hd, fun slot hslot hrequired ↦ ?_⟩
  rcases parse_checks_arguments .standard t hd with
    ⟨report, raw, hreports, -⟩ | ⟨-, left, hleft, -, hfilled⟩
  · rw [hnone] at hreports
    cases hreports
  · rw [hnone] at hleft
    rcases hfilled slot hslot hrequired with h | h | h
    · exact h
    · rw [List.map_eq_nil_iff.mp hleft.symm] at h
      cases h
    · rw [Arguments.PassesOver, if_neg (by decide +kernel)] at h
      simp only [List.mem_cons, List.not_mem_nil, or_false] at hslot
      rcases hslot with rfl | rfl
      · cases h.1
      · cases hrequired

/-- A type that follows the name without braces is not read, and nobody reports that it is missing. -/
theorem parse_passes_over_type :
    let p := parse .standard ⟨⟨"@type String".toList, .start⟩, [], 1⟩
    p.diagnostics = [] ∧
      ∃ d, Registry.standard.get? p.tag.name = some d ∧
        ∃ slot ∈ d.slots, slot.optional = false ∧ ¬slot.FilledBy p.tag.arguments := by
  intro p
  have harguments : p.tag.arguments = [] := by decide +kernel
  refine ⟨by decide +kernel,
    { name := "type", slots := [{ name := "type", kind := .typeExpression }]
      multiplicity := .zeroOrOne, placement := .nextAnchor },
    by decide +kernel, { name := "type", kind := .typeExpression }, by simp, rfl, ?_⟩
  rw [harguments]
  rintro ⟨text, htext⟩
  cases htext

/-- Each argument that fills a slot is of its kind: an identifier is a path. A type is what stands in
braces in front of the words, unchecked; in parentheses it is not empty, and balanced unless a closer
in it is out of place. -/
theorem parse_fits_arguments (registry : Registry) (t : TagLines) {name : String}
    {kind : ArgumentKind} {text : String}
    (h : .parsed name kind text ∈ (t.parse registry).tag.arguments) :
    ∃ d, registry.get? (t.parse registry).tag.name = some d ∧
      ∃ slot ∈ d.slots, slot.name = name ∧ slot.kind = kind ∧
        (kind = .identifier → Arguments.isPath text.toList = true) ∧
        (kind = .typeExpression → Arguments.IsType t.afterName text.toList) := by
  rw [parse_arguments] at h
  cases hd : registry.get? (t.parse registry).tag.name with
  | none =>
    rw [hd] at h
    cases Arguments.isParsed_read_none _ _ _ h
  | some d =>
    rw [hd] at h
    refine ⟨d, rfl, ?_⟩
    cases Arguments.verdict_read t.site d t.afterName with
    | refused why raw arguments _ =>
      rw [arguments] at h
      cases List.mem_singleton.mp h
    | accepted left fits _ _ _ =>
      obtain ⟨slot, hslot, value, heq, hpath, htype⟩ := fits _ h
      cases heq
      rw [String.toList_ofList]
      exact ⟨slot, hslot, rfl, rfl, hpath, htype⟩

/-- The brackets in the type of a parameter are balanced. -/
theorem parse_fits_bracketed_type :
    let t : TagLines := ⟨⟨"@param(pairs, Map<String, Int[]>)".toList, .start⟩, [], 1⟩
    .parsed "type" .typeExpression "Map<String, Int[]>" ∈ (t.parse .standard).tag.arguments ∧
      Arguments.Balanced "Map<String, Int[]>".toList := by
  intro t
  have hmem : .parsed "type" .typeExpression "Map<String, Int[]>" ∈
      (t.parse .standard).tag.arguments := by decide +kernel
  obtain ⟨d, -, slot, -, -, -, -, htype⟩ := parse_fits_arguments .standard t hmem
  have hlisted : Arguments.IsListed "Map<String, Int[]>".toList := by
    have htype := htype rfl
    rwa [Arguments.IsType, if_pos (by decide +kernel)] at htype
  exact ⟨hmem, hlisted.2 (by decide +kernel)⟩

/-- A record type in braces is cut at its own closing brace, and an empty type is taken as well. -/
theorem parse_takes_unbalanced_types :
    (.parsed "type" .typeExpression "\x7ba: b" ∈
        (parse .standard ⟨⟨"@type \x7b\x7ba: b\x7d\x7d".toList, .start⟩, [], 1⟩).tag.arguments ∧
      ¬Arguments.Balanced "\x7ba: b".toList) ∧
    .parsed "type" .typeExpression "" ∈
      (parse .standard ⟨⟨"@type \x7b\x7d".toList, .start⟩, [], 1⟩).tag.arguments := by
  decide +kernel

end TagLines

end Marginalia
