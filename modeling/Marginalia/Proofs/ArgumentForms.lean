import Marginalia.Proofs.ArgumentChecks
import Marginalia.Proofs.CutHeaders
import Mathlib.Data.List.Nodup

/-!
# The two forms of arguments agree

The same texts can be given to the slots of a tag in parentheses, in the order of the slots, or as
words, with the type in braces in front of them. Where every text may stand between two commas and
each of them but the type is one word, both forms fill each slot with its text and leave the same
body.
-/

namespace Marginalia

open Text (trim trimStart trimEnd isBlank)

namespace Text

variable {s t : List Char}

theorem trimEnd_append_of_eq (h : trimEnd s = s) (t : List Char) :
    trimEnd (s ++ t) = s ++ trimEnd t := by
  have hs : s.reverse.dropWhile isBlank = s.reverse := by
    rw [← List.reverse_reverse (s.reverse.dropWhile isBlank)]
    exact congrArg List.reverse h
  rw [trimEnd, List.reverse_append, List.dropWhile_append, hs]
  split
  · rename_i hnil
    rw [List.reverse_reverse, trimEnd, List.isEmpty_iff.mp hnil, List.reverse_nil, List.append_nil]
  · rw [List.reverse_append, List.reverse_reverse]
    rfl

theorem trimEnd_eq_self {c : Char} (hlast : s.getLast? = some c) (hc : isBlank c = false) :
    trimEnd s = s := by
  obtain ⟨front, rfl⟩ := List.getLast?_eq_some_iff.mp hlast
  rw [trimEnd, List.reverse_append, List.reverse_singleton, List.singleton_append,
    List.dropWhile_cons_of_neg (by simp [hc]), List.reverse_cons, List.reverse_reverse]

theorem trimStart_eq_self {c : Char} (hhead : s.head? = some c) (hc : isBlank c = false) :
    trimStart s = s := by
  obtain ⟨back, rfl⟩ := List.head?_eq_some_iff.mp hhead
  exact List.dropWhile_cons_of_neg (by simp [hc])

theorem head?_trimEnd {c : Char} (h : s.head? = some c) :
    trimEnd s = [] ∨ (trimEnd s).head? = some c := by
  obtain ⟨blanks, hblanks⟩ := trimEnd_prefix s
  cases htrim : trimEnd s with
  | nil => exact .inl rfl
  | cons d ds =>
    rw [htrim] at hblanks
    rw [← hblanks] at h
    exact .inr h

theorem trim_trimStart (s : List Char) : trim (trimStart s) = trim s := by
  rw [trim, Arguments.trimStart_trimStart, ← trim]

/-- A text without blanks has none to trim. -/
theorem trim_eq_self (h : ∀ c ∈ s, isBlank c = false) : trim s = s := by
  cases s with
  | nil => rfl
  | cons c cs =>
    have hlast : (c :: cs).getLast? = some ((c :: cs).getLast (List.cons_ne_nil c cs)) :=
      List.getLast?_eq_getLast_of_ne_nil _
    rw [trim, trimStart_eq_self (c := c) rfl (h c List.mem_cons_self),
      trimEnd_eq_self hlast (h _ (List.getLast_mem _))]

end Text

namespace Arguments

variable {c : Char} {text rest : List Char} {slot : Slot} {d : TagDefinition}

/-! ## Texts for slots -/

/-- A word that holds no comma, quotation mark or bracket. -/
structure IsPlainWord (text : List Char) : Prop where
  ne_nil : text ≠ []
  blank : ∀ c ∈ text, isBlank c = false
  heeded : ∀ c ∈ text, c ∉ ',' :: heeded

/-- A trimmed type without braces and quotation marks, whose brackets are balanced around its
commas. -/
structure IsPlainType (text : List Char) : Prop extends IsPart text where
  ne_nil : text ≠ []
  trimmed : trim text = text
  marks : ∀ c ∈ text, c ∉ quotes ∧ c ≠ '\x7b' ∧ c ≠ '\x7d'

/-- A text for each slot, where slots have names of their own and at most one of them takes a type;
the others take identifiers and strings. -/
structure Assigned (d : TagDefinition) (v : Slot → List Char) : Prop where
  names : (d.slots.map (·.name)).Nodup
  bounded : ∀ slot ∈ d.slots, slot.kind ≠ .freeText
  oneType : ∀ slot ∈ d.slots, ∀ other ∈ d.slots, slot.kind = .typeExpression →
    other.kind = .typeExpression → slot = other
  identifiers : ∀ slot ∈ d.slots, slot.kind = .identifier → isPath (v slot) = true
  strings : ∀ slot ∈ d.slots, slot.kind = .string → IsPlainWord (v slot)
  types : ∀ slot ∈ d.slots, slot.kind = .typeExpression → IsPlainType (v slot)

theorem mem_pieces {p : Char → Bool} (hc : c ∈ text) :
    p c = true ∨ ∃ piece ∈ Text.pieces p text, c ∈ piece := by
  induction text with
  | nil => cases hc
  | cons b cs ih =>
    by_cases hb : p b = true
    · rw [Text.pieces, if_pos hb]
      rcases List.mem_cons.mp hc with rfl | hc
      · exact .inl hb
      · refine (ih hc).imp_right ?_
        rintro ⟨piece, hpiece, hmem⟩
        exact ⟨piece, List.mem_cons_of_mem _ hpiece, hmem⟩
    · rw [Text.pieces, if_neg hb]
      obtain ⟨w, ws, hws⟩ := List.exists_cons_of_ne_nil (Text.pieces_ne_nil p cs)
      rw [hws]
      rcases List.mem_cons.mp hc with rfl | hc
      · exact .inr ⟨c :: w, List.mem_cons_self, List.mem_cons_self⟩
      · refine (ih hc).imp_right ?_
        rintro ⟨piece, hpiece, hmem⟩
        rw [hws] at hpiece
        rcases List.mem_cons.mp hpiece with rfl | hpiece
        · exact ⟨b :: piece, List.mem_cons_self, List.mem_cons_of_mem _ hmem⟩
        · exact ⟨piece, List.mem_cons_of_mem _ hpiece, hmem⟩

/-- A character of a path is a dot, an ASCII character of names, or a word character. -/
theorem of_mem_path (h : isPath text = true) (hc : c ∈ text) :
    c = '.' ∨ c = '$' ∨ isTagNamePart c = true ∨ Grammar.isNamePart c = true := by
  rcases mem_pieces (p := (· = '.')) hc with hdot | ⟨piece, hpiece, hmem⟩
  · exact .inl (of_decide_eq_true hdot)
  · have hname := List.all_eq_true.mp h piece hpiece
    cases piece with
    | nil => cases hmem
    | cons b bs =>
      rw [isName, Bool.and_eq_true] at hname
      obtain ⟨hstart, hparts⟩ := hname
      rcases List.mem_cons.mp hmem with rfl | hmem
      · simp only [Grammar.isNameStart, Bool.or_eq_true, decide_eq_true_eq] at hstart
        rcases hstart with (halpha | rfl) | rfl
        · exact .inr (.inr (.inl (by simp [isTagNamePart, Char.isAlphanum, halpha])))
        · exact .inr (.inr (.inl (by decide)))
        · exact .inr (.inl rfl)
      · exact .inr (.inr (.inr (List.all_eq_true.mp hparts c hmem)))

/-- A path is a word that holds nothing an argument list is split at. -/
theorem isPlainWord_of_isPath (h : isPath text = true) : IsPlainWord text where
  ne_nil := by
    rintro rfl
    cases h
  blank c hc := by
    rcases of_mem_path h hc with rfl | rfl | hname | hpart
    · decide
    · decide
    · exact isBlank_of_isTagNamePart hname
    · by_contra hblank
      rw [Bool.not_eq_false] at hblank
      rw [Grammar.isNamePart_of_isBlank hblank] at hpart
      cases hpart
  heeded c hc hmem := by
    have hheeded : ∀ d ∈ ',' :: heeded, d ≠ '.' ∧ d ≠ '$' ∧ isTagNamePart d = false ∧
        Grammar.isNamePart d = false :=
      List.all_iff_forall_prop.mp (by decide)
    obtain ⟨hdot, hdollar, hname, hpart⟩ := hheeded c hmem
    rcases of_mem_path h hc with rfl | rfl | hname' | hpart'
    · exact hdot rfl
    · exact hdollar rfl
    · rw [hname] at hname'
      cases hname'
    · rw [hpart] at hpart'
      cases hpart'

theorem IsPlainWord.isPart (h : IsPlainWord text) : IsPart text where
  balanced := Nest.run?_of_notMem rfl fun c hc hmem ↦ h.heeded c hc (List.mem_cons_of_mem _ hmem)
  commas front back heq := by
    refine absurd List.mem_cons_self (h.heeded ',' ?_)
    rw [heq]
    exact List.mem_append_right _ List.mem_cons_self

namespace Assigned

variable {v : Slot → List Char}

/-- A text for a slot that takes no type is one word. -/
theorem isPlainWord (h : Assigned d v) (hslot : slot ∈ d.slots)
    (huntyped : slot.kind ≠ .typeExpression) : IsPlainWord (v slot) := by
  cases hkind : slot.kind with
  | string => exact h.strings slot hslot hkind
  | identifier => exact isPlainWord_of_isPath (h.identifiers slot hslot hkind)
  | typeExpression => exact absurd hkind huntyped
  | freeText => exact absurd hkind (h.bounded slot hslot)

/-- A text may stand between two commas, and is not changed by trimming. -/
theorem isPart (h : Assigned d v) (hslot : slot ∈ d.slots) :
    IsPart (v slot) ∧ v slot ≠ [] ∧ trim (v slot) = v slot := by
  by_cases hkind : slot.kind = .typeExpression
  · have htype := h.types slot hslot hkind
    exact ⟨htype.toIsPart, htype.ne_nil, htype.trimmed⟩
  · have hword := h.isPlainWord hslot hkind
    exact ⟨hword.isPart, hword.ne_nil, Text.trim_eq_self hword.blank⟩

/-- A text is the value that it makes. -/
theorem check_eq (h : Assigned d v) (hslot : slot ∈ d.slots) : check slot (v slot) = .ok (v slot) := by
  unfold check
  split
  · rename_i hkind
    rw [if_pos (h.identifiers slot hslot hkind)]
  · rename_i hkind
    have hword := h.strings slot hslot hkind
    rcases unquote_eq (v slot) with heq | ⟨q, hq, heq⟩
    · rw [heq]
    · have hmem : q ∈ v slot := by
        rw [heq]
        exact List.mem_cons_self
      exact absurd (List.mem_cons_of_mem _ (List.mem_append_left _ hq)) (hword.heeded q hmem)
  · rename_i hkind
    rw [if_neg (by simpa using (h.types slot hslot hkind).ne_nil)]
  · rfl

end Assigned

/-- The arguments that fill slots with their texts. -/
def filled (v : Slot → List Char) (slots : List Slot) : List Argument :=
  slots.map fun slot ↦ fill slot (v slot)

/-! ## In parentheses -/

theorem fillAll_eq {v : Slot → List Char} {slots : List Slot}
    (h : ∀ slot ∈ slots, check slot (v slot) = .ok (v slot)) :
    fillAll slots (slots.map v) = .ok (filled v slots) := by
  induction slots with
  | nil => rfl
  | cons slot slots ih =>
    obtain ⟨hslot, hslots⟩ := List.forall_mem_cons.mp h
    rw [List.map_cons, fillAll, hslot, ih hslots]
    rfl

/-- The parts of a list of texts, when they are trimmed, are the texts. -/
theorem split?_values {values : List (List Char)}
    (h : ∀ value ∈ values, IsPart value ∧ value ≠ [] ∧ trim value = value) (rest : List Char) :
    ∃ parts, split? {} ([',', ' '].intercalate values ++ ')' :: rest) = some (parts, rest) ∧
      trimParts parts = values := by
  cases values with
  | nil => exact ⟨[[]], rfl, rfl⟩
  | cons value values =>
    obtain ⟨part, parts, hsplit, htrim⟩ := split?_joined (fun v hv ↦ (h v hv).1.whole) rest
    have hvalues : (value :: values).map trim = value :: values :=
      (List.map_congr_left (g := id) fun v hv ↦ (h v hv).2.2).trans (List.map_id _)
    refine ⟨part :: parts, hsplit, ?_⟩
    rw [trimParts, htrim, hvalues]
    refine if_neg fun heq ↦ ?_
    exact (h value (by simp)).2.1 (List.cons.inj heq).1

theorem read_listed (s : Site) {v : Slot → List Char} (h : Assigned d v) (rest : List Char) :
    read s (some d) ('(' :: ([',', ' '].intercalate (d.slots.map v) ++ ')' :: rest)) =
      ⟨filled v d.slots, [], rest⟩ := by
  have hvalues : ∀ value ∈ d.slots.map v, IsPart value ∧ value ≠ [] ∧ trim value = value :=
    List.forall_mem_map.mpr fun slot hslot ↦ h.isPart hslot
  obtain ⟨parts, hsplit, hparts⟩ := split?_values hvalues rest
  have htexts : ofTexts d (d.slots.map v) = .ok (filled v d.slots) := by
    have harity : d.requiredArity ≤ d.slots.length := List.countP_le_length
    rw [ofTexts, if_neg (by rw [List.length_map]; omega)]
    exact fillAll_eq fun slot hslot ↦ h.check_eq hslot
  rw [read, parenthesised, hsplit]
  dsimp only
  rw [hparts, htexts]

/-! ## As words -/

/-- Words, each after a space, and a body after one more. -/
def wordsBefore (body : List Char) (words : List (List Char)) : List Char :=
  words.flatMap (' ' :: ·) ++ ' ' :: body

theorem wordsBefore_cons (body w : List Char) (ws : List (List Char)) :
    wordsBefore body (w :: ws) = ' ' :: (w ++ wordsBefore body ws) := by
  simp [wordsBefore]

/-- What is left of words and a body when the blanks around them are trimmed. -/
theorem trimStart_wordsBefore_cons {w : List Char} (hw : IsPlainWord w) (body : List Char)
    (ws : List (List Char)) :
    trimStart (trimEnd (wordsBefore body (w :: ws))) = w ++ trimEnd (wordsBefore body ws) := by
  obtain ⟨c, cs, rfl⟩ := List.exists_cons_of_ne_nil hw.ne_nil
  have hlast : trimEnd (' ' :: c :: cs) = ' ' :: c :: cs := by
    have hend : (' ' :: c :: cs).getLast? = some ((c :: cs).getLast (List.cons_ne_nil c cs)) := by
      rw [List.getLast?_cons_cons, List.getLast?_eq_getLast_of_ne_nil]
    exact Text.trimEnd_eq_self hend (hw.blank _ (List.getLast_mem _))
  rw [wordsBefore_cons, ← List.cons_append, Text.trimEnd_append_of_eq hlast, List.cons_append,
    trimStart, List.dropWhile_cons_of_pos (by decide)]
  exact Text.trimStart_eq_self rfl (hw.blank c List.mem_cons_self)

theorem head?_wordsBefore (body : List Char) (ws : List (List Char)) :
    (wordsBefore body ws).head? = some ' ' := by
  cases ws with
  | nil => rfl
  | cons w ws => rfl

/-- A word ends where the blank after it stands. -/
theorem takeWhile_word {w : List Char} (hw : IsPlainWord w) (body : List Char)
    (ws : List (List Char)) :
    (w ++ trimEnd (wordsBefore body ws)).takeWhile (!isBlank ·) = w := by
  have hrest : (trimEnd (wordsBefore body ws)).takeWhile (!isBlank ·) = [] := by
    rcases Text.head?_trimEnd (head?_wordsBefore body ws) with hnil | hhead
    · rw [hnil]
      rfl
    · obtain ⟨back, hback⟩ := List.head?_eq_some_iff.mp hhead
      rw [hback]
      exact List.takeWhile_cons_of_neg (by decide)
  rw [List.takeWhile_append_of_pos fun c hc ↦ by simp [hw.blank c hc], hrest, List.append_nil]

/-- A slot that takes no type makes the next word its own. -/
theorem fillWord_eq (s : Site) (raw : List Char) {v : Slot → List Char} (h : Assigned d v)
    (hslot : slot ∈ d.slots) (huntyped : slot.kind ≠ .typeExpression) {r : Reading}
    {body : List Char} {ws : List (List Char)}
    (hrest : r.rest = trimStart (trimEnd (wordsBefore body (v slot :: ws)))) :
    fillWord s raw r slot = .ok { r with
      arguments := r.arguments ++ filled v [slot]
      rest := trimStart (trimEnd (wordsBefore body ws)) } := by
  have hword := h.isPlainWord hslot huntyped
  rw [trimStart_wordsBefore_cons hword] at hrest
  have htake : r.rest.takeWhile (!isBlank ·) = v slot := hrest ▸ takeWhile_word hword body ws
  have hdrop : r.rest.drop (v slot).length = trimEnd (wordsBefore body ws) := by
    rw [hrest, List.drop_left]
  have hne : (v slot).isEmpty = false := by simpa using hword.ne_nil
  unfold fillWord
  split
  · rename_i hkind
    exact absurd hkind huntyped
  · rename_i hkind
    exact absurd hkind (h.bounded slot hslot)
  · simp only [htake, hne, Bool.false_eq_true, if_false, h.check_eq hslot, hdrop]
    rfl
  · simp only [htake, hne, Bool.false_eq_true, if_false, h.check_eq hslot, hdrop]
    rfl

/-- The slots that words fill. -/
def untyped (slots : List Slot) : List Slot := slots.filter (·.kind ≠ .typeExpression)

theorem foldlM_fillWord (s : Site) (raw : List Char) {v : Slot → List Char} (h : Assigned d v)
    {slots : List Slot} (hslots : slots ⊆ d.slots) {r : Reading} {body : List Char}
    (hrest : r.rest = trimStart (trimEnd (wordsBefore body ((untyped slots).map v)))) :
    slots.foldlM (fillWord s raw) r = .ok { r with
      arguments := r.arguments ++ filled v (untyped slots)
      rest := trimStart (trimEnd (wordsBefore body [])) } := by
  induction slots generalizing r with
  | nil =>
    rw [show untyped [] = [] from rfl, List.map_nil] at hrest
    rw [List.foldlM_nil, ← hrest, show filled v (untyped []) = [] from rfl, List.append_nil]
    rfl
  | cons slot slots ih =>
    obtain ⟨hslot, hslots⟩ := List.cons_subset.mp hslots
    rw [List.foldlM_cons]
    by_cases hkind : slot.kind = .typeExpression
    · have hskip : untyped (slot :: slots) = untyped slots := List.filter_cons_of_neg (by simp [hkind])
      have hfill : fillWord s raw r slot = .ok r := by rw [fillWord, hkind]
      rw [hskip] at hrest ⊢
      rw [hfill]
      exact ih hslots hrest
    · have htake : untyped (slot :: slots) = slot :: untyped slots :=
        List.filter_cons_of_pos (by simp [hkind])
      rw [htake, List.map_cons] at hrest
      rw [fillWord_eq s raw h hslot hkind hrest, htake]
      refine (ih hslots rfl).trans ?_
      simp [filled]

/-- The slot that takes a type, if there is one. -/
def typed? (d : TagDefinition) : Option Slot := d.slots.find? (·.kind = .typeExpression)

/-- The type in braces, after a space. -/
def braced (v : Slot → List Char) (d : TagDefinition) : List Char :=
  match typed? d with
  | some slot => ' ' :: '\x7b' :: (v slot ++ ['\x7d'])
  | none => []

/-- The slot that takes a type and those that words fill are all slots. -/
theorem mem_typed_append_untyped {v : Slot → List Char} (h : Assigned d v) :
    slot ∈ (typed? d).toList ++ untyped d.slots ↔ slot ∈ d.slots := by
  rw [List.mem_append, Option.mem_toList, untyped, List.mem_filter, decide_eq_true_eq]
  constructor
  · rintro (htyped | ⟨hslot, -⟩)
    · exact List.mem_of_find?_eq_some htyped
    · exact hslot
  · intro hslot
    by_cases hkind : slot.kind = .typeExpression
    · obtain ⟨other, hother⟩ : ∃ other, typed? d = some other :=
        Option.isSome_iff_exists.mp (List.find?_isSome.mpr ⟨slot, hslot, by simpa using hkind⟩)
      have hotherKind : other.kind = .typeExpression := by simpa using List.find?_some hother
      have hmem : other ∈ d.slots := List.mem_of_find?_eq_some hother
      exact .inl (h.oneType other hmem slot hslot hotherKind hkind ▸ hother)
    · exact .inr ⟨hslot, hkind⟩

theorem trimEnd_braced (v : Slot → List Char) (d : TagDefinition) (rest : List Char) :
    trimEnd (braced v d ++ rest) = braced v d ++ trimEnd rest := by
  refine Text.trimEnd_append_of_eq ?_ rest
  unfold braced
  split
  · rename_i slot _
    change trimEnd ((' ' :: '\x7b' :: v slot) ++ ['\x7d']) = _
    exact Text.trimEnd_eq_self List.getLast?_concat (by decide)
  · rfl

theorem leadingType_braced (s : Site) {v : Slot → List Char} (h : Assigned d v) (rest : List Char) :
    leadingType s d (braced v d ++ rest) =
      .ok ⟨filled v (typed? d).toList, [], trimStart rest⟩ := by
  unfold leadingType braced
  cases htyped : typed? d with
  | none =>
    have hfind : d.slots.find? (·.kind = .typeExpression) = none := htyped
    simp only [hfind, List.nil_append]
    rfl
  | some slot =>
    have hfind : d.slots.find? (·.kind = .typeExpression) = some slot := htyped
    have hmem : slot ∈ d.slots := List.mem_of_find?_eq_some hfind
    have htype := h.types slot hmem (by simpa using List.find?_some hfind)
    have hbrace : ∀ c ∈ v slot, decide (c ≠ '\x7d') = true := fun c hc ↦
      decide_eq_true (htype.marks c hc).2.2
    have hwords : trimStart (' ' :: '\x7b' :: (v slot ++ ['\x7d']) ++ rest) =
        '\x7b' :: (v slot ++ '\x7d' :: rest) := by
      rw [List.cons_append, trimStart, List.dropWhile_cons_of_pos (by decide), List.cons_append,
        List.dropWhile_cons_of_neg (by decide), List.append_assoc]
      rfl
    have hdrop : (v slot ++ '\x7d' :: rest).dropWhile (· ≠ '\x7d') = '\x7d' :: rest := by
      rw [List.dropWhile_append_of_pos hbrace]
      exact List.dropWhile_cons_of_neg (by decide)
    have htake : (v slot ++ '\x7d' :: rest).takeWhile (· ≠ '\x7d') = v slot := by
      rw [List.takeWhile_append_of_pos hbrace, List.takeWhile_cons_of_neg (by decide),
        List.append_nil]
    simp only [hfind, hwords, hdrop, htake, htype.trimmed]
    rfl

theorem head?_braced_append (v : Slot → List Char) (d : TagDefinition) (body : List Char)
    (ws : List (List Char)) : (braced v d ++ wordsBefore body ws).head? = some ' ' := by
  unfold braced
  split
  · rfl
  · exact head?_wordsBefore body ws

/-- The words fill the slots, with the type in front. -/
theorem read_worded (s : Site) {v : Slot → List Char} (h : Assigned d v) (body : List Char) :
    read s (some d)
        (trimEnd (braced v d ++ wordsBefore body ((untyped d.slots).map v))) =
      ⟨filled v ((typed? d).toList ++ untyped d.slots), [],
        trimStart (trimEnd (wordsBefore body []))⟩ := by
  have hlist : (trimEnd (braced v d ++ wordsBefore body ((untyped d.slots).map v))).head? ≠
      some '(' := by
    rcases Text.head?_trimEnd (head?_braced_append v d body _) with hnil | hspace
    · rw [hnil]
      exact nofun
    · rw [hspace]
      decide
  rw [read_eq_asWords s d hlist, asWords_eq, trimEnd_braced, leadingType_braced s h]
  change Words.reading (d.slots.foldlM (fillWord s _) _) = _
  rw [foldlM_fillWord s _ h (List.Subset.refl d.slots) rfl]
  simp [filled, Words.reading]

end Arguments

/-! ## Tags -/

/-- Whether a text is the name of a tag. -/
def isTagName : List Char → Bool
  | [] => false
  | c :: cs => isTagNameStart c && cs.all isTagNamePart

namespace TagDefinition

open Arguments (Assigned filled wordsBefore braced untyped typed?)

variable {d : TagDefinition} {v : Slot → List Char}

/-- The header of a tag whose arguments stand in parentheses, in the order of the slots. -/
def listed (d : TagDefinition) (name : List Char) (v : Slot → List Char) (body : List Char) :
    List Char :=
  '@' :: (name ++ '(' :: ([',', ' '].intercalate (d.slots.map v) ++ ')' :: ' ' :: body))

/-- The header of a tag whose arguments stand as words, in the order of the slots but for the type,
which stands in braces in front of them. -/
def worded (d : TagDefinition) (name : List Char) (v : Slot → List Char) (body : List Char) :
    List Char :=
  '@' :: (name ++ (braced v d ++ wordsBefore body ((untyped d.slots).map v)))

end TagDefinition

/-- An argument that fills a slot is found by the name of the slot. -/
theorem Tag.argument?_of_filled {t : Tag} {d : TagDefinition} {v : Slot → List Char}
    {slots : List Slot} (ht : t.arguments = Arguments.filled v slots) (hslots : slots ⊆ d.slots)
    (hnames : (d.slots.map (·.name)).Nodup) {slot : Slot} (hslot : slot ∈ slots) :
    t.argument? slot.name = some (String.ofList (v slot)) := by
  rw [argument?, ht]
  clear ht
  induction slots with
  | nil => cases hslot
  | cons first slots ih =>
    obtain ⟨hfirst, hrest⟩ := List.cons_subset.mp hslots
    by_cases hname : first.name = slot.name
    · obtain rfl := List.inj_on_of_nodup_map hnames hfirst (hslots hslot) hname
      simp [Arguments.filled, Arguments.fill]
    · have hlater : slot ∈ slots := by
        rcases List.mem_cons.mp hslot with rfl | hlater
        · exact absurd rfl hname
        · exact hlater
      have hskip := ih hrest hlater
      simpa [Arguments.filled, Arguments.fill, hname] using hskip

namespace TagLines

variable {registry : Registry} {t : TagLines} {d : TagDefinition} {name rest : List Char} {c : Char}

theorem tagName?_append (hname : isTagName name = true)
    (hrest : ∀ c, rest.head? = some c → isTagNamePart c = false)
    (htext : t.first.text = '@' :: (name ++ rest)) : t.first.tagName? = some name := by
  cases name with
  | nil => cases hname
  | cons b bs =>
    rw [isTagName, Bool.and_eq_true] at hname
    obtain ⟨hstart, hparts⟩ := hname
    have hnone : rest.takeWhile isTagNamePart = [] := by
      cases rest with
      | nil => rfl
      | cons c back => exact List.takeWhile_cons_of_neg (by simp [hrest c rfl])
    have htake : (bs ++ rest).takeWhile isTagNamePart = bs := by
      rw [List.takeWhile_append_of_pos (List.all_eq_true.mp hparts), hnone, List.append_nil]
    have htrim : trimStart t.first.text = '@' :: b :: (bs ++ rest) := by
      rw [htext]
      exact Text.trimStart_eq_self rfl (by decide)
    rw [CommentLine.tagName?, htrim]
    exact (if_pos hstart).trans (congrArg (some <| b :: ·) htake)

/-- After the name comes what the line holds, without the blanks at its end. -/
theorem afterName_append (hname : isTagName name = true)
    (hrest : ∀ c, rest.head? = some c → isTagNamePart c = false)
    (htext : t.first.text = '@' :: (name ++ rest)) : t.afterName = trimEnd rest := by
  have htag := tagName?_append hname hrest htext
  obtain ⟨hne, hparts⟩ := CommentLine.tagName?_spec htag
  have hlast : trimEnd ('@' :: name) = '@' :: name := by
    have hend : ('@' :: name).getLast? = some (name.getLast hne) := by
      rw [List.getLast?_cons_of_ne_nil hne, List.getLast?_eq_getLast_of_ne_nil hne]
    exact Text.trimEnd_eq_self hend (isBlank_of_isTagNamePart (hparts _ (List.getLast_mem hne)))
  have hheader : t.header = '@' :: name ++ trimEnd rest := by
    rw [header, trim, htext, Text.trimStart_eq_self (c := '@') rfl (by decide), ← List.cons_append,
      Text.trimEnd_append_of_eq hlast]
  rw [afterName, htag, hheader]
  exact List.drop_left' (by simp [Nat.add_comm])

theorem tagName?_of_name (hname : isTagName name = true) (hc : rest.head? = some c)
    (hrest : isTagNamePart c = false) (htext : t.first.text = '@' :: (name ++ rest)) :
    t.first.tagName? = some name :=
  tagName?_append hname (fun _ h ↦ Option.some.inj (hc.symm.trans h) ▸ hrest) htext

theorem afterName_of_name (hname : isTagName name = true) (hc : rest.head? = some c)
    (hrest : isTagNamePart c = false) (htext : t.first.text = '@' :: (name ++ rest)) :
    t.afterName = trimEnd rest :=
  afterName_append hname (fun _ h ↦ Option.some.inj (hc.symm.trans h) ▸ hrest) htext

/-- What a tag is made of, once its arguments have been read. -/
theorem parse_of_read (hname : t.first.tagName? = some name)
    (hd : registry.get? (String.ofList name) = some d) {r : Arguments.Reading}
    (hread : Arguments.read t.site (some d) t.afterName = r) :
    (t.parse registry).diagnostics = r.diagnostics ∧ (t.parse registry).tag.arguments = r.arguments ∧
      (t.parse registry).tag.body = String.ofList (body r.rest t.continuation) := by
  have hget : registry.get? (t.parse registry).tag.name = some d := by
    rw [← hd]
    simp only [parse, hname, Option.getD_some]
  refine ⟨by rw [parse_diagnostics_of_get? hget, hread], by rw [parse_arguments, hget, hread], ?_⟩
  have hbody : (t.parse registry).tag.body = String.ofList
      (body (Arguments.read t.site (registry.get? (t.parse registry).tag.name) t.afterName).rest
        t.continuation) := rfl
  rw [hbody, hget, hread]

/-- The body does not depend on the blanks around what the header leaves. -/
theorem body_congr {rest' : List Char} (h : trim rest = trim rest')
    (continuation : List CommentLine) : body rest continuation = body rest' continuation := by
  rw [body, body, h]

theorem trimEnd_listed (inner rest : List Char) :
    trimEnd ('(' :: (inner ++ ')' :: ' ' :: rest)) =
      '(' :: (inner ++ ')' :: trimEnd (' ' :: rest)) := by
  have hlast : trimEnd ('(' :: (inner ++ [')'])) = '(' :: (inner ++ [')']) := by
    rw [← List.cons_append]
    exact Text.trimEnd_eq_self List.getLast?_concat (by decide)
  simpa using Text.trimEnd_append_of_eq hlast (' ' :: rest)

/-- Texts that fit into either form fill the slots of a tag alike, whether they stand in parentheses
or as words, and the tags have the same body. -/
theorem parse_listed_eq_worded (registry : Registry) {name : List Char} {d : TagDefinition}
    (hname : isTagName name = true) (hd : registry.get? (String.ofList name) = some d)
    {v : Slot → List Char} (hv : Arguments.Assigned d v) (rest : List Char) (start : Position)
    (continuation : List CommentLine) (next : Nat) :
    let p := parse registry ⟨⟨d.listed name v rest, start⟩, continuation, next⟩
    let q := parse registry ⟨⟨d.worded name v rest, start⟩, continuation, next⟩
    p.diagnostics = [] ∧ q.diagnostics = [] ∧
      (∀ slot ∈ d.slots, p.tag.argument? slot.name = some (String.ofList (v slot)) ∧
        q.tag.argument? slot.name = p.tag.argument? slot.name) ∧
      q.tag.body = p.tag.body := by
  intro p q
  have hlisted := Arguments.read_listed
    (TagLines.site ⟨⟨d.listed name v rest, start⟩, continuation, next⟩) hv (trimEnd (' ' :: rest))
  have hworded := Arguments.read_worded
    (TagLines.site ⟨⟨d.worded name v rest, start⟩, continuation, next⟩) hv rest
  have hparen : isTagNamePart '(' = false := by decide
  have hspace : isTagNamePart ' ' = false := by decide
  have hhead := Arguments.head?_braced_append v d rest ((Arguments.untyped d.slots).map v)
  have hafterListed := afterName_of_name (t := ⟨⟨d.listed name v rest, start⟩, continuation, next⟩)
    hname rfl hparen rfl
  have hafterWorded := afterName_of_name (t := ⟨⟨d.worded name v rest, start⟩, continuation, next⟩)
    hname hhead hspace rfl
  rw [← trimEnd_listed, ← hafterListed] at hlisted
  rw [← hafterWorded] at hworded
  obtain ⟨hpdiagnostics, hparguments, hpbody⟩ :=
    parse_of_read (tagName?_of_name hname rfl hparen rfl) hd hlisted
  obtain ⟨hqdiagnostics, hqarguments, hqbody⟩ :=
    parse_of_read (tagName?_of_name hname hhead hspace rfl) hd hworded
  refine ⟨hpdiagnostics, hqdiagnostics, fun slot hslot ↦ ?_, ?_⟩
  · have hp := Tag.argument?_of_filled hparguments (List.Subset.refl _) hv.names hslot
    have hq := Tag.argument?_of_filled hqarguments
      (fun _ hmem ↦ (Arguments.mem_typed_append_untyped hv).mp hmem) hv.names
      ((Arguments.mem_typed_append_untyped hv).mpr hslot)
    exact ⟨hp, hq.trans hp.symm⟩
  · refine hqbody.trans (Eq.trans ?_ hpbody.symm)
    exact congrArg String.ofList (body_congr (Text.trim_trimStart _) continuation)

/-- The type of a parameter may follow its name in parentheses or stand in braces in front of it. -/
theorem parse_listed_eq_worded_param :
    let p := parse .standard
      ⟨⟨"@param(pairs, Map<String, Int[]>) by name".toList, .start⟩, [], 1⟩
    let q := parse .standard
      ⟨⟨"@param \x7bMap<String, Int[]>\x7d pairs by name".toList, .start⟩, [], 1⟩
    p.diagnostics = [] ∧ q.diagnostics = [] ∧
      p.tag.argument? "type" = some "Map<String, Int[]>" ∧
      q.tag.argument? "type" = p.tag.argument? "type" ∧ q.tag.body = p.tag.body := by
  let typed : Slot := { name := "type", kind := .typeExpression, optional := true }
  let d : TagDefinition :=
    { name := "param"
      slots := [{ name := "name", kind := .identifier }, typed]
      placement := .nextAnchor }
  let v : Slot → List Char := fun slot ↦
    if slot.kind = .typeExpression then "Map<String, Int[]>".toList else "pairs".toList
  have htype : Arguments.IsPlainType "Map<String, Int[]>".toList :=
    { toIsPart := by decide +kernel
      ne_nil := by decide +kernel
      trimmed := by decide +kernel
      marks := List.all_iff_forall_prop.mp (by decide +kernel) }
  have hv : Arguments.Assigned d v :=
    { names := by decide +kernel
      bounded := by decide +kernel
      oneType := by decide +kernel
      identifiers := by decide +kernel
      strings := by simp [d, typed]
      types := fun slot _ hkind ↦ by rwa [show v slot = _ from if_pos hkind] }
  have hname : isTagName "param".toList = true := by decide +kernel
  have hd : Registry.standard.get? (String.ofList "param".toList) = some d := by decide +kernel
  have hlisted : d.listed "param".toList v "by name".toList =
      "@param(pairs, Map<String, Int[]>) by name".toList := by decide +kernel
  have hworded : d.worded "param".toList v "by name".toList =
      "@param \x7bMap<String, Int[]>\x7d pairs by name".toList := by decide +kernel
  obtain ⟨hp, hq, hslots, hbody⟩ :=
    parse_listed_eq_worded .standard hname hd hv "by name".toList .start [] 1
  rw [hlisted, hworded] at hslots hbody
  rw [hlisted] at hp
  rw [hworded] at hq
  obtain ⟨htext, hsame⟩ := hslots typed (by simp [d])
  exact ⟨hp, hq, htext, hsame, hbody⟩

end TagLines

end Marginalia
