import Marginalia.Proofs.Names

/-!
# Headers in front of a comment

The head of a method written without a keyword may go on over a newline, but not over a comment.
What is recognised in front of a comment that starts a line is recognised there without the comment.
What is no longer recognised is a method whose name or parenthesis came after the newline.
-/

namespace Marginalia

open Text (EndsLine)

namespace Text

theorem trimStart_append_of_isAllBlank {s : List Char} (h : isAllBlank s = true) (t : List Char) :
    trimStart (s ++ t) = trimStart t :=
  List.dropWhile_append_of_pos (List.all_eq_true.mp h)

theorem EndsLine.trimStart_append {s : List Char} (hs : EndsLine s) (h : isAllBlank s = false) :
    EndsLine (trimStart s) ∧ ∀ t, trimStart (s ++ t) = trimStart s ++ t := by
  obtain ⟨c, hc, hblank⟩ := List.all_eq_false.mp h
  rw [Bool.not_eq_true] at hblank
  exact ⟨hs.of_suffix (List.dropWhile_suffix _) (List.ne_nil_of_mem (mem_dropWhile hc hblank)),
    dropWhile_append_of_mem hc hblank⟩

/-- The code points of a range, counted from its start. -/
theorem exists_of_contains {rs : Ranges} {n : Nat} (h : rs.contains n = true) :
    ∃ r ∈ rs, ∃ k < r.2 + 1 - r.1, n = r.1 + k := by
  induction rs with
  | nil => cases h
  | cons r rs ih =>
    simp only [Ranges.contains, Bool.and_eq_true, Bool.or_eq_true, decide_eq_true_eq] at h
    obtain ⟨hlo, hhi | h⟩ := h
    · exact ⟨r, List.mem_cons_self, n - r.1, by omega, by omega⟩
    · obtain ⟨r', hr', hn⟩ := ih h
      exact ⟨r', List.mem_cons_of_mem _ hr', hn⟩

theorem isWord_of_isBlank {c : Char} (h : isBlank c = true) : isWord c = false := by
  have hblanks : ∀ r ∈ blanks, ∀ k < r.2 + 1 - r.1,
      (alphabetic.contains (r.1 + k) || wordJoining.contains (r.1 + k)) = false := by
    decide +kernel
  obtain ⟨r, hr, k, hk, hn⟩ := exists_of_contains h
  have hword := hblanks r hr k hk
  rw [← hn] at hword
  exact hword

end Text

/-- The header of a method that ends in front of a text, from which it takes its parenthesis. -/
def Recognition.Across (more : List Char) (r : Recognition) : Prop :=
  r.kind = .methodDecl ∧ (Text.trimStart more).head? = some '(' ∧
    ∃ gap, Text.isAllBlank gap = true ∧ r.rest = gap ++ more

namespace Grammar

theorem isNamePart_of_isBlank {c : Char} (h : Text.isBlank c = true) : isNamePart c = false := by
  have hdollar : c ≠ '$' := by
    rintro rfl
    exact absurd h (by decide)
  simp [isNamePart, Text.isWord_of_isBlank h, hdollar]

/-- What is found in a text that goes on with `more`, and in the same text when it goes on with a
comment instead. -/
inductive CutShort (more comment : List Char) :
    Option (List Char × List Char) → Option (List Char × List Char) → Prop
  | nowhere : CutShort more comment none none
  /-- A name with its parenthesis in front of the comment. -/
  | before (name rest : List Char) :
    CutShort more comment (some (name, rest ++ more)) (some (name, rest ++ comment))
  /-- A name that comes after the comment. -/
  | after {name rest : List Char} (h : rest.length ≤ more.length) :
    CutShort more comment (some (name, rest)) none
  /-- A name in front of the comment, with its parenthesis after it. -/
  | across {name rest : List Char} (hblank : Text.isAllBlank rest = true)
    (hparen : (Text.trimStart more).head? = some '(') :
    CutShort more comment (some (name, rest ++ more)) none

namespace CutShort

variable {s : List Char} (more comment : List Char)

theorem plainName? (hs : EndsLine s) :
    CutShort more ('/' :: comment) (Grammar.plainName? (s ++ more))
      (Grammar.plainName? (s ++ '/' :: comment)) := by
  obtain ⟨c, cs, rfl⟩ := List.exists_cons_of_ne_nil hs.ne_nil
  cases hstart : isNameStart c || c = '#' with
  | false =>
    simp only [List.cons_append, Grammar.plainName?, hstart, Bool.false_and, Bool.false_eq_true,
      if_false]
    exact .nowhere
  | true =>
    have hc : c ≠ '\n' := by
      rintro rfl
      cases hstart
    have hcs := hs.tail hc
    have hpart : isNamePart '\n' = false := by decide
    have hrest := hcs.dropWhile hpart
    simp only [List.cons_append, Grammar.plainName?, hstart, Bool.true_and,
      Text.dropWhile_append_of_mem hcs.mem hpart, Text.takeWhile_append_of_mem hcs.mem hpart]
    generalize cs.dropWhile isNamePart = rest at hrest
    cases hblank : Text.isAllBlank rest with
    | false =>
      obtain ⟨hends, happend⟩ := hrest.trimStart_append hblank
      rw [happend, happend, List.head?_append_of_ne_nil _ hends.ne_nil,
        List.head?_append_of_ne_nil _ hends.ne_nil]
      split
      · exact .before _ _
      · exact .nowhere
    | true =>
      rw [Text.trimStart_append_of_isAllBlank hblank, Text.trimStart_append_of_isAllBlank hblank]
      have hslash : (Text.trimStart ('/' :: comment)).head? = some '/' := rfl
      rw [hslash]
      split
      · rename_i hparen
        exact .across hblank (by simpa using hparen)
      · exact .nowhere

theorem methodName? (hs : EndsLine s) :
    CutShort more ('/' :: comment) (Grammar.methodName? (s ++ more))
      (Grammar.methodName? (s ++ '/' :: comment)) := by
  obtain ⟨t, ht, hstar⟩ : ∃ t, EndsLine t ∧ ∀ u, afterStar id (s ++ u) = t ++ u := by
    obtain ⟨c, cs, rfl⟩ := List.exists_cons_of_ne_nil hs.ne_nil
    by_cases hc : c = '*'
    · subst hc
      exact ⟨cs, hs.tail (by decide), fun u ↦ rfl⟩
    · exact ⟨c :: cs, hs, fun u ↦ afterStar_of_ne id hc _⟩
  rw [methodName?_eq, methodName?_eq, hstar, hstar]
  cases hblank : Text.isAllBlank t with
  | false =>
    obtain ⟨hends, happend⟩ := ht.trimStart_append hblank
    rw [happend, happend]
    exact plainName? more comment hends
  | true =>
    rw [Text.trimStart_append_of_isAllBlank hblank, Text.trimStart_append_of_isAllBlank hblank]
    have hslash : Grammar.plainName? (Text.trimStart ('/' :: comment)) = none := rfl
    rw [hslash]
    cases hname : Grammar.plainName? (Text.trimStart more) with
    | none => exact .nowhere
    | some found =>
      refine .after ?_
      have hle := (List.dropWhile_suffix Text.isBlank (l := more)).length_le
      have hlength := congrArg List.length (plainName?_append_eq hname)
      rw [List.length_append] at hlength
      unfold Text.trimStart at hlength
      omega

end CutShort

/-! ## Modifiers -/

section

variable {text rest : List Char} {fuel : Nat}

theorem methodModifiers_names : ∀ m ∈ methodModifiers, ∃ c cs, m = c :: cs ∧ c ≠ '*' ∧ c ≠ '(' ∧
    c ≠ '/' ∧ Text.isBlank c = false ∧ ∀ d ∈ cs, isNamePart d = true := by
  have hall : ∀ m ∈ methodModifiers, m ≠ [] ∧
      m.head?.all (fun c ↦ c ≠ '*' && (c ≠ '(' && (c ≠ '/' && !Text.isBlank c))) ∧
      m.tail.all isNamePart := by
    decide
  intro m hm
  obtain ⟨hne, hhead, htail⟩ := hall m hm
  obtain ⟨c, cs, rfl⟩ := List.exists_cons_of_ne_nil hne
  simp only [List.head?_cons, Option.all_some, Bool.and_eq_true, decide_eq_true_eq,
    Bool.not_eq_true'] at hhead
  exact ⟨c, cs, rfl, hhead.1, hhead.2.1, hhead.2.2.1, hhead.2.2.2, List.all_eq_true.mp htail⟩

/-- A modifier is no name of a method, unless a parenthesis follows. -/
theorem methodName?_of_modifier (h : methodModifier? text = some rest)
    (hhead : rest.head? ≠ some '(') :
    methodName? text = none := by
  obtain ⟨m, hm, h⟩ := List.exists_of_findSome?_eq_some h
  split at h
  · cases h
  rename_i after hafter
  split at h
  · rename_i hblank
    cases h
    obtain ⟨c, cs, rfl, hstar, -, -, hc, hcs⟩ := methodModifiers_names m hm
    obtain rfl := List.isPrefixOf?_eq_some_iff_append_eq.mp hafter
    have hdrop : (cs ++ after).dropWhile isNamePart = after := by
      obtain ⟨d, ds, rfl⟩ := List.exists_cons_of_ne_nil (l := after) (by rintro rfl; cases hblank)
      have hd : isNamePart d = false := isNamePart_of_isBlank (by simpa using hblank)
      rw [List.dropWhile_append_of_pos hcs, List.dropWhile_cons_of_neg (by simp [hd])]
    have htrim : Text.trimStart (c :: (cs ++ after)) = c :: (cs ++ after) := by
      simp [Text.trimStart, hc]
    rw [methodName?_eq, List.cons_append, afterStar_of_ne _ hstar, htrim, plainName?, hdrop,
      if_neg (by simp [hhead])]
  · cases h

/-- The head of a method does not start with a parenthesis. -/
theorem head?_of_methodHead? {found : List Char × List Char}
    (h : methodHead? fuel text = some found) :
    text.head? ≠ some '(' := by
  rintro hhead
  obtain ⟨cs, rfl⟩ := List.head?_eq_some_iff.mp hhead
  have hmodifier : methodModifier? ('(' :: cs) = none := by
    rw [methodModifier?, List.findSome?_eq_none_iff]
    intro m hm
    obtain ⟨c, ds, rfl, -, hc, -, -, -⟩ := methodModifiers_names m hm
    simp [List.isPrefixOf?, hc]
  cases fuel with
  | zero => cases h
  | succ fuel =>
    rw [methodHead?_succ, hmodifier] at h
    cases h

theorem methodHead?_slash (fuel : Nat) (comment : List Char) :
    methodHead? fuel ('/' :: comment) = none := by
  have hmodifier : methodModifier? ('/' :: comment) = none := by
    rw [methodModifier?, List.findSome?_eq_none_iff]
    intro m hm
    obtain ⟨c, cs, rfl, -, -, hc, -, -⟩ := methodModifiers_names m hm
    simp [List.isPrefixOf?, hc]
  cases fuel with
  | zero => rfl
  | succ fuel =>
    rw [methodHead?_succ, hmodifier]
    rfl

/-- The text after one of the words that may stand before a method's name, with the blanks that have
to follow it. -/
def afterModifier? (text : List Char) : Option (List Char) :=
  methodModifiers.findSome? fun m ↦
    (m.isPrefixOf? text).bind fun rest ↦ if rest.head?.any Text.isBlank then some rest else none

theorem methodModifier?_eq (text : List Char) :
    methodModifier? text = (afterModifier? text).map Text.trimStart := by
  unfold methodModifier? afterModifier?
  rw [List.map_findSome?]
  congr 1
  funext m
  cases hm : m.isPrefixOf? text with
  | none => simp [hm]
  | some rest => cases h : rest.head?.any Text.isBlank <;> simp [hm, h]

theorem local_afterModifier? : Local '\n' afterModifier? :=
  local_findSome? methodModifiers fun m hm ↦
    (local_isPrefixOf? (methodModifiers_spec m hm).2.1).bind (local_guard (·.any Text.isBlank))

/-- What comes after the end of a line decides nothing about a modifier in front of it. The blanks
after the modifier may go on after the line. -/
theorem methodModifier?_of_endsLine (hs : EndsLine s) :
    (∀ u, methodModifier? (s ++ u) = none) ∨
      (∃ r, EndsLine r ∧ ∀ u, methodModifier? (s ++ u) = some (r ++ u)) ∨
      ∀ u, methodModifier? (s ++ u) = some (Text.trimStart u) := by
  obtain ⟨happend, hends⟩ := local_afterModifier? hs
  simp only [methodModifier?_eq, happend]
  cases hr : afterModifier? s with
  | none => exact .inl fun u ↦ rfl
  | some r =>
    refine .inr ?_
    cases hblank : Text.isAllBlank r with
    | true =>
      exact .inr fun u ↦ congrArg some (Text.trimStart_append_of_isAllBlank hblank u)
    | false =>
      have hr' : EndsLine r := hends r hr
      obtain ⟨hends', htrim⟩ := hr'.trimStart_append hblank
      exact .inl ⟨Text.trimStart r, hends', fun u ↦ congrArg some (htrim u)⟩

end

namespace CutShort

variable {s : List Char} (more comment : List Char)

theorem length_le_of_methodHead? {fuel : Nat} {text name rest : List Char}
    (h : Grammar.methodHead? fuel text = some (name, rest)) : rest.length ≤ text.length := by
  obtain ⟨front, rfl⟩ := methodHead?_append_eq h
  simp only [List.length_append]
  omega

theorem methodHead? (fuel : Nat) (hs : EndsLine s) :
    CutShort more ('/' :: comment) (Grammar.methodHead? fuel (s ++ more))
      (Grammar.methodHead? fuel (s ++ '/' :: comment)) := by
  induction fuel generalizing s with
  | zero => exact .nowhere
  | succ fuel ih =>
    have hname := methodName? more comment hs
    rw [methodHead?_succ, methodHead?_succ]
    rcases methodModifier?_of_endsLine hs with hnone | ⟨r, hr, hsome⟩ | hblank
    · rw [hnone, hnone]
      exact hname
    · rw [hsome, hsome, Option.bind_some, Option.bind_some]
      have hhead := ih hr
      -- a modifier is no name if a head follows it, cut short or not
      have hno : ∀ found, Grammar.methodHead? fuel (r ++ more) = some found →
          Grammar.methodName? (s ++ '/' :: comment) = none := by
        intro found hfound
        refine methodName?_of_modifier (hsome _) ?_
        have hparen := head?_of_methodHead? hfound
        rwa [List.head?_append_of_ne_nil _ hr.ne_nil] at hparen ⊢
      generalize Grammar.methodHead? fuel (r ++ more) = found,
        Grammar.methodHead? fuel (r ++ '/' :: comment) = found' at hhead hno ⊢
      cases hhead with
      | nowhere => exact hname
      | before name rest => exact .before name rest
      | after hle =>
        rw [hno _ rfl]
        exact .after hle
      | across hblank hparen =>
        rw [hno _ rfl]
        exact .across hblank hparen
    · have hslash : (Grammar.methodModifier? (s ++ '/' :: comment)).bind
          (Grammar.methodHead? fuel) = none := by
        rw [hblank]
        exact methodHead?_slash fuel comment
      rw [hslash, hblank, Option.bind_some]
      cases hfound : Grammar.methodHead? fuel (Text.trimStart more) with
      | none => exact hname
      | some found =>
        have hhead : (Text.trimStart ('/' :: comment)).head? = some '/' := rfl
        rw [methodName?_of_modifier (hblank ('/' :: comment)) (by rw [hhead]; decide)]
        exact .after ((length_le_of_methodHead? hfound).trans
          (List.dropWhile_suffix Text.isBlank).length_le)

end CutShort

/-! ## Anchors -/

theorem bareMethod?_comment (g : Grammar) (enclosing : Option AnchorKind) (hs : EndsLine s)
    (more comment : List Char) :
    (∃ r : Recognition, g.bareMethod? enclosing (s ++ more) = some (r.extend more) ∧
      g.bareMethod? enclosing (s ++ '/' :: comment) = some (r.extend ('/' :: comment))) ∨
    g.bareMethod? enclosing (s ++ '/' :: comment) = none ∧
      ∀ r, g.bareMethod? enclosing (s ++ more) = some r →
        r.rest.length ≤ more.length ∨ r.Across more := by
  unfold bareMethod?
  split
  · let n := (s ++ more).length + (s ++ '/' :: comment).length + 1
    have hfuel : methodHead? ((s ++ more).length + 1) (s ++ more) = methodHead? n (s ++ more) :=
      methodHead?_eq_of_lt (Nat.lt_succ_self _) (by omega)
    have hfuel' : methodHead? ((s ++ '/' :: comment).length + 1) (s ++ '/' :: comment) =
        methodHead? n (s ++ '/' :: comment) :=
      methodHead?_eq_of_lt (Nat.lt_succ_self _) (by omega)
    have hcut := CutShort.methodHead? more comment n hs
    unfold shorthandMethod?
    rw [hfuel, hfuel']
    generalize methodHead? n (s ++ more) = found, methodHead? n (s ++ '/' :: comment) = found'
      at hcut
    cases hcut with
    | nowhere => exact .inr ⟨rfl, fun r hr ↦ by cases hr⟩
    | before name rest =>
      dsimp only
      split
      · exact .inr ⟨rfl, fun r hr ↦ by cases hr⟩
      · exact .inl ⟨⟨.methodDecl, name, rest⟩, rfl, rfl⟩
    | after hle =>
      refine .inr ⟨rfl, fun r hr ↦ .inl ?_⟩
      dsimp only at hr
      split at hr
      · cases hr
      · cases hr
        exact hle
    | across hblank hparen =>
      refine .inr ⟨rfl, fun r hr ↦ .inr ?_⟩
      dsimp only at hr
      split at hr
      · cases hr
      · cases hr
        exact ⟨rfl, hparen, _, hblank, rfl⟩
  · exact .inr ⟨rfl, fun r hr ↦ by cases hr⟩

/-- An anchor in front of a comment that starts a line is recognised in the text without the comment
as well. An anchor that the comment cuts short is a method that comes after the comment, or whose
parenthesis does. -/
theorem recognise?_comment {g : Grammar} (hg : g.InLines) (enclosing : Option AnchorKind)
    (hs : EndsLine s) (more comment : List Char) :
    (∃ r : Recognition, g.recognise? (s ++ more) enclosing = some (r.extend more) ∧
      g.recognise? (s ++ '/' :: comment) enclosing = some (r.extend ('/' :: comment))) ∨
    g.recognise? (s ++ '/' :: comment) enclosing = none ∧
      ∀ r, g.recognise? (s ++ more) enclosing = some r →
        r.rest.length ≤ more.length ∨ r.Across more := by
  obtain ⟨found, hfound⟩ := exists_recognise?_eq hg enclosing hs
  rw [hfound, hfound]
  cases found with
  | some r =>
    refine .inl ⟨r.enclosedBy enclosing, ?_, ?_⟩
    · exact congrArg some (r.extend_enclosedBy enclosing _)
    · exact congrArg some (r.extend_enclosedBy enclosing _)
  | none =>
    simp only [Option.map_none, Option.none_or]
    rcases bareMethod?_comment g enclosing hs more comment with ⟨r, hr, hr'⟩ | ⟨hnone, hcut⟩
    · rw [hr, hr']
      refine .inl ⟨r.enclosedBy enclosing, ?_, ?_⟩
      · exact congrArg some (r.extend_enclosedBy enclosing _)
      · exact congrArg some (r.extend_enclosedBy enclosing _)
    · rw [hnone]
      refine .inr ⟨rfl, fun r hr ↦ ?_⟩
      obtain ⟨r, hbare, rfl⟩ := Option.map_eq_some_iff.mp hr
      have hrest : (r.enclosedBy enclosing).rest = r.rest := by
        unfold Recognition.enclosedBy
        split <;> rfl
      rw [Recognition.Across, hrest]
      refine (hcut r hbare).imp_right fun ⟨hkind, hacross⟩ ↦ ⟨?_, hacross⟩
      unfold Recognition.enclosedBy
      split
      · rfl
      · exact hkind

end Grammar

end Marginalia
