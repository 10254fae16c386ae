import Marginalia.Proofs.Names

/-!
# Characters that no header holds

A header is made of words, blanks, dots, stars and operators. A character that is none of these
never stands in one: every query that reads a part of a header stops before it. So brackets, quotes
and slashes are left to the scan, whatever anchors it recognises.
-/

namespace Marginalia

/-- A reading of `text` that leaves `rest` and does not go over a character. -/
def Text.Spares (d : Char) (text rest : List Char) : Prop := ∃ read, text = read ++ rest ∧ d ∉ read

namespace Text.Spares

variable {d : Char} {s t u : List Char}

theorem refl (s : List Char) : Spares d s s := ⟨[], rfl, List.not_mem_nil⟩

theorem of_append (h : d ∉ s) (t : List Char) : Spares d (s ++ t) t := ⟨s, rfl, h⟩

theorem trans (h : Spares d s t) (h' : Spares d t u) : Spares d s u := by
  obtain ⟨read, rfl, hread⟩ := h
  obtain ⟨read', rfl, hread'⟩ := h'
  exact ⟨read ++ read', (List.append_assoc _ _ _).symm, by simp [hread, hread']⟩

theorem dropWhile {p : Char → Bool} (hp : p d = false) (s : List Char) :
    Spares d s (s.dropWhile p) := by
  refine ⟨s.takeWhile p, List.takeWhile_append_dropWhile.symm, fun hmem ↦ ?_⟩
  have hd := List.mem_takeWhile_imp hmem
  rw [hp] at hd
  cases hd

theorem cons {c : Char} (hc : d ≠ c) (s : List Char) : Spares d (c :: s) s :=
  of_append (s := [c]) (by simpa using hc) s

/-- What has been read is the part of the text in front of what is left. -/
theorem notMem_take (h : Spares d s t) : d ∉ s.take (s.length - t.length) := by
  obtain ⟨read, rfl, hread⟩ := h
  simpa using hread

end Text.Spares

namespace Grammar

open Text (Spares)

variable {g : Grammar} {d : Char} {text rest : List Char} {r : Recognition}

/-- A character that stands in no header of an anchor. -/
structure Bars (g : Grammar) (d : Char) : Prop extends g.Stops d where
  anyBlank : Text.isBlank d = false
  namings : ∀ r ∈ g.anchorRules, r.naming = .followingIdent
  operators : ∀ r, g.assignment = some r → ∀ t ∈ r.operators, d ∉ t
  dot : d ≠ '.'
  hash : d ≠ '#'
  nameStart : isNameStart d = false
  namePart : isNamePart d = false
  methodModifiers : ∀ m ∈ methodModifiers, d ∉ m

/-! ## Words -/

theorem spares_dropInline (hd : g.Stops d) (text : List Char) : Spares d text (dropInline text) :=
  .dropWhile hd.blank text

theorem spares_keyword? {keyword : List Char} (hk : d ∉ keyword)
    (h : g.keyword? text keyword = some rest) : Spares d text rest := by
  rw [← keyword?_append_eq h]
  exact .of_append hk rest

theorem spares_modifier? (hd : g.Stops d) (h : g.modifier? text = some rest) :
    Spares d text rest := by
  obtain ⟨m, hm, h⟩ := List.exists_of_findSome?_eq_some h
  split at h
  · cases h
  rename_i found hfound
  split at h
  · cases h
    exact (spares_keyword? (hd.modifiers m hm) hfound).trans (spares_dropInline hd found)
  · cases h

theorem spares_skipModifiers (hd : g.Stops d) (text : List Char) :
    Spares d text (g.skipModifiers text) :=
  iterate_induction (P := Spares d text) (fun _ _ ha hab ↦ ha.trans (spares_modifier? hd hab)) _
    (.refl text)

theorem spares_ident? {i : List Char} (hd : g.Stops d) (h : g.ident? text = some i) :
    Spares d text (text.drop i.length) := by
  obtain ⟨⟨rest, rfl⟩, -, hi⟩ := ident?_spec h
  rw [List.drop_left]
  exact .of_append (hi d hd) rest

/-! ## Anchors with a keyword -/

theorem spares_afterStar {f : List Char → List Char} (hstar : d ≠ '*')
    (hf : ∀ s, Spares d s (f s)) (text : List Char) : Spares d text (afterStar f text) := by
  unfold afterStar
  split
  · exact (Spares.cons hstar _).trans (hf _)
  · exact .refl text

theorem spares_followingIdent? {kind : AnchorKind} (hd : g.Stops d)
    (h : g.followingIdent? kind text = some r) : Spares d text r.rest := by
  rw [followingIdent?_eq, nameAt] at h
  split at h
  · rename_i i hi
    cases h
    exact (spares_afterStar hd.star (spares_dropInline hd) text).trans (spares_ident? hd hi)
  · split at h
    · cases h
      exact .refl text
    · cases h

theorem spares_keywordAnchor? (hd : g.Bars d) (h : g.keywordAnchor? text = some r) :
    Spares d text r.rest := by
  obtain ⟨rule, hrule, h⟩ := List.exists_of_findSome?_eq_some h
  obtain ⟨rest, hrest, h⟩ := Option.bind_eq_some_iff.mp h
  rw [ruleName?, hd.namings rule hrule] at h
  exact (spares_keyword? (hd.keywords rule hrule) hrest).trans
    ((spares_dropInline hd.toStops rest).trans (spares_followingIdent? hd.toStops h))

/-! ## Assigned anchors -/

theorem spares_dottedPath? {fuel : Nat} {qualified qualified' : Bool} {name : List Char}
    (hd : g.Bars d) (h : g.dottedPath? fuel qualified text = some (name, qualified', rest)) :
    Spares d text rest := by
  induction fuel generalizing qualified text with
  | zero => cases h
  | succ fuel ih =>
    unfold dottedPath? at h
    split at h
    · cases h
    rename_i i hi
    have hident := spares_ident? hd.toStops hi
    split at h
    · rename_i after hafter
      rw [hafter] at hident
      exact (hident.trans (.cons hd.dot after)).trans (ih h)
    · cases h
      exact hident

theorem spares_operator? {rule : AssignmentRule} (hd : ∀ t ∈ rule.operators, d ∉ t)
    (h : operator? rule text = some rest) : Spares d text rest := by
  obtain ⟨op, hop, rfl⟩ := operator?_append_eq h
  exact .of_append (hd op hop) rest

theorem spares_assignedAnchor? {rule : AssignmentRule} (hd : g.Bars d)
    (hrule : g.assignment = some rule) (h : g.assignedAnchor? rule text = some r) :
    Spares d text r.rest := by
  unfold assignedAnchor? at h
  simp only [Option.bind_eq_bind, Option.bind_eq_some_iff, pure, Option.some.injEq] at h
  obtain ⟨⟨name, qualified, rest⟩, hpath, value, hvalue, kind, -, rfl⟩ := h
  exact (spares_dottedPath? hd hpath).trans
    ((spares_dropInline hd.toStops rest).trans (spares_operator? (hd.operators rule hrule) hvalue))

/-! ## Methods without a keyword -/

theorem spares_plainName? {name : List Char} (hd : g.Bars d)
    (h : plainName? text = some (name, rest)) : Spares d text rest := by
  unfold plainName? at h
  split at h
  · cases h
  rename_i c cs
  split at h
  · rename_i hc
    cases h
    refine (Spares.cons ?_ cs).trans (.dropWhile hd.namePart cs)
    rintro rfl
    simp [hd.nameStart, hd.hash] at hc
  · cases h

theorem spares_methodName? {name : List Char} (hd : g.Bars d)
    (h : methodName? text = some (name, rest)) : Spares d text rest := by
  rw [methodName?_eq] at h
  exact (spares_afterStar hd.star Spares.refl text).trans
    ((Spares.dropWhile hd.anyBlank _).trans (spares_plainName? hd h))

theorem spares_methodModifier? (hd : g.Bars d) (h : methodModifier? text = some rest) :
    Spares d text rest := by
  obtain ⟨m, hm, h⟩ := List.exists_of_findSome?_eq_some h
  split at h
  · cases h
  rename_i found hfound
  split at h
  · cases h
    rw [← List.isPrefixOf?_eq_some_iff_append_eq.mp hfound]
    exact (Spares.of_append (hd.methodModifiers m hm) found).trans (.dropWhile hd.anyBlank found)
  · cases h

theorem spares_methodHead? {fuel : Nat} {name : List Char} (hd : g.Bars d)
    (h : methodHead? fuel text = some (name, rest)) : Spares d text rest := by
  induction fuel generalizing text with
  | zero => cases h
  | succ fuel ih =>
    rw [methodHead?_succ] at h
    split at h
    · rename_i found hfound
      cases h
      obtain ⟨body, hbody, hhead⟩ := Option.bind_eq_some_iff.mp hfound
      exact (spares_methodModifier? hd hbody).trans (ih hhead)
    · exact spares_methodName? hd h

theorem spares_shorthandMethod? (hd : g.Bars d) (h : shorthandMethod? text = some r) :
    Spares d text r.rest := by
  unfold shorthandMethod? at h
  split at h
  · cases h
  rename_i name rest hhead
  split at h
  · cases h
  · cases h
    exact spares_methodHead? hd hhead

/-! ## Anchors -/

/-- The header of an anchor goes over no character that the grammar bars. -/
theorem spares_recognise? {enclosing : Option AnchorKind} (hd : g.Bars d)
    (h : g.recognise? text enclosing = some r) : Spares d text r.rest := by
  obtain ⟨found, hfound, rfl⟩ := Option.map_eq_some_iff.mp h
  have hspares : Spares d text found.rest := by
    have hmodifiers := spares_skipModifiers hd.toStops text
    rcases Option.or_eq_some_iff.mp hfound with hkey | ⟨-, hrest⟩
    · exact hmodifiers.trans (spares_keywordAnchor? hd hkey)
    rcases Option.or_eq_some_iff.mp hrest with hassigned | ⟨-, hmethod⟩
    · obtain ⟨rule, hrule, hanchor⟩ := Option.bind_eq_some_iff.mp hassigned
      exact hmodifiers.trans (spares_assignedAnchor? hd hrule hanchor)
    · split at hmethod
      · exact spares_shorthandMethod? hd hmethod
      · cases hmethod
  split
  · exact hspares
  · exact hspares

end Grammar

end Marginalia
