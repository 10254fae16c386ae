import Marginalia.Proofs.Headers
import Mathlib.Data.List.Infix

/-!
# Names stand in their headers

Every query that reads a header leaves an end of the text it was given. The name that it returns
stands in what it has read.
-/

namespace Marginalia

/-- A recognition has read a part of the text that holds the name. -/
def Recognition.Reads (text : List Char) (r : Recognition) : Prop :=
  ∃ header, text = header ++ r.rest ∧ r.name <:+: header

namespace Recognition.Reads

variable {r : Recognition} {text body : List Char}

/-- What is read after more text is read of the whole. -/
theorem of_suffix (h : r.Reads body) (hsuffix : body <:+ text) : r.Reads text := by
  obtain ⟨header, rfl, hname⟩ := h
  obtain ⟨front, rfl⟩ := hsuffix
  exact ⟨front ++ header, (List.append_assoc _ _ _).symm,
    hname.trans (List.suffix_append front header).isInfix⟩

theorem of_kind (h : r.Reads text) (kind : AnchorKind) : { r with kind }.Reads text := h

/-- A name that is followed by what is left has been read. -/
theorem of_append (kind : AnchorKind) (front name rest : List Char) :
    Reads (front ++ (name ++ rest)) ⟨kind, name, rest⟩ :=
  ⟨front ++ name, (List.append_assoc _ _ _).symm, (List.suffix_append front name).isInfix⟩

end Recognition.Reads

namespace Grammar

variable {g : Grammar} {text rest : List Char} {r : Recognition}

/-! ## Words -/

theorem skipModifiers_suffix (g : Grammar) (text : List Char) : g.skipModifiers text <:+ text :=
  iterate_induction (P := (· <:+ text)) (fun _ _ ha hab ↦ (modifier?_suffix hab).1.trans ha) _
    (List.suffix_refl _)

/-! ## Names after a keyword -/

theorem reads_ident {i : List Char} (kind : AnchorKind) (h : g.ident? text = some i) :
    Recognition.Reads text ⟨kind, i, text.drop i.length⟩ := by
  obtain ⟨⟨rest, rfl⟩, -⟩ := ident?_spec h
  rw [List.drop_left]
  exact .of_append kind [] i rest

theorem reads_followingIdent? {kind : AnchorKind} (h : g.followingIdent? kind text = some r) :
    r.Reads text := by
  rw [followingIdent?_eq, nameAt] at h
  split at h
  · rename_i i hi
    cases h
    exact (reads_ident kind hi).of_suffix (afterStar_suffix dropInline_suffix text)
  · split at h
    · cases h
      exact ⟨[], rfl, List.nil_infix⟩
    · cases h

theorem closeParens?_suffix {depth : Nat} (h : closeParens? depth text = some rest) :
    rest <:+ text := by
  induction text generalizing depth with
  | nil => cases h
  | cons c cs ih =>
    have hcs := List.suffix_cons c cs
    simp only [closeParens?] at h
    split at h
    · exact (ih h).trans hcs
    split at h
    · rcases depth with - | - | depth
      · cases h
      · cases h
        exact hcs
      · exact (ih h).trans hcs
    split at h
    · cases h
    · exact (ih h).trans hcs

theorem reads_afterReceiver? {kind : AnchorKind} (h : g.afterReceiver? kind text = some r) :
    r.Reads text := by
  unfold afterReceiver? at h
  split at h
  · rename_i inner
    simp only [Option.bind_eq_bind, Option.bind_eq_some_iff, pure, Option.some.injEq] at h
    obtain ⟨closed, hclosed, i, hi, rfl⟩ := h
    refine (reads_ident .methodDecl hi).of_suffix ?_
    exact (dropInline_suffix closed).trans
      ((closeParens?_suffix hclosed).trans (List.suffix_cons _ _))
  · exact reads_followingIdent? h

theorem reads_quotedName? {kind : AnchorKind} (h : quotedName? kind text = some r) :
    r.Reads text := by
  unfold quotedName? at h
  split at h
  · rename_i inner
    split at h
    · cases h
    · rename_i c rest hrest
      cases h
      have hinner := List.takeWhile_append_dropWhile (p := fun c ↦ decide (c ≠ '\x22')) (l := inner)
      rw [hrest] at hinner
      generalize hname : inner.takeWhile (fun c ↦ decide (c ≠ '\x22')) = name at hinner
      refine ⟨'\x22' :: (name ++ [c]), by rw [← hinner]; simp, ?_⟩
      exact ⟨['\x22'], [c], by simp⟩
  · cases h

theorem reads_keywordAnchor? (h : g.keywordAnchor? text = some r) : r.Reads text := by
  obtain ⟨rule, -, h⟩ := List.exists_of_findSome?_eq_some h
  obtain ⟨rest, hrest, h⟩ := Option.bind_eq_some_iff.mp h
  refine Recognition.Reads.of_suffix ?_
    ((dropInline_suffix rest).trans ⟨rule.keyword, keyword?_append_eq hrest⟩)
  unfold ruleName? at h
  split at h
  · exact reads_followingIdent? h
  · exact reads_afterReceiver? h
  · exact reads_quotedName? h

/-! ## Assigned anchors -/

theorem dottedPath?_append_eq {fuel : Nat} {qualified qualified' : Bool} {name : List Char}
    (h : g.dottedPath? fuel qualified text = some (name, qualified', rest)) :
    ∃ front, text = front ++ (name ++ rest) := by
  induction fuel generalizing qualified text with
  | zero => cases h
  | succ fuel ih =>
    unfold dottedPath? at h
    split at h
    · cases h
    rename_i i hi
    obtain ⟨⟨left, rfl⟩, -⟩ := ident?_spec hi
    rw [List.drop_left] at h
    split at h
    · obtain ⟨front, hfront⟩ := ih h
      exact ⟨i ++ '.' :: front, by rw [hfront]; simp⟩
    · cases h
      exact ⟨[], rfl⟩

theorem operator?_append_eq {rule : AssignmentRule} (h : operator? rule text = some rest) :
    ∃ op ∈ rule.operators, op ++ rest = text := by
  obtain ⟨op, hop, h⟩ := List.exists_of_findSome?_eq_some h
  refine ⟨op, hop, ?_⟩
  split at h
  · cases h
  rename_i found hfound
  split at h
  · cases h
  · cases h
    exact List.isPrefixOf?_eq_some_iff_append_eq.mp hfound

theorem reads_assignedAnchor? {rule : AssignmentRule} (h : g.assignedAnchor? rule text = some r) :
    r.Reads text := by
  unfold assignedAnchor? at h
  simp only [Option.bind_eq_bind, Option.bind_eq_some_iff, pure, Option.some.injEq] at h
  obtain ⟨⟨name, qualified, rest⟩, hpath, value, hvalue, kind, -, rfl⟩ := h
  obtain ⟨front, rfl⟩ := dottedPath?_append_eq hpath
  obtain ⟨op, -, hop⟩ := operator?_append_eq hvalue
  obtain ⟨operator, hoperator⟩ := List.IsSuffix.trans ⟨op, hop⟩ (dropInline_suffix rest)
  refine ⟨front ++ (name ++ operator), by rw [← hoperator]; simp, ?_⟩
  exact ⟨front, operator, by simp⟩

/-! ## Methods without a keyword -/

theorem plainName?_append_eq {name : List Char} (h : plainName? text = some (name, rest)) :
    text = name ++ rest := by
  unfold plainName? at h
  split at h
  · cases h
  · split at h
    · cases h
      rw [List.cons_append, List.takeWhile_append_dropWhile]
    · cases h

theorem methodName?_append_eq {name : List Char} (h : methodName? text = some (name, rest)) :
    ∃ front, text = front ++ (name ++ rest) := by
  rw [methodName?_eq] at h
  have hsuffix : Text.trimStart (afterStar id text) <:+ text :=
    (List.dropWhile_suffix _).trans (afterStar_suffix List.suffix_refl text)
  obtain ⟨front, hfront⟩ := hsuffix
  exact ⟨front, by rw [← hfront, plainName?_append_eq h]⟩

theorem methodModifier?_suffix (h : methodModifier? text = some rest) : rest <:+ text := by
  obtain ⟨m, -, h⟩ := List.exists_of_findSome?_eq_some h
  split at h
  · cases h
  rename_i found hfound
  split at h
  · cases h
    exact (List.dropWhile_suffix _).trans ⟨m, List.isPrefixOf?_eq_some_iff_append_eq.mp hfound⟩
  · cases h

theorem methodHead?_append_eq {fuel : Nat} {name : List Char}
    (h : methodHead? fuel text = some (name, rest)) : ∃ front, text = front ++ (name ++ rest) := by
  induction fuel generalizing text with
  | zero => cases h
  | succ fuel ih =>
    rw [methodHead?_succ] at h
    split at h
    · rename_i found hfound
      cases h
      obtain ⟨body, hbody, hhead⟩ := Option.bind_eq_some_iff.mp hfound
      obtain ⟨front, rfl⟩ := ih hhead
      obtain ⟨before, rfl⟩ := methodModifier?_suffix hbody
      exact ⟨before ++ front, by simp⟩
    · exact methodName?_append_eq h

theorem reads_shorthandMethod? (h : shorthandMethod? text = some r) : r.Reads text := by
  unfold shorthandMethod? at h
  split at h
  · cases h
  rename_i name rest hhead
  split at h
  · cases h
  · cases h
    obtain ⟨front, rfl⟩ := methodHead?_append_eq hhead
    exact .of_append _ front name rest

/-! ## Anchors -/

/-- The header of an anchor is read from the text, and its name stands in it. -/
theorem reads_recognise? {enclosing : Option AnchorKind}
    (h : g.recognise? text enclosing = some r) : r.Reads text := by
  obtain ⟨found, hfound, rfl⟩ := Option.map_eq_some_iff.mp h
  have hreads : found.Reads text := by
    rcases Option.or_eq_some_iff.mp hfound with hkey | ⟨-, hrest⟩
    · exact (reads_keywordAnchor? hkey).of_suffix (skipModifiers_suffix g text)
    rcases Option.or_eq_some_iff.mp hrest with hassigned | ⟨-, hmethod⟩
    · obtain ⟨rule, -, hrule⟩ := Option.bind_eq_some_iff.mp hassigned
      exact (reads_assignedAnchor? hrule).of_suffix (skipModifiers_suffix g text)
    · split at hmethod
      · exact reads_shorthandMethod? hmethod
      · cases hmethod
  split
  · exact hreads.of_kind .methodDecl
  · exact hreads

end Grammar

end Marginalia
