import Marginalia.Language.Anchors
import Marginalia.Proofs.Locality

/-!
# Headers of anchors are local to a line

No keyword, name or assignment is read across a newline, so text that is added after the end of a
line does not change which anchor is recognised before it. Only the head of a method written
without a keyword may go on over a newline, but it never goes past a closing bracket.
-/

namespace Marginalia

namespace Grammar

/-! ## Words -/

variable {g : Grammar} {d : Char} {s more : List Char}

open Text (EndsLine EndsWith)

/-- A character that is part of no word and no blank in the headers of anchors. -/
structure Stops (g : Grammar) (d : Char) : Prop where
  blank : Text.isInlineBlank d = false
  star : d ≠ '*'
  identStart : g.isIdentStart d = false
  identPart : g.isIdentPart d = false
  modifiers : ∀ m ∈ g.modifiers, d ∉ m
  keywords : ∀ r ∈ g.anchorRules, d ∉ r.keyword

theorem InLines.stops (hg : g.InLines) : g.Stops '\n' where
  blank := by decide
  star := by decide
  identStart := by simp [isIdentStart, hg.identExtra]
  identPart := by simp [isIdentPart, hg.identExtra]
  modifiers m hm := (hg.modifiers m hm).1
  keywords r hr := (hg.anchorRules r hr).1

/-- A query whose answer stays the same when text is added after a text that ends with a character.
It leaves off before that end. -/
def Local (d : Char) (f : List Char → Option (List Char)) : Prop :=
  ∀ ⦃s⦄, EndsWith d s → (∀ more, f (s ++ more) = (f s).map (· ++ more)) ∧
    ∀ r, f s = some r → EndsWith d r

theorem head?_append_of_endsWith (h : EndsWith d s) (more : List Char) :
    (s ++ more).head? = s.head? :=
  List.head?_append_of_ne_nil _ h.ne_nil

theorem dropInline_append (hd : Text.isInlineBlank d = false) (h : EndsWith d s)
    (more : List Char) : dropInline (s ++ more) = dropInline s ++ more :=
  Text.dropWhile_append_of_mem h.mem hd more

theorem endsWith_dropInline (hd : Text.isInlineBlank d = false) (h : EndsWith d s) :
    EndsWith d (dropInline s) := h.dropWhile hd

theorem endsLine_dropInline (h : EndsLine s) : EndsLine (dropInline s) := h.dropWhile (by decide)

/-- The first answer changes with all answers. -/
theorem findSome?_eq_map {α β : Type} {as : List α} {f f' : α → Option β} {change : β → β}
    (h : ∀ a ∈ as, f' a = (f a).map change) :
    as.findSome? f' = (as.findSome? f).map change := by
  induction as with
  | nil => rfl
  | cons a as ih =>
    rw [List.findSome?_cons, List.findSome?_cons, h a List.mem_cons_self]
    cases f a with
    | none => exact ih fun b hb ↦ h b (List.mem_cons_of_mem _ hb)
    | some b => rfl

/-- The first of several local queries that finds something is local. -/
theorem local_findSome? {α : Type} (as : List α) {f : α → List Char → Option (List Char)}
    (h : ∀ a ∈ as, Local d (f a)) : Local d fun s ↦ as.findSome? (f · s) := by
  intro s hs
  refine ⟨fun more ↦ findSome?_eq_map fun a ha ↦ (h a ha hs).1 more, fun r hr ↦ ?_⟩
  obtain ⟨a, ha, hr⟩ := List.exists_of_findSome?_eq_some hr
  exact (h a ha hs).2 r hr

theorem Local.of_eq {f f' : List Char → Option (List Char)} (hf : Local d f)
    (h : ∀ s, f' s = f s) : Local d f' := by
  rwa [show f' = f from funext h]

theorem Local.bind {f f' : List Char → Option (List Char)} (hf : Local d f) (hf' : Local d f') :
    Local d fun s ↦ (f s).bind f' := by
  intro s hs
  obtain ⟨happ, hend⟩ := hf hs
  cases hr : f s with
  | none =>
    refine ⟨fun more ↦ ?_, fun r hr' ↦ ?_⟩
    · simp only [happ, hr, Option.map_none, Option.bind_none]
    · simp only [hr, Option.bind_none] at hr'
      cases hr'
  | some r =>
    obtain ⟨happ', hend'⟩ := hf' (hend r hr)
    refine ⟨fun more ↦ ?_, fun r' hr' ↦ hend' r' ?_⟩
    · simp only [happ, hr, Option.map_some, Option.bind_some, happ']
    · simpa only [hr, Option.bind_some] using hr'

theorem local_isPrefixOf? {t : List Char} (ht : d ∉ t) : Local d fun s ↦ t.isPrefixOf? s :=
  fun _ hs ↦ ⟨hs.isPrefixOf?_append ht, fun _ hr ↦ hs.of_isPrefixOf? ht hr⟩

/-- A check of the next character is local. -/
theorem local_guard (p : Option Char → Bool) :
    Local d fun s ↦ if p s.head? then some s else none := by
  intro s hs
  refine ⟨fun more ↦ ?_, fun r hr ↦ ?_⟩
  · dsimp only
    rw [head?_append_of_endsWith hs]
    split <;> rfl
  · dsimp only at hr
    split at hr
    · cases hr
      exact hs
    · cases hr

theorem local_dropInline (hd : Text.isInlineBlank d = false) :
    Local d fun s ↦ some (dropInline s) := by
  intro s hs
  refine ⟨fun more ↦ by simp only [dropInline_append hd hs, Option.map_some], fun r hr ↦ ?_⟩
  cases hr
  exact endsWith_dropInline hd hs

theorem local_keyword? (g : Grammar) {keyword : List Char} (hk : d ∉ keyword) :
    Local d (g.keyword? · keyword) := by
  refine ((local_isPrefixOf? hk).bind (local_guard fun c ↦ !c.any g.isIdentPart)).of_eq fun s ↦ ?_
  unfold keyword?
  cases keyword.isPrefixOf? s with
  | none => rfl
  | some rest => cases h : rest.head?.any g.isIdentPart <;> simp [h]

theorem local_modifier? (hg : g.Stops d) : Local d g.modifier? := by
  refine local_findSome? g.modifiers fun m hm ↦ ?_
  refine ((local_keyword? g (hg.modifiers m hm)).bind
    ((local_guard fun c ↦ c.any Text.isInlineBlank).bind
      (local_dropInline hg.blank))).of_eq fun s ↦ ?_
  cases g.keyword? s m with
  | none => rfl
  | some rest => cases h : rest.head?.any Text.isInlineBlank <;> simp [h]

theorem local_operator? {r : AssignmentRule} (hr : ∀ t ∈ r.operators, d ∉ t) :
    Local d (operator? r) := by
  refine local_findSome? r.operators fun op hop ↦ ?_
  refine ((local_isPrefixOf? (hr op hop)).bind
    (local_guard fun c ↦ !(c = some '=' ∨ c = some '>'))).of_eq fun s ↦ ?_
  cases op.isPrefixOf? s with
  | none => rfl
  | some rest => simp only [Option.bind_some, Bool.not_eq_true', decide_eq_false_iff_not, ite_not]

theorem local_closeParens? (depth : Nat) : Local '\n' (closeParens? depth) := by
  intro s hs
  induction s generalizing depth with
  | nil => exact absurd rfl hs.ne_nil
  | cons c cs ih =>
    by_cases hcs : cs = []
    · have hc : c = '\n' := by simpa [hcs, EndsWith] using hs
      rw [hc, hcs]
      exact ⟨fun more ↦ by simp [closeParens?], fun r hr ↦ by simp [closeParens?] at hr⟩
    · have hcs' : EndsWith '\n' cs := hs.of_suffix (List.suffix_cons c cs) hcs
      have ih' := fun depth ↦ ih depth hcs'
      simp only [List.cons_append, closeParens?]
      split
      · exact ih' _
      split
      · rcases depth with - | - | depth
        · exact ⟨fun _ ↦ rfl, fun r hr ↦ by cases hr⟩
        · refine ⟨fun _ ↦ rfl, fun r hr ↦ ?_⟩
          cases hr
          exact hcs'
        · exact ih' _
      split
      · exact ⟨fun _ ↦ rfl, fun r hr ↦ by cases hr⟩
      · exact ih' _

/-- A local query may be repeated. -/
theorem iterate_append {f : List Char → Option (List Char)} (hf : Local d f) (n : Nat)
    (hs : EndsWith d s) (more : List Char) :
    iterate f n (s ++ more) = iterate f n s ++ more ∧ EndsWith d (iterate f n s) := by
  induction n generalizing s with
  | zero => exact ⟨rfl, hs⟩
  | succ n ih =>
    obtain ⟨happ, hend⟩ := hf hs
    cases hr : f s with
    | none =>
      rw [iterate_of_none hr, iterate_of_none (by rw [happ, hr]; rfl)]
      exact ⟨rfl, hs⟩
    | some r =>
      rw [iterate_of_some hr, iterate_of_some (b := r ++ more) (by rw [happ, hr]; rfl)]
      exact ih (hend r hr)

theorem dropInline_suffix (s : List Char) : dropInline s <:+ s := List.dropWhile_suffix _

theorem keyword?_append_eq {keyword r : List Char} (h : g.keyword? s keyword = some r) :
    keyword ++ r = s := by
  unfold keyword? at h
  split at h
  · cases h
  rename_i found hfound
  split at h
  · cases h
  · cases h
    exact List.isPrefixOf?_eq_some_iff_append_eq.mp hfound

/-- A modifier takes the blanks that have to follow it along, so what is left is shorter. -/
theorem modifier?_suffix {r : List Char} (h : g.modifier? s = some r) :
    r <:+ s ∧ r.length < s.length := by
  obtain ⟨m, -, h⟩ := List.exists_of_findSome?_eq_some h
  split at h
  · cases h
  rename_i found hfound
  have hsuffix : found <:+ s := ⟨m, keyword?_append_eq hfound⟩
  split at h
  · rename_i hblank
    cases h
    refine ⟨(dropInline_suffix found).trans hsuffix, ?_⟩
    cases found with
    | nil => cases hblank
    | cons c cs =>
      have hc : Text.isInlineBlank c = true := by simpa using hblank
      have hle := (dropInline_suffix cs).length_le
      have hle' := hsuffix.length_le
      rw [dropInline, List.dropWhile_cons_of_pos hc, ← dropInline]
      rw [List.length_cons] at hle'
      omega
  · cases h

theorem skipModifiers_append (hg : g.Stops d) (hs : EndsWith d s) (more : List Char) :
    g.skipModifiers (s ++ more) = g.skipModifiers s ++ more ∧ EndsWith d (g.skipModifiers s) := by
  have hlocal := local_modifier? hg
  have hend : g.modifier? (iterate g.modifier? s.length s) = none :=
    step_iterate (P := fun _ ↦ True) List.length (fun _ _ _ _ ↦ trivial)
      (fun _ _ _ h ↦ (modifier?_suffix h).2) _ _ trivial (Nat.le_refl _)
  obtain ⟨happ, hends⟩ := iterate_append hlocal s.length hs more
  refine ⟨?_, hends⟩
  unfold skipModifiers
  rw [List.length_append, ← happ]
  refine iterate_eq_of_le ?_ (Nat.le_add_right _ _)
  rw [happ, (hlocal hends).1 more, hend]
  rfl

/-! ## Names -/

theorem ident?_append (hg : g.Stops d) (hs : EndsWith d s) (more : List Char) :
    g.ident? (s ++ more) = g.ident? s := by
  cases s with
  | nil => exact absurd rfl hs.ne_nil
  | cons c cs =>
    cases hc : g.isIdentStart c with
    | false => simp [ident?, hc]
    | true =>
      have hmem : d ∈ cs := by
        rcases List.mem_cons.mp hs.mem with rfl | hmem
        · rw [hg.identStart] at hc
          cases hc
        · exact hmem
      simp [ident?, hc, Text.takeWhile_append_of_mem hmem hg.identPart]

/-- An identifier stands at the start of the text, and no character that stops it is in it. -/
theorem ident?_spec {i : List Char} (h : g.ident? s = some i) :
    i <+: s ∧ i ≠ [] ∧ ∀ d, g.Stops d → d ∉ i := by
  cases s with
  | nil => cases h
  | cons c cs =>
    rw [ident?] at h
    split at h
    · rename_i hc
      cases h
      refine ⟨?_, by simp, fun d hg hmem ↦ ?_⟩
      · exact List.cons_prefix_cons.mpr ⟨rfl, List.takeWhile_prefix _⟩
      · rcases List.mem_cons.mp hmem with hd | hmem
        · rw [← hd, hg.identStart] at hc
          cases hc
        · have := List.mem_takeWhile_imp hmem
          rw [hg.identPart] at this
          cases this
    · cases h

/-- What is left after an identifier still ends as the text did. -/
theorem drop_ident_append (hg : g.Stops d) (hs : EndsWith d s) {i : List Char}
    (h : g.ident? s = some i) (more : List Char) :
    (s ++ more).drop i.length = s.drop i.length ++ more ∧ EndsWith d (s.drop i.length) := by
  obtain ⟨⟨rest, hrest⟩, -, hline⟩ := ident?_spec h
  subst hrest
  refine ⟨by simp, ?_⟩
  rw [List.drop_left]
  refine hs.of_suffix (List.suffix_append i rest) ?_
  rintro rfl
  rw [List.append_nil] at hs
  exact hline d hg hs.mem

end Grammar

/-- A recognition in the text with more text after it. -/
def Recognition.extend (more : List Char) (r : Recognition) : Recognition :=
  { r with rest := r.rest ++ more }

theorem Recognition.extend_nil (r : Recognition) : r.extend [] = r := by
  rw [extend, List.append_nil]

theorem Recognition.headerLength_extend (r : Recognition) (text more : List Char) :
    (r.extend more).headerLength (text ++ more) = r.headerLength text := by
  simp [headerLength, extend, Nat.add_sub_add_right]

/-- An anchor as it is known by what encloses it: a function in a class body is a method. -/
def Recognition.enclosedBy (enclosing : Option AnchorKind) (r : Recognition) : Recognition :=
  if r.kind = .functionDecl ∧ enclosing = some .classDecl then { r with kind := .methodDecl } else r

theorem Recognition.extend_enclosedBy (enclosing : Option AnchorKind) (more : List Char)
    (r : Recognition) :
    (r.extend more).enclosedBy enclosing = (r.enclosedBy enclosing).extend more := by
  by_cases hkind : r.kind = .functionDecl ∧ enclosing = some .classDecl
  · simp [enclosedBy, extend, hkind]
  · rw [enclosedBy, enclosedBy, if_neg hkind]
    exact if_neg hkind

namespace Grammar

open Text (EndsLine EndsWith)

variable {g : Grammar} {d : Char} {s more : List Char}

/-- What an identifier at the start of `named` makes, or the lack of one. -/
def nameAt (g : Grammar) (kind : AnchorKind) (named text : List Char) : Option Recognition :=
  match g.ident? named with
  | some i => some ⟨kind, i, named.drop i.length⟩
  | none => if kind = .functionDecl ∨ kind = .classDecl then some ⟨kind, [], text⟩ else none

theorem nameAt_append (hg : g.Stops d) (kind : AnchorKind) {named : List Char}
    (hn : EndsWith d named) (text more : List Char) :
    g.nameAt kind (named ++ more) (text ++ more) =
      (g.nameAt kind named text).map (·.extend more) := by
  unfold nameAt
  rw [ident?_append hg hn]
  cases hi : g.ident? named with
  | none =>
    dsimp only
    split <;> rfl
  | some i => simp [Recognition.extend, (drop_ident_append hg hn hi more).1]

/-- A text, or what `f` makes of it after a star that it starts with. -/
def afterStar (f : List Char → List Char) (text : List Char) : List Char :=
  match text with
  | '*' :: rest => f rest
  | _ => text

theorem afterStar_of_ne (f : List Char → List Char) {c : Char} (hc : c ≠ '*') (cs : List Char) :
    afterStar f (c :: cs) = c :: cs := by
  unfold afterStar
  split
  · rename_i heq
    exact absurd (List.cons.inj heq).1 hc
  · rfl

theorem afterStar_suffix {f : List Char → List Char} (hf : ∀ s, f s <:+ s) (text : List Char) :
    afterStar f text <:+ text := by
  unfold afterStar
  split
  · exact (hf _).trans (List.suffix_cons _ _)
  · exact List.suffix_refl _

theorem followingIdent?_eq (g : Grammar) (kind : AnchorKind) (text : List Char) :
    g.followingIdent? kind text = g.nameAt kind (afterStar dropInline text) text := rfl

theorem followingIdent?_append (hg : g.Stops d) (kind : AnchorKind) (hs : EndsWith d s)
    (more : List Char) :
    g.followingIdent? kind (s ++ more) = (g.followingIdent? kind s).map (·.extend more) := by
  cases s with
  | nil => exact absurd rfl hs.ne_nil
  | cons c cs =>
    by_cases hc : c = '*'
    · subst hc
      have hcs : EndsWith d cs := hs.tail hg.star.symm
      have happ := nameAt_append hg kind (endsWith_dropInline hg.blank hcs) ('*' :: cs) more
      rw [← dropInline_append hg.blank hcs] at happ
      exact happ
    · rw [followingIdent?_eq, followingIdent?_eq, List.cons_append, afterStar_of_ne _ hc,
        afterStar_of_ne _ hc]
      exact nameAt_append hg kind hs (c :: cs) more

theorem afterReceiver?_of_ne {c : Char} (hc : c ≠ '(') (kind : AnchorKind) (cs : List Char) :
    g.afterReceiver? kind (c :: cs) = g.followingIdent? kind (c :: cs) := by
  unfold afterReceiver?
  split
  · rename_i heq
    exact absurd (List.cons.inj heq).1 hc
  · rfl

theorem afterReceiver?_append (hg : g.InLines) (kind : AnchorKind) (hs : EndsLine s)
    (more : List Char) :
    g.afterReceiver? kind (s ++ more) = (g.afterReceiver? kind s).map (·.extend more) := by
  cases s with
  | nil => exact absurd rfl hs.ne_nil
  | cons c cs =>
    by_cases hc : c = '('
    · subst hc
      have hcs : EndsLine cs := hs.tail (by decide)
      obtain ⟨happ, hend⟩ := local_closeParens? 1 hcs
      have hblank := hg.stops.blank
      simp only [List.cons_append, afterReceiver?, happ]
      cases hp : closeParens? 1 cs with
      | none => rfl
      | some rest =>
        have hrest := hend rest hp
        simp only [Option.map_some, Option.bind_eq_bind, Option.bind_some,
          dropInline_append hblank hrest, ident?_append hg.stops (endsLine_dropInline hrest)]
        cases hi : g.ident? (dropInline rest) with
        | none => rfl
        | some i =>
          simp [Recognition.extend,
            (drop_ident_append hg.stops (endsLine_dropInline hrest) hi more).1]
    · rw [List.cons_append, afterReceiver?_of_ne hc, afterReceiver?_of_ne hc]
      exact followingIdent?_append hg.stops kind hs more

/-- The rules of a grammar look for names that stop at a character. -/
def NamesStop (g : Grammar) (d : Char) : Prop :=
  ∀ r ∈ g.anchorRules, ∀ ⦃s⦄, EndsWith d s →
    ∀ more, g.ruleName? r (s ++ more) = (g.ruleName? r s).map (·.extend more)

theorem InLines.namesStop (hg : g.InLines) : g.NamesStop '\n' := by
  intro r hr s hs more
  unfold ruleName?
  split
  · exact followingIdent?_append hg.stops r.kind hs more
  · exact afterReceiver?_append hg r.kind hs more
  · rename_i hquoted
    exact absurd hquoted (hg.anchorRules r hr).2

theorem Stops.namesStop (hg : g.Stops d) (h : ∀ r ∈ g.anchorRules, r.naming = .followingIdent) :
    g.NamesStop d := by
  intro r hr s hs more
  unfold ruleName?
  rw [h r hr]
  exact followingIdent?_append hg r.kind hs more

theorem keywordAnchor?_append (hg : g.Stops d) (hnames : g.NamesStop d) (hs : EndsWith d s)
    (more : List Char) :
    g.keywordAnchor? (s ++ more) = (g.keywordAnchor? s).map (·.extend more) := by
  refine findSome?_eq_map fun r hr ↦ ?_
  obtain ⟨happ, hend⟩ := local_keyword? g (hg.keywords r hr) hs
  dsimp only at happ hend
  rw [happ]
  cases hk : g.keyword? s r.keyword with
  | none => rfl
  | some rest =>
    have hrest := hend rest hk
    simp only [Option.map_some, Option.bind_some, dropInline_append hg.blank hrest]
    exact hnames r hr (endsWith_dropInline hg.blank hrest) more

/-! ## Assigned anchors -/

/-- A path is found within as many steps as the text has characters. -/
theorem dottedPath?_eq_of_le {fuel fuel' : Nat} (qualified : Bool) (hle : s.length ≤ fuel)
    (hle' : s.length ≤ fuel') : g.dottedPath? fuel qualified s = g.dottedPath? fuel' qualified s := by
  induction fuel generalizing fuel' qualified s with
  | zero =>
    have hnil : s = [] := List.length_eq_zero_iff.mp (Nat.le_zero.mp hle)
    subst hnil
    cases fuel' <;> rfl
  | succ fuel ih =>
    cases fuel' with
    | zero =>
      have hnil : s = [] := List.length_eq_zero_iff.mp (Nat.le_zero.mp hle')
      subst hnil
      rfl
    | succ fuel' =>
      unfold dottedPath?
      cases hi : g.ident? s with
      | none => rfl
      | some i =>
        dsimp only
        split
        · rename_i rest hdot
          have hlen := congrArg List.length hdot
          simp only [List.length_drop, List.length_cons] at hlen
          exact ih true (by omega) (by omega)
        · rfl

theorem dottedPath?_append (hg : g.InLines) (fuel : Nat) (qualified : Bool) (hs : EndsLine s)
    (more : List Char) :
    g.dottedPath? fuel qualified (s ++ more) =
        (g.dottedPath? fuel qualified s).map (fun (i, q, rest) ↦ (i, q, rest ++ more)) ∧
      ∀ i q rest, g.dottedPath? fuel qualified s = some (i, q, rest) → EndsLine rest := by
  induction fuel generalizing qualified s with
  | zero => exact ⟨rfl, fun _ _ _ h ↦ by cases h⟩
  | succ fuel ih =>
    unfold dottedPath?
    rw [ident?_append hg.stops hs]
    cases hi : g.ident? s with
    | none => exact ⟨rfl, fun _ _ _ h ↦ by cases h⟩
    | some i =>
      obtain ⟨happ, hend⟩ := drop_ident_append hg.stops hs hi more
      dsimp only
      rw [happ]
      cases hrest : s.drop i.length with
      | nil => exact absurd hrest hend.ne_nil
      | cons c cs =>
        rw [hrest] at hend
        by_cases hc : c = '.'
        · subst hc
          exact ih true (hend.tail (by decide))
        · simp only [List.cons_append]
          split
          · rename_i heq
            exact absurd (List.cons.inj heq).1 hc
          · split
            · rename_i heq
              exact absurd (List.cons.inj heq).1 hc
            · refine ⟨rfl, fun _ _ _ h ↦ ?_⟩
              cases h
              exact hend

theorem valueKind?_append {r : AssignmentRule} (hr : ∀ v ∈ r.values, '\n' ∉ v.1) (hs : EndsLine s)
    (more : List Char) : g.valueKind? r (s ++ more) = g.valueKind? r s := by
  have hfind : (r.values.find? fun v ↦ (g.keyword? (s ++ more) v.1).isSome) =
      r.values.find? fun v ↦ (g.keyword? s v.1).isSome := by
    refine List.find?_congr fun v hv ↦ ?_
    have happ := (local_keyword? g (hr v hv) hs).1 more
    dsimp only at happ
    rw [happ, Option.isSome_map]
  unfold valueKind?
  rw [hfind, hs.firstLine_append]

theorem assignedAnchor?_append (hg : g.InLines) {r : AssignmentRule} (hr : r ∈ g.assignment)
    (hs : EndsLine s) (more : List Char) :
    g.assignedAnchor? r (s ++ more) = (g.assignedAnchor? r s).map (·.extend more) := by
  obtain ⟨hops, hvalues⟩ := hg.assignment r hr
  obtain ⟨hpath, hpathEnd⟩ := dottedPath?_append hg (s ++ more).length false hs more
  have hfuel : g.dottedPath? (s ++ more).length false s = g.dottedPath? s.length false s :=
    dottedPath?_eq_of_le false (by simp) (Nat.le_refl _)
  rw [hfuel] at hpath hpathEnd
  unfold assignedAnchor?
  rw [hpath]
  cases hp : g.dottedPath? s.length false s with
  | none => rfl
  | some found =>
    obtain ⟨name, qualified, rest⟩ := found
    have hrest := endsLine_dropInline (hpathEnd name qualified rest hp)
    obtain ⟨hop, hopEnd⟩ := local_operator? hops hrest
    simp only [Option.map_some, Option.bind_eq_bind, Option.bind_some,
      dropInline_append hg.stops.blank (hpathEnd name qualified rest hp), hop]
    cases ho : operator? r (dropInline rest) with
    | none => rfl
    | some value =>
      have hvalue := hopEnd value ho
      simp only [Option.map_some, Option.bind_some, dropInline_append hg.stops.blank hvalue,
        valueKind?_append hvalues (endsLine_dropInline hvalue)]
      cases g.valueKind? r (dropInline value) <;> rfl

/-! ## Methods without a keyword -/

/-- The characters of names and the blanks between them are no closing brackets. -/
theorem isCloser_spec {c : Char} (hc : Text.isCloser c = true) :
    Text.isBlank c = false ∧ isNamePart c = false ∧ isNameStart c = false ∧ c ≠ '#' ∧ c ≠ '*' := by
  simp only [Text.isCloser, Bool.or_eq_true, decide_eq_true_eq] at hc
  rcases hc with (rfl | rfl) | rfl <;> decide

/-- A text with a closing bracket in it that ends with a newline. -/
def Closes (s : List Char) : Prop := EndsLine s ∧ ∃ c ∈ s, Text.isCloser c = true

theorem Closes.dropWhile {p : Char → Bool} (h : Closes s)
    (hp : ∀ c, Text.isCloser c = true → p c = false) (more : List Char) :
    (s ++ more).dropWhile p = s.dropWhile p ++ more ∧ Closes (s.dropWhile p) := by
  obtain ⟨hs, c, hc, hclose⟩ := h
  have hmem := Text.mem_dropWhile hc (hp c hclose)
  exact ⟨Text.dropWhile_append_of_mem hc (hp c hclose) more,
    hs.of_suffix (List.dropWhile_suffix p) (List.ne_nil_of_mem hmem), c, hmem, hclose⟩

theorem Closes.trimStart (h : Closes s) (more : List Char) :
    Text.trimStart (s ++ more) = Text.trimStart s ++ more ∧ Closes (Text.trimStart s) :=
  h.dropWhile (fun _ hc ↦ (isCloser_spec hc).1) more

theorem Closes.tail {c : Char} (h : Closes (c :: s)) (hc : Text.isCloser c = false) : Closes s := by
  obtain ⟨hs, d, hd, hclose⟩ := h
  have hmem : d ∈ s := by
    rcases List.mem_cons.mp hd with rfl | hmem
    · rw [hc] at hclose
      cases hclose
    · exact hmem
  exact ⟨hs.of_suffix (List.suffix_cons c s) (List.ne_nil_of_mem hmem), d, hmem, hclose⟩

theorem Closes.of_isPrefixOf? {t r : List Char} (h : Closes s) (hline : '\n' ∉ t)
    (hopen : ∀ c ∈ t, Text.isCloser c = false) (hr : t.isPrefixOf? s = some r) : Closes r := by
  obtain ⟨hs, c, hc, hclose⟩ := h
  refine ⟨hs.of_isPrefixOf? hline hr, c, ?_, hclose⟩
  rw [← List.isPrefixOf?_eq_some_iff_append_eq.mp hr, List.mem_append] at hc
  rcases hc with hc | hc
  · rw [hopen c hc] at hclose
    cases hclose
  · exact hc

/-- A text extended after what is read of it. -/
def extendRest (more : List Char) (found : List Char × List Char) : List Char × List Char :=
  (found.1, found.2 ++ more)

/-- A method's name at the start of a text, when a parenthesis follows. -/
def plainName? : List Char → Option (List Char × List Char)
  | [] => none
  | c :: cs =>
    if (isNameStart c || c = '#') && (Text.trimStart (cs.dropWhile isNamePart)).head? = some '(' then
      some (c :: cs.takeWhile isNamePart, cs.dropWhile isNamePart)
    else none

theorem plainName?_append (hs : Closes s) (more : List Char) :
    plainName? (s ++ more) = (plainName? s).map (extendRest more) := by
  cases s with
  | nil => exact absurd rfl hs.1.ne_nil
  | cons c cs =>
    cases hc : isNameStart c || c = '#' with
    | false => simp [plainName?, hc]
    | true =>
      have hnot : Text.isCloser c = false := by
        by_contra hclose
        obtain ⟨-, -, hstart, hhash, -⟩ := isCloser_spec (Bool.eq_true_of_not_eq_false hclose)
        simp [hstart, hhash] at hc
      have hcs := hs.tail hnot
      obtain ⟨hdrop, hrest⟩ := hcs.dropWhile (fun _ hd ↦ (isCloser_spec hd).2.1) more
      obtain ⟨htrim, htail⟩ := hrest.trimStart more
      obtain ⟨-, d, hd, hclose⟩ := hcs
      have htake : (cs ++ more).takeWhile isNamePart = cs.takeWhile isNamePart :=
        Text.takeWhile_append_of_mem hd (isCloser_spec hclose).2.1 more
      simp only [List.cons_append, plainName?, hdrop, htrim, htake,
        head?_append_of_endsWith htail.1.endsWith]
      split <;> rfl

theorem methodName?_eq (text : List Char) :
    methodName? text = plainName? (Text.trimStart (afterStar id text)) := rfl

theorem methodName?_append (hs : Closes s) (more : List Char) :
    methodName? (s ++ more) = (methodName? s).map (extendRest more) := by
  cases s with
  | nil => exact absurd rfl hs.1.ne_nil
  | cons c cs =>
    by_cases hc : c = '*'
    · subst hc
      obtain ⟨htrim, hclose⟩ := (hs.tail (by decide)).trimStart more
      have happ := plainName?_append hclose more
      rw [← htrim] at happ
      exact happ
    · obtain ⟨htrim, hclose⟩ := hs.trimStart more
      rw [methodName?_eq, methodName?_eq, List.cons_append, afterStar_of_ne _ hc,
        afterStar_of_ne _ hc, ← List.cons_append, htrim]
      exact plainName?_append hclose more

/-- The text after one of the words that may stand before a method's name. -/
def methodModifier? (text : List Char) : Option (List Char) :=
  methodModifiers.findSome? fun m =>
    match m.isPrefixOf? text with
    | none => none
    | some rest => if rest.head?.any Text.isBlank then some (Text.trimStart rest) else none

theorem methodHead?_succ (fuel : Nat) (text : List Char) :
    methodHead? (fuel + 1) text =
      match (methodModifier? text).bind (methodHead? fuel) with
      | some found => some found
      | none => methodName? text := rfl

theorem methodModifiers_spec :
    ∀ m ∈ methodModifiers, m ≠ [] ∧ '\n' ∉ m ∧ ∀ c ∈ m, Text.isCloser c = false := by
  simp [methodModifiers, Text.isCloser]

theorem methodModifier?_append (hs : Closes s) (more : List Char) :
    methodModifier? (s ++ more) = (methodModifier? s).map (· ++ more) := by
  refine findSome?_eq_map fun m hm ↦ ?_
  obtain ⟨-, hline, hopen⟩ := methodModifiers_spec m hm
  rw [hs.1.isPrefixOf?_append hline]
  cases hp : m.isPrefixOf? s with
  | none => rfl
  | some rest =>
    have hrest := hs.of_isPrefixOf? hline hopen hp
    simp only [Option.map_some, head?_append_of_endsWith hrest.1.endsWith, (hrest.trimStart more).1]
    split <;> rfl

/-- What is left after a word is shorter, and has what closes the text. -/
theorem methodModifier?_spec {r : List Char} (h : methodModifier? s = some r) :
    r.length < s.length ∧ (Closes s → Closes r) := by
  obtain ⟨m, hm, h⟩ := List.exists_of_findSome?_eq_some h
  obtain ⟨hne, hline, hopen⟩ := methodModifiers_spec m hm
  split at h
  · cases h
  · rename_i rest hp
    split at h
    · cases h
      refine ⟨?_, fun hs ↦ ?_⟩
      · have hpos := List.length_pos_iff.mpr hne
        have hlen := (List.dropWhile_suffix Text.isBlank (l := rest)).length_le
        rw [← List.isPrefixOf?_eq_some_iff_append_eq.mp hp, List.length_append]
        unfold Text.trimStart
        omega
      · exact ((hs.of_isPrefixOf? hline hopen hp).trimStart []).2
    · cases h

theorem methodHead?_eq_of_lt {fuel fuel' : Nat} (hlt : s.length < fuel) (hlt' : s.length < fuel') :
    methodHead? fuel s = methodHead? fuel' s := by
  induction fuel generalizing fuel' s with
  | zero => omega
  | succ fuel ih =>
    obtain ⟨k, rfl⟩ : ∃ k, fuel' = k + 1 := ⟨fuel' - 1, by omega⟩
    rw [methodHead?_succ, methodHead?_succ]
    cases hm : methodModifier? s with
    | none => rfl
    | some r =>
      have hr := (methodModifier?_spec hm).1
      rw [Option.bind_some, Option.bind_some, ih (by omega) (by omega : r.length < k)]

theorem methodHead?_append (fuel : Nat) (hs : Closes s) (more : List Char) :
    methodHead? fuel (s ++ more) = (methodHead? fuel s).map (extendRest more) := by
  induction fuel generalizing s with
  | zero => rfl
  | succ fuel ih =>
    have hbind : (methodModifier? (s ++ more)).bind (methodHead? fuel) =
        ((methodModifier? s).bind (methodHead? fuel)).map (extendRest more) := by
      rw [methodModifier?_append hs]
      cases hm : methodModifier? s with
      | none => rfl
      | some r => exact ih ((methodModifier?_spec hm).2 hs)
    rw [methodHead?_succ, methodHead?_succ, hbind]
    cases (methodModifier? s).bind (methodHead? fuel) with
    | none => exact methodName?_append hs more
    | some found => rfl

theorem shorthandMethod?_append (hs : Closes s) (more : List Char) :
    shorthandMethod? (s ++ more) = (shorthandMethod? s).map (·.extend more) := by
  have hfuel : methodHead? ((s ++ more).length + 1) s = methodHead? (s.length + 1) s :=
    methodHead?_eq_of_lt (by rw [List.length_append]; omega) (Nat.lt_succ_self _)
  unfold shorthandMethod?
  rw [methodHead?_append _ hs, hfuel]
  cases methodHead? (s.length + 1) s with
  | none => rfl
  | some found =>
    simp only [Option.map_some, extendRest]
    split <;> rfl

/-! ## Anchors -/

/-- The method without a keyword that starts here, where a grammar has any. -/
def bareMethod? (g : Grammar) (enclosing : Option AnchorKind) (text : List Char) :
    Option Recognition :=
  if g.methodShorthand && enclosing = some .classDecl then shorthandMethod? text else none

/-- What a keyword or an assignment introduces in a line is recognised whatever comes after the end
of the line; if there is nothing of the kind, a method without a keyword is. -/
theorem exists_recognise?_eq (hg : g.InLines) (enclosing : Option AnchorKind) (hs : EndsLine s) :
    ∃ found : Option Recognition, ∀ more, g.recognise? (s ++ more) enclosing =
      ((found.map (·.extend more)).or (g.bareMethod? enclosing (s ++ more))).map
        (·.enclosedBy enclosing) := by
  refine ⟨(g.keywordAnchor? (g.skipModifiers s)).or
    (g.assignment.bind (g.assignedAnchor? · (g.skipModifiers s))), fun more ↦ ?_⟩
  obtain ⟨hskip, hbody⟩ := skipModifiers_append hg.stops hs more
  have hassigned : g.assignment.bind (g.assignedAnchor? · (g.skipModifiers s ++ more)) =
      (g.assignment.bind (g.assignedAnchor? · (g.skipModifiers s))).map (·.extend more) := by
    cases hr : g.assignment with
    | none => rfl
    | some r => exact assignedAnchor?_append hg hr hbody more
  have hlocal : ((g.keywordAnchor? (g.skipModifiers s)).or
      (g.assignment.bind (g.assignedAnchor? · (g.skipModifiers s)))).map (·.extend more) =
        (g.keywordAnchor? (g.skipModifiers s ++ more)).or
          (g.assignment.bind (g.assignedAnchor? · (g.skipModifiers s ++ more))) := by
    rw [Option.map_or, hassigned, keywordAnchor?_append hg.stops hg.namesStop hbody]
  rw [hlocal, Option.or_assoc, ← hskip]
  rfl

/-- An anchor is recognised the same way when text is added after the end of a line; in the body of
a class where methods need no keyword, after the bracket that closes it. -/
theorem recognise?_append (hg : g.InLines) {enclosing : Option AnchorKind} (hs : EndsLine s)
    (hclass : g.methodShorthand = true → enclosing = some .classDecl → Closes s)
    (more : List Char) :
    g.recognise? (s ++ more) enclosing = (g.recognise? s enclosing).map (·.extend more) := by
  obtain ⟨found, hfound⟩ := exists_recognise?_eq hg enclosing hs
  have hmethod : g.bareMethod? enclosing (s ++ more) =
      (g.bareMethod? enclosing s).map (·.extend more) := by
    unfold bareMethod?
    split
    · rename_i hcond
      simp only [Bool.and_eq_true, decide_eq_true_eq] at hcond
      exact shorthandMethod?_append (hclass hcond.1 hcond.2) more
    · rfl
  have hnil := hfound []
  simp only [List.append_nil, Recognition.extend_nil, Option.map_id'] at hnil
  rw [hfound, hnil, hmethod, ← Option.map_or, Option.map_map, Option.map_map]
  congr 1
  funext r
  exact r.extend_enclosedBy enclosing more

/-- Where keywords are all that introduces an anchor, it is recognised the same way when text is
added after a character that stops names. -/
theorem recognise?_append_of_stops (hg : g.Stops d) (hnames : g.NamesStop d)
    (hassignment : g.assignment = none) (hmethod : g.methodShorthand = false)
    (enclosing : Option AnchorKind) (hs : EndsWith d s) (more : List Char) :
    g.recognise? (s ++ more) enclosing = (g.recognise? s enclosing).map (·.extend more) := by
  obtain ⟨hskip, hbody⟩ := skipModifiers_append hg hs more
  unfold recognise?
  simp only [hassignment, hmethod, Bool.false_and, Bool.false_eq_true, if_false, Option.bind_none,
    Option.or_none]
  rw [hskip, keywordAnchor?_append hg hnames hbody, Option.map_map, Option.map_map]
  congr 1
  funext r
  exact r.extend_enclosedBy enclosing more

end Grammar

end Marginalia
