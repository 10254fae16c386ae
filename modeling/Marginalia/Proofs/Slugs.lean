import Marginalia.Language.Builtin
import Marginalia.Language.Catalogue
import Marginalia.Proofs.AnchorNames
import Marginalia.Proofs.Routes
import Mathlib.Data.List.Nodup

/-!
# Which slugs are distinct

A slug is made of a base and of the number of titles with the same base before it. Bases and numbers
together are never the same for two titles, so all depends on how they are written: two slugs with
numbers can be told apart by what follows the last hyphen, but a base may itself end in a hyphen and
a number, and then it may be written like the slug of another base. The names that are read in
JavaScript, Python and Go have no hyphens, so the headings of their documents are told apart.
-/

namespace Marginalia

namespace Slugger

/-- The slug of a base and a number. The first title of a base has the number 0 and goes without. -/
def written (base : List Char) : Nat → List Char
  | 0 => base
  | n + 1 => base ++ '-' :: Nat.toDigits 10 (n + 1)

/-- The bases of titles. -/
def bases (titles : List String) : List (List Char) := titles.map fun title ↦ baseSlug title.toList

/-- Bases, each with the number of times it was met before, given those met so far. -/
def numbered (seen : List (List Char)) : List (List Char) → List (List Char × Nat)
  | [] => []
  | base :: rest => (base, seen.count base) :: numbered (base :: seen) rest

/-! ## What is written -/

theorem slug_eq_written (s : Slugger) (title : String) :
    s.slug title = String.ofList
      (written (baseSlug title.toList) (s.seen.count (baseSlug title.toList))) := by
  unfold slug
  dsimp only
  split
  · next h =>
    rw [h]
    rfl
  · next n h =>
    rw [h, written]
    change String.ofList (baseSlug title.toList) ++ "-" ++ (n + 1).repr = _
    refine String.toList_injective ?_
    simp [Nat.toList_repr]

theorem slugs_eq_map (s : Slugger) (titles : List String) :
    s.slugs titles =
      (numbered s.seen (bases titles)).map fun (base, n) ↦ String.ofList (written base n) := by
  induction titles generalizing s with
  | nil => rfl
  | cons title titles ih =>
    rw [slugs, slug_eq_written, ih]
    rfl

/-! ## Bases and numbers -/

variable {seen all : List (List Char)} {base base' : List Char} {n n' : Nat}

/-- The numbers of a base go on from the number of times it was met. -/
theorem mem_numbered_iff :
    (base, n) ∈ numbered seen all ↔ seen.count base ≤ n ∧ n < seen.count base + all.count base := by
  induction all generalizing seen with
  | nil => simp [numbered]
  | cons first rest ih =>
    rw [numbered, List.mem_cons, ih, Prod.mk.injEq]
    by_cases h : first = base
    · subst h
      rw [List.count_cons_self, List.count_cons_self, eq_self, true_and]
      omega
    · rw [List.count_cons_of_ne h, List.count_cons_of_ne h]
      have hne : base ≠ first := fun heq ↦ h heq.symm
      simp [hne]

/-- No base has a number twice. -/
theorem nodup_numbered (seen all : List (List Char)) : (numbered seen all).Nodup := by
  induction all generalizing seen with
  | nil => exact List.nodup_nil
  | cons first rest ih =>
    refine List.nodup_cons.mpr ⟨?_, ih _⟩
    rw [mem_numbered_iff, List.count_cons_self]
    omega

/-! ## How they are written -/

/-- A hyphen that no other follows is the last one. -/
theorem append_hyphen_inj {s t d e : List Char} (hd : '-' ∉ d) (he : '-' ∉ e) :
    s ++ '-' :: d = t ++ '-' :: e ↔ s = t ∧ d = e := by
  refine ⟨fun h ↦ ?_, fun ⟨hs, hd⟩ ↦ by rw [hs, hd]⟩
  have hcut : ∀ {u v : List Char}, '-' ∉ v →
      (u ++ '-' :: v).reverse.takeWhile (· ≠ '-') = v.reverse := by
    intro u v hv
    rw [List.reverse_append, List.reverse_cons, List.append_assoc,
      List.takeWhile_append_of_pos]
    · simp
    · intro c hc
      exact decide_eq_true fun heq ↦ hv (heq ▸ List.mem_reverse.mp hc)
  have htail : d = e := by
    rw [← List.reverse_inj, ← hcut hd, ← hcut he, h]
  subst htail
  exact ⟨List.append_cancel_right h, rfl⟩

theorem hyphen_notMem_toDigits (n : Nat) : '-' ∉ Nat.toDigits 10 n := fun h ↦
  absurd (Nat.isDigit_of_mem_toDigits (by decide) (by decide) h) (by decide)

/-- Two slugs that have numbers tell their bases and numbers. -/
theorem written_succ_inj : written base (n + 1) = written base' (n' + 1) ↔ base = base' ∧ n = n' := by
  rw [written, written, append_hyphen_inj (hyphen_notMem_toDigits _) (hyphen_notMem_toDigits _)]
  refine and_congr_right fun _ ↦ ⟨fun h ↦ ?_, fun h ↦ by rw [h]⟩
  have hnumber := congrArg (fun digits ↦ Nat.ofDigitChars 10 digits 0) h
  simpa [Nat.ofDigitChars_ten_toDigits] using hnumber

/-- Bases that are not written like the slug of another title with a number. -/
def Apart (all : List (List Char)) : Prop :=
  ∀ base n, 0 < n → n < all.count base → written base n ∉ all

/-- Slugs are distinct as long as no base is written like another one with a number. -/
theorem written_injOn_iff :
    (∀ p ∈ numbered [] all, ∀ q ∈ numbered [] all, written p.1 p.2 = written q.1 q.2 → p = q) ↔
      Apart all := by
  have hmem : ∀ base n, (base, n) ∈ numbered [] all ↔ n < all.count base := by
    intro base n
    rw [mem_numbered_iff, List.count_nil]
    omega
  constructor
  · intro h base n hpos hlt hbase
    have hzero : (written base n, 0) ∈ numbered [] all :=
      (hmem _ _).mpr (List.count_pos_iff.mpr hbase)
    have heq := h (base, n) ((hmem _ _).mpr hlt) (written base n, 0) hzero rfl
    exact absurd (congrArg Prod.snd heq) (Nat.ne_of_gt hpos)
  · rintro h ⟨base, n⟩ hp ⟨base', n'⟩ hq heq
    rw [hmem] at hp hq
    -- a base that stands for itself is among the bases
    have hself : ∀ {b : List Char}, 0 < all.count b → b ∈ all := List.count_pos_iff.mp
    cases n with
    | zero =>
      cases n' with
      | zero => exact Prod.ext heq rfl
      | succ n' => exact absurd (heq ▸ hself hp) (h base' (n' + 1) n'.succ_pos hq)
    | succ n =>
      cases n' with
      | zero => exact absurd (heq ▸ hself hq) (h base (n + 1) n.succ_pos hp)
      | succ n' =>
        obtain ⟨rfl, rfl⟩ := written_succ_inj.mp heq
        rfl

theorem nodup_slugs_iff (titles : List String) :
    (slugs {} titles).Nodup ↔ Apart (bases titles) := by
  rw [slugs_eq_map, List.nodup_map_iff_inj_on (nodup_numbered _ _), ← written_injOn_iff]
  simp only [String.ofList_inj]

end Slugger

/-! ## Lower case -/

namespace Text

variable {d : Char} {s : List Char}

/-- No capital letter has a lower case among the characters before the letters. -/
theorem notMem_lowerChar {c : Char} (hpos : 0 < d.toNat) (hlow : d.toNat < 97) (hc : d ≠ c) :
    d ∉ lowerChar c := by
  have htargets : ∀ r ∈ lowerRuns, 97 ≤ r.target := by decide +kernel
  have hne : ∀ n, 97 ≤ n → d ≠ Char.ofNat n := by
    rintro n hn rfl
    by_cases hvalid : n.isValidChar
    · have hchar : Char.ofNat n = Char.ofNatAux n hvalid := dif_pos hvalid
      rw [hchar] at hlow
      exact absurd hn (Nat.not_le.mpr hlow)
    · have hchar : Char.ofNat n = Char.ofNat 0 := dif_neg hvalid
      rw [hchar] at hpos
      exact absurd hpos (by decide)
  unfold lowerChar
  split
  · simp only [List.mem_cons, List.not_mem_nil, or_false, not_or]
    exact ⟨hne 105 (by omega), hne 0x307 (by omega)⟩
  · rw [List.mem_singleton]
    cases h : lowerRuns.findSome? (·.lower? c.toNat) with
    | none => exact hc
    | some n =>
      obtain ⟨r, hr, hn⟩ := List.exists_of_findSome?_eq_some h
      refine hne n ?_
      have htarget := htargets r hr
      unfold CaseRun.lower? at hn
      split at hn
      · cases hn
        omega
      · cases hn

theorem notMem_lower (hpos : 0 < d.toNat) (hlow : d.toNat < 97) (hs : d ∉ s) : d ∉ lower s := by
  have hafter : ∀ before, d ∉ lowerAfter before s := by
    induction s with
    | nil => exact fun _ ↦ List.not_mem_nil
    | cons c s ih =>
      intro before
      obtain ⟨hc, hs⟩ := List.ne_and_not_mem_of_not_mem_cons hs
      rw [lowerAfter, List.mem_append, not_or]
      refine ⟨?_, ih hs _⟩
      split
      · rw [List.mem_singleton]
        split
        · rintro rfl
          exact absurd hlow (by decide)
        · rintro rfl
          exact absurd hlow (by decide)
      · exact notMem_lowerChar hpos hlow hc
  exact hafter []

end Text

/-! ## Documents -/

/-- A slug has no hyphen if the title has neither a hyphen nor a space. -/
theorem hyphen_notMem_baseSlug {title : List Char} (hhyphen : '-' ∉ title) (hspace : ' ' ∉ title) :
    '-' ∉ baseSlug title := by
  rw [baseSlug, List.mem_map]
  rintro ⟨c, hc, heq⟩
  have hmem := (List.mem_filter.mp hc).1
  split at heq
  · next hblank =>
    subst hblank
    exact Text.notMem_lower (by decide) (by decide) hspace hmem
  · subst heq
    exact Text.notMem_lower (by decide) (by decide) hhyphen hmem

namespace Markdown

/-- The titles of the headings of a document. -/
def headings (f : Findings) : List String := (sections f.outline.root).map (·.title)

/-- The slugs that the index and the links of a document lead to, one for each heading. -/
def headingSlugs (f : Findings) : List String := Slugger.slugs {} (headings f)

/-- A document hands `headingSlugs` to its index and to the links between its sections. -/
theorem render_eq (file : String) (f : Findings) :
    render file f =
      let links := links (sections f.outline.root) (headingSlugs f)
      s!"# {documentTitle file (ownTags f.outline.root)}\n\n" ++
        renderTags links (ownTags f.outline.root) ++
        index (sections f.outline.root) (headingSlugs f) ++
        String.join ((sections f.outline.root).map (renderSection links)) := rfl

/-- A character that no name has in it is in no title, unless it is in what anonymous anchors are
called or joins names. -/
theorem notMem_title {d : Char} {a : Anchor} {outer : Option String}
    (hd : d ∉ ".(anonymous)".toList) (ha : d ∉ a.name.toList)
    (houter : ∀ o, outer = some o → d ∉ o.toList) : d ∉ (title outer a).toList := by
  unfold title
  generalize hname : (if a.name.isEmpty then "(anonymous)" else a.name) = name
  have hmem : d ∉ name.toList := by
    rw [← hname]
    split
    · exact fun hmem ↦ hd (List.mem_cons_of_mem _ hmem)
    · exact ha
  cases outer with
  | none => exact hmem
  | some o =>
    have hdot : d ≠ '.' := fun h ↦ hd (h ▸ List.mem_cons_self)
    have hlist : (s!"{o}.{name}").toList = o.toList ++ '.' :: name.toList := by simp [toString]
    dsimp only
    rw [hlist, List.mem_append, List.mem_cons, not_or, not_or]
    exact ⟨houter o rfl, hdot, hmem⟩

/-- A character that no name in a tree has in it is in none of the titles. -/
theorem notMem_title_of_mem {d : Char} (hd : d ∉ ".(anonymous)".toList) (n : Node)
    (hn : n.Bears (d ∉ ·.name.toList)) (outer : Option String) (depth : Nat)
    (houter : ∀ o, outer = some o → d ∉ o.toList) :
    ∀ s ∈ sectionsBelow outer depth n, d ∉ s.title.toList := by
  induction n using Node.induction generalizing outer depth with
  | h n ih =>
    have hchildren : ∀ cs : List Node, (∀ c ∈ cs, c ∈ n.children) →
        ∀ s ∈ sectionsOf outer depth cs, d ∉ s.title.toList := by
      intro cs hcs
      induction cs with
      | nil => exact List.forall_mem_nil _
      | cons c cs ihcs =>
        have hc : c ∈ n.children := hcs c List.mem_cons_self
        have hrest := ihcs fun m hm ↦ hcs m (List.mem_cons_of_mem _ hm)
        have hbears := (Node.bears_iff.mp hn).2 c hc
        rw [sectionsOf]
        cases ha : c.anchor with
        | none => exact hrest
        | some a =>
          have htitle := notMem_title hd ((Node.bears_iff.mp hbears).1 a ha) houter
          refine List.forall_mem_cons.mpr ⟨htitle, fun s hs ↦ ?_⟩
          rcases List.mem_append.mp hs with hs | hs
          · refine ih c hc hbears _ _ (fun o ho ↦ ?_) s hs
            exact Option.some.inj ho ▸ htitle
          · exact hrest s hs
    rw [sectionsBelow_eq]
    exact hchildren n.children fun c hc ↦ hc

/-- Where names have neither hyphens nor spaces in them, no title reads like a slug with a number. -/
theorem nodup_headingSlugs (s : Setup) (hhyphen : s.grammar.Foreign '-')
    (hspace : s.grammar.Foreign ' ') (source : List Char) :
    (headingSlugs (s.scan source)).Nodup := by
  have htitles : ∀ {d : Char}, s.grammar.Foreign d → d ∉ ".(anonymous)".toList →
      ∀ title ∈ headings (s.scan source), d ∉ title.toList := by
    intro d hd hother title htitle
    obtain ⟨heading, hheading, rfl⟩ := List.mem_map.mp htitle
    refine notMem_title_of_mem hother _ (fun m hm x hx ↦ ?_) none 0 (fun o ho ↦ by cases ho)
      heading hheading
    obtain ⟨text, enclosing, r, hr, hname⟩ := s.bears_recognised source m hm x hx
    rw [hname, String.toList_ofList]
    exact hd.notMem_recognise? hr
  refine (Slugger.nodup_slugs_iff _).mpr fun base n hpos _ hmem ↦ ?_
  obtain ⟨title, htitle, hbase⟩ := List.mem_map.mp hmem
  refine hyphen_notMem_baseSlug (htitles hhyphen (by decide) title htitle)
    (htitles hspace (by decide) title htitle) ?_
  cases n with
  | zero => cases hpos
  | succ n =>
    rw [hbase, Slugger.written]
    exact List.mem_append_right _ List.mem_cons_self

end Markdown

theorem Catalogue.foreign_of_mem_builtin {g : Grammar} (hg : g ∈ Catalogue.builtin.grammars) :
    g.Foreign '-' ∧ g.Foreign ' ' := by
  simp only [builtin, List.mem_cons, List.not_mem_nil, or_false] at hg
  rcases hg with rfl | rfl | rfl
  all_goals constructor <;> constructor <;> decide +kernel

namespace Slugger

/-- The slugs of titles are distinct, and so are those of the headings of a document, just when no
title reads like the slug of one that was met before. In a document of a text in JavaScript, Python
or Go, none does. -/
theorem nodup_slugs_and_headings (titles : List String) (f : Findings) (s : Setup)
    (source : List Char) :
    ((slugs {} titles).Nodup ↔ Apart (bases titles)) ∧
      ((Markdown.headingSlugs f).Nodup ↔ Apart (bases (Markdown.headings f))) ∧
      (s.grammar ∈ Catalogue.builtin.grammars → (Markdown.headingSlugs (s.scan source)).Nodup) := by
  refine ⟨nodup_slugs_iff titles, nodup_slugs_iff (Markdown.headings f), fun hs ↦ ?_⟩
  obtain ⟨hhyphen, hspace⟩ := Catalogue.foreign_of_mem_builtin hs
  exact Markdown.nodup_headingSlugs s hhyphen hspace source

/-- A number that is handed out is not taken note of, so a title that reads like it gets it, too. -/
theorem slugs_hand_out_twice :
    slugs {} ["run", "run", "run-1"] = ["run", "run-1", "run-1"] := by
  decide +kernel

end Slugger

end Marginalia
