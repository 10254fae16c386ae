import Marginalia.Proofs.Resolution
import Marginalia.Proofs.TagOrder
import Marginalia.Proofs.Tokens
import Mathlib.Data.List.Nodup

/-!
# Tags and what is reported of them

Beside the unattached tags, three kinds of diagnostics are about tags: of tags that are not
registered, of tags that stand more than once in their comment, and of arguments. They come from the
comments that a scan reads and from nowhere else, so that they can be counted comment by comment;
and the tags of these comments are the tags of the outline.
-/

namespace Marginalia

open scoped List

/-! ## The reports of one comment -/

namespace Comment

variable {registry : Registry}

/-- A comment has this tag, and one of the same name that starts before it. -/
def repeats (registry : Registry) (c : Comment) (t : Tag) : Bool :=
  let ts := (c.tags registry).map (·.tag)
  ts.contains t && ts.any fun u ↦ u.name = t.name && u.span.start.offset < t.span.start.offset

/-- What is reported of the tags of a comment. -/
def notes (registry : Registry) (c : Comment) : List Diagnostic :=
  (c.tags registry).flatMap (·.diagnostics)

end Comment

namespace TagLines

variable {registry : Registry} {t : TagLines}

/-- What is reported of a tag by itself, told apart by kind. -/
theorem filter_parse_diagnostics (registry : Registry) (t : TagLines) (k : DiagnosticKind)
    (hk : k ≠ .malformedArgument) :
    (t.parse registry).diagnostics.filter (·.kind = k) =
      if (registry.get? (t.parse registry).tag.name).isNone ∧ k = .unknownTag then [t.unknown]
      else [] := by
  obtain ⟨ds, hds, heq⟩ := t.parse_diagnostics registry
  have hnone : ds.filter (·.kind = k) = [] := by
    refine List.filter_eq_nil_iff.mpr fun d hd ↦ ?_
    simp [(hds d hd).2, hk.symm]
  rw [heq, List.filter_append, hnone, List.append_nil]
  by_cases hunknown : k = .unknownTag
  · cases hget : registry.get? (t.parse registry).tag.name <;>
      simp [hunknown, unknown]
  · have hne : ¬ DiagnosticKind.unknownTag = k := fun h ↦ hunknown h.symm
    cases hget : registry.get? (t.parse registry).tag.name <;>
      simp [hunknown, hne, unknown]

end TagLines

namespace Comment

variable {registry : Registry}

/-- The first of some tags: it is reported if it is a repetition, and otherwise its name is noted if
it may stand only once. -/
theorem tagsAfter_cons (registry : Registry) (seen : List String) (t : TagLines)
    (ts : List TagLines) :
    let p := t.parse registry
    let once := isOnce registry p.tag
    let known := seen.contains p.tag.name
    tagsAfter registry seen (t :: ts) =
      { p with diagnostics := p.diagnostics ++ if once && known then [duplicate p.tag] else [] } ::
        tagsAfter registry (if once && !known then p.tag.name :: seen else seen) ts := by
  intro p once known
  have honce : isOnce registry (t.parse registry).tag = once := rfl
  have hknown : seen.contains (t.parse registry).tag.name = known := rfl
  rw [tagsAfter, honce, hknown]
  cases once <;> cases known <;> simp [p]

/-- What is reported of tags, repetitions apart, is reported of each by itself. -/
theorem filter_tagsAfter (seen : List String) (ts : List TagLines) {k : DiagnosticKind}
    (hk : k ≠ .duplicateTag) :
    ((tagsAfter registry seen ts).flatMap (·.diagnostics)).filter (·.kind = k) =
      ts.flatMap fun t ↦ (t.parse registry).diagnostics.filter (·.kind = k) := by
  have hdup : ∀ (t : Tag) (repeated : Bool),
      (if repeated then [duplicate t] else []).filter (·.kind = k) = [] := by
    intro t repeated
    cases repeated <;> simp [duplicate, hk.symm]
  induction ts generalizing seen with
  | nil => rfl
  | cons t ts ih =>
    rw [tagsAfter_cons]
    simp only [List.flatMap_cons, List.filter_append, hdup, List.append_nil, ih]

/-- The tags of a comment that are not registered are reported where they start. -/
theorem unknown_notes (registry : Registry) (c : Comment) :
    ((c.notes registry).filter (·.kind = .unknownTag)).map (·.span.start) =
      (((c.tags registry).map (·.tag)).filter
        fun t ↦ (registry.get? t.name).isNone).map (·.span.start) := by
  rw [notes, tags, filter_tagsAfter _ _ (by decide), map_tag_tagsAfter]
  induction TagLines.ofLines 0 c.lines with
  | nil => rfl
  | cons t ts ih =>
    rw [List.flatMap_cons, List.map_append, ih, t.filter_parse_diagnostics registry _ (by decide),
      List.map_cons, List.filter_cons]
    cases registry.get? (t.parse registry).tag.name with
    | none => rfl
    | some d => rfl

/-- The names noted so far, after one more tag. -/
theorem mem_seen_iff {seen : List String} {front : List Tag} {u : Tag}
    (hseen : ∀ t, isOnce registry t = true → (t.name ∈ seen ↔ ∃ v ∈ front, v.name = t.name)) :
    ∀ t, isOnce registry t = true →
      (t.name ∈ (if isOnce registry u && !seen.contains u.name then u.name :: seen else seen) ↔
        ∃ v ∈ front ++ [u], v.name = t.name) := by
  intro t ht
  have hlast : (∃ v ∈ front ++ [u], v.name = t.name) ↔ t.name ∈ seen ∨ u.name = t.name := by
    rw [hseen t ht]
    simp [or_and_right, exists_or]
  rw [hlast]
  by_cases hname : u.name = t.name
  · have honce : isOnce registry u = true := by
      rw [isOnce, hname]
      exact ht
    by_cases hknown : t.name ∈ seen <;> simp [honce, hname, hknown]
  · split
    · simp [hname, eq_comm (a := t.name)]
    · simp [hname]

/-- Where tags are in order, the tags that start before one of them are those in front of it. -/
theorem any_named_before {front later : List Tag} {u : Tag}
    (hordered : (front ++ [u] ++ later).Pairwise Tag.Before) :
    ((front ++ [u] ++ later).any fun v ↦
        v.name = u.name && v.span.start.offset < u.span.start.offset) = true ↔
      ∃ v ∈ front, v.name = u.name := by
  obtain ⟨hfront, -, hbehind⟩ := List.pairwise_append.mp hordered
  obtain ⟨-, -, hbefore⟩ := List.pairwise_append.mp hfront
  rw [List.any_eq_true]
  constructor
  · rintro ⟨v, hv, hvu⟩
    obtain ⟨hname, hlt⟩ : v.name = u.name ∧ v.span.start.offset < u.span.start.offset := by
      simpa using hvu
    rw [List.mem_append, List.mem_append] at hv
    rcases hv with (hv | hv) | hv
    · exact ⟨v, hv, hname⟩
    · rw [List.mem_singleton.mp hv] at hlt
      exact absurd hlt (Nat.lt_irrefl _)
    · have hlater : u.span.start.offset < v.span.start.offset :=
        hbehind u (List.mem_append_right _ (List.mem_singleton_self u)) v hv
      omega
  · rintro ⟨v, hv, hname⟩
    have hlt : v.span.start.offset < u.span.start.offset :=
      hbefore v hv u (List.mem_singleton_self u)
    exact ⟨v, List.mem_append_left _ (List.mem_append_left _ hv), by simp [hname, hlt]⟩

/-- A tag that may stand only once is reported if one of its name has come before it. -/
theorem duplicate_tagsAfter (ts : List TagLines) (seen : List String) (front : List Tag)
    (hordered : (front ++ ts.map fun t ↦ (t.parse registry).tag).Pairwise Tag.Before)
    (hseen : ∀ t, isOnce registry t = true → (t.name ∈ seen ↔ ∃ v ∈ front, v.name = t.name)) :
    (((tagsAfter registry seen ts).flatMap (·.diagnostics)).filter
        (·.kind = .duplicateTag)).map (·.span) =
      ((ts.map fun t ↦ (t.parse registry).tag).filter fun t ↦ isOnce registry t &&
        (front ++ ts.map fun t ↦ (t.parse registry).tag).any fun u ↦
          u.name = t.name && u.span.start.offset < t.span.start.offset).map (·.span) := by
  induction ts generalizing seen front with
  | nil => rfl
  | cons t ts ih =>
    rw [List.map_cons, List.append_cons] at hordered ⊢
    have hrest := ih _ _ hordered (mem_seen_iff (u := (t.parse registry).tag) hseen)
    generalize hu : (t.parse registry).tag = u at hordered hrest ⊢
    have hany : isOnce registry u = true →
        ((front ++ [u] ++ ts.map fun t ↦ (t.parse registry).tag).any fun v ↦
          v.name = u.name && v.span.start.offset < u.span.start.offset) =
            seen.contains u.name := by
      intro honce
      rw [Bool.eq_iff_iff, any_named_before hordered, List.contains_iff_mem, hseen u honce]
    have hself : (t.parse registry).diagnostics.filter (·.kind = .duplicateTag) = [] := by
      rw [t.filter_parse_diagnostics registry _ (by decide)]
      simp
    rw [tagsAfter_cons]
    simp only [hu, List.flatMap_cons, List.filter_append, hself, List.nil_append, List.map_append,
      hrest]
    rw [List.filter_cons]
    cases honce : isOnce registry u with
    | false => simp
    | true =>
      rw [hany honce]
      cases seen.contains u.name <;> simp [duplicate]

/-- The tags of a comment that may stand only once and do not are reported, the first one apart. -/
theorem duplicate_notes {c : Comment} (h : c.lines.Pairwise CommentLine.Before) :
    ((c.notes registry).filter (·.kind = .duplicateTag)).map (·.span) =
      (((c.tags registry).map (·.tag)).filter fun t ↦
        isOnce registry t && c.repeats registry t).map (·.span) := by
  have hordered := pairwise_tags h registry
  have hdup := @duplicate_tagsAfter registry (TagLines.ofLines 0 c.lines) [] []
    (by rwa [tags, map_tag_tagsAfter] at hordered) (by simp)
  rw [notes, tags, hdup, List.nil_append, ← map_tag_tagsAfter registry []]
  congr 1
  refine List.filter_congr fun t ht ↦ ?_
  rw [repeats, tags, List.contains_iff_mem.mpr ht, Bool.true_and]

end Comment

/-! ## The reports of a scan -/

namespace Pass

variable {s : Setup} {g : Grammar} {source : List Char} {p q r : Pass}

/-- What one pass has reported beyond another is about mending the code. -/
def Mends (p q : Pass) : Prop :=
  ∃ ds, (∀ d ∈ ds, d.kind.isRecovery = true) ∧ q.diagnostics = p.diagnostics ++ ds

theorem Mends.of_eq (h : q.diagnostics = p.diagnostics) : Mends p q :=
  ⟨[], by simp, by rw [h, List.append_nil]⟩

theorem Mends.trans (h : Mends p q) (h' : Mends q r) : Mends p r := by
  obtain ⟨ds, hds, hq⟩ := h
  obtain ⟨es, hes, hr⟩ := h'
  refine ⟨ds ++ es, fun d hd ↦ ?_, by rw [hr, hq, List.append_assoc]⟩
  rcases List.mem_append.mp hd with hd | hd
  · exact hds d hd
  · exact hes d hd

theorem mends_literal (p : Pass) (g : Grammar) (i : Nat) : Mends p (p.literal g i) := by
  rw [literal_eq]
  refine ⟨p.literalNotes (g.delimiter i), fun d hd ↦ ?_, rfl⟩
  rw [(of_mem_literalNotes hd).1]
  rfl

theorem isRecovery_unwindNotes (g : Grammar) (stop : Position) (closer : Option (List Char))
    (cs : List Context) :
    ∀ d ∈ cs.flatMap (Context.unwindNotes g stop closer), d.kind.isRecovery = true := by
  intro d hd
  obtain ⟨c, -, hd⟩ := List.mem_flatMap.mp hd
  rcases (Context.of_mem_unwindNotes hd).1 with hkind | hkind
  · rw [hkind]; rfl
  · rw [hkind]; rfl

theorem isRecovery_tooDeepNotes (p : Pass) (first : Bool) (opened : Position) :
    ∀ d ∈ p.tooDeepNotes first opened, d.kind.isRecovery = true := by
  intro d hd
  rw [(of_mem_tooDeepNotes hd).1]
  rfl

theorem mends_closeBlock (p : Pass) (g : Grammar) (i : Nat) : Mends p (p.closeBlock g i) := by
  rcases p.closeBlock_cases g i with ⟨-, h⟩ | ⟨-, -, h⟩ | ⟨-, inner, closed, outer, -, -, -, h⟩
  · rw [h]
    exact .of_eq rfl
  · rw [h, strayClose_eq]
    refine ⟨[(p.send [.bracketClosed i p.cursor.position]).strayNote (g.pair i).closer],
      fun d hd ↦ ?_, rfl⟩
    rw [List.mem_singleton.mp hd]
    rfl
  · rw [h, closeThrough_eq]
    exact ⟨_, isRecovery_unwindNotes g _ _ _, rfl⟩

theorem mends_openBlock (p : Pass) (g : Grammar) (i : Nat) : Mends p (p.openBlock g i) := by
  cases ho : p.nesting.opening with
  | overflowed first =>
    rw [openBlock_of_overflowed ho]
    exact ⟨_, p.isRecovery_tooDeepNotes first _, rfl⟩
  | entered =>
    cases hb : p.opensBody g i with
    | false =>
      rw [openBlock_of_block ho i hb]
      exact .of_eq rfl
    | true =>
      rw [openBlock_of_body ho i hb]
      exact .of_eq rfl

theorem mends_openIndentBody (p : Pass) (opener : List Char) :
    Mends p (p.openIndentBody opener) := by
  rcases p.openIndentBody_cases opener with ⟨ds, h, rfl | ⟨first, rfl⟩⟩ | ⟨pending, -, -, -, h⟩
  · rw [h]
    exact .of_eq (by simp [note, consume])
  · rw [h]
    exact ⟨_, p.isRecovery_tooDeepNotes first _, rfl⟩
  · rw [h]
    exact .of_eq rfl

theorem mends_take (p : Pass) (g : Grammar) (t : Token) : Mends p (p.take g t) := by
  cases t with
  | newline => exact .of_eq (by rw [take, afterNewline_eq]; rfl)
  | literal i => exact Mends.trans (.of_eq rfl) (mends_literal _ g i)
  | closer i => exact mends_closeBlock p g i
  | opener i => exact mends_openBlock p g i
  | indentation opener => exact mends_openIndentBody p opener
  | separator text => exact .of_eq (by rw [take, separator, cancelBody_eq]; rfl)
  | plain => exact .of_eq (by rw [take, cancelBody_eq])
  | blank | comment form | regex text | anchor r | inner => exact .of_eq rfl

theorem mends_atToken (p : Pass) (g : Grammar) : Mends p (p.atToken g) :=
  .of_eq (p.atToken_diagnostics g)

theorem Skips.mends (h : p.Skips s q) : Mends p q := by
  cases h with
  | literal peek goesOn found => exact (mends_literal p s.grammar _).trans (.of_eq rfl)
  | regex | blank | char => exact .of_eq rfl

theorem mends_skip (p : Pass) (s : Setup) : Mends p (p.skip s) := by
  obtain ⟨q, hq, hskip⟩ := skip_induction (P := Mends p) s (.of_eq rfl) fun q r hpq hqr ↦
    hpq.trans hqr.mends
  rw [hskip]
  exact hq.trans (.of_eq rfl)

theorem mends_readComment (p : Pass) (g : Grammar) (form : CommentForm) :
    Mends p (p.readComment g form) := by
  cases form with
  | line i =>
    obtain ⟨_, _, _, h, -⟩ := p.readComment_line_eq g i
    rw [h]
    exact .of_eq rfl
  | block i =>
    rw [readComment, blockComment_eq]
    refine ⟨p.blockNotes (g.blockComment i).1 (g.blockComment i).2, fun d hd ↦ ?_, rfl⟩
    rw [(of_mem_blockNotes hd).1]
    rfl

/-- A step reports what is to be reported of the comment that has just been read; whatever else it
reports is about mending the code. -/
theorem step_reports {k : DiagnosticKind} (hk : k.isRecovery = false) (h : step s p = some q) :
    q.diagnostics.filter (·.kind = k) = p.diagnostics.filter (·.kind = k) ++
      p.read?.toList.flatMap fun c ↦ (c.notes s.registry).filter (·.kind = k) := by
  have hmends : ∀ {q : Pass}, Mends p q →
      q.diagnostics.filter (·.kind = k) = p.diagnostics.filter (·.kind = k) := by
    rintro q ⟨ds, hds, hq⟩
    have hnone : ds.filter (·.kind = k) = [] := by
      refine List.filter_eq_nil_iff.mpr fun d hd hdk ↦ ?_
      rw [← of_decide_eq_true hdk, hds d hd] at hk
      cases hk
    rw [hq, List.filter_append, hnone, List.append_nil]
  cases step_eq_some_iff.mp h with
  | comment mode => simp [read?, mode, hmends (mends_readComment p s.grammar _)]
  | tags mode =>
    rw [placeTags_eq]
    simp [read?, mode, note, send, Comment.notes]
  | newline mode peek => simp [read?, mode, hmends (mends_take p s.grammar .newline)]
  | blank mode peek inline blank => simp [read?, mode, hmends (mends_take p s.grammar .blank)]
  | token mode peek blank ahead =>
    rename_i c t
    have htake := (mends_atToken p s.grammar).trans (mends_take (p.atToken s.grammar) s.grammar t)
    have hend : Mends p ((p.atToken s.grammar).take s.grammar t).markEnd := htake.trans (.of_eq rfl)
    simp [read?, mode, hmends hend]
  | skip mode peek => simp [read?, mode, hmends (mends_skip p s)]

/-- A run ends where no comment is left to be placed. -/
theorem read?_run (s : Setup) (source : List Char) : (run s (start s source)).read? = none := by
  have hend := step_run (atComment_start s source)
  rcases (ahead_eq_nil_of_step_eq_none hend).2 with h | h <;> rw [read?, h]

end Pass

namespace Setup

variable (s : Setup) (source : List Char)

/-- The tags that a scan sends to the outline are those of the comments that it reads. -/
theorem flatMap_tags_events :
    (s.events source).flatMap Event.tags = Pass.parsedTags s.registry (s.commentsRead source) := by
  have hrun : (Pass.run s (Pass.start s source)).events.flatMap Event.tags =
      Pass.parsedTags s.registry (s.commentsRead source) :=
    Pass.flatMap_tags_iterate (4 * (source.length + 1)) (Pass.start s source) (Pass.read?_run s source)
  rw [events_eq, List.flatMap_append, Pass.flatMap_tags_leaving, List.append_nil, hrun]

/-- The tags of comments are not attached. -/
theorem resolved_of_mem_parsedTags {t : Tag}
    (h : t ∈ Pass.parsedTags s.registry (s.commentsRead source)) : t.resolved = false := by
  obtain ⟨c, -, ht⟩ := List.mem_flatMap.mp h
  obtain ⟨u, hu, rfl⟩ := List.mem_map.mp ht
  obtain ⟨v, -, htag, -⟩ := Comment.mem_tagsAfter hu
  rw [htag]
  rfl

/-- What a scan reports of one kind that is not about mending the code. -/
theorem filter_kind_run {k : DiagnosticKind} (hk : k.isRecovery = false) :
    (Pass.run s (Pass.start s source)).diagnostics.filter (·.kind = k) =
      (s.commentsRead source).flatMap fun c ↦ (c.notes s.registry).filter (·.kind = k) :=
  Pass.gathered_iterate (fun p ↦ p.diagnostics.filter (·.kind = k)) _
    (fun _ _ h ↦ Pass.step_reports hk h) _ _ (Pass.read?_run s source)

/-- The comments that a scan reads have their lines one behind the other. -/
theorem pairwise_lines_of_mem_commentsRead {c : Comment} (h : c ∈ s.commentsRead source) :
    c.lines.Pairwise CommentLine.Before := by
  obtain ⟨p, hp, hread⟩ := List.mem_filterMap.mp h
  refine (Pass.pairwise_tags_of_reaches (reaches_of_mem_visited hp)).2 c ?_
  unfold Pass.read? at hread
  split at hread <;> cases hread
  assumption

/-- A tag that a scan parses stands in one comment only. -/
theorem eq_of_mem_tags {c d : Comment} {t : Tag} (hc : c ∈ s.commentsRead source)
    (hd : d ∈ s.commentsRead source) (htc : t ∈ (c.tags s.registry).map (·.tag))
    (htd : t ∈ (d.tags s.registry).map (·.tag)) : c = d := by
  have hordered := s.pairwise_tags_events source
  rw [flatMap_tags_events] at hordered
  have hnodup : (Pass.parsedTags s.registry (s.commentsRead source)).Nodup := by
    rw [List.nodup_iff_pairwise_ne]
    refine hordered.imp fun {t u} htu heq ↦ ?_
    rw [heq] at htu
    exact Nat.lt_irrefl _ htu
  by_contra hne
  have hdisjoint := (List.nodup_flatMap.mp hnodup).2
  have : Std.Symm (Function.onFun List.Disjoint
      fun c : Comment ↦ (c.tags s.registry).map (·.tag)) := ⟨fun _ _ h _ ht ht' ↦ h ht' ht⟩
  exact hdisjoint.forall hc hd hne htc htd

/-- The findings of a scan that are of one kind, and not about mending the code. -/
theorem filter_kind_scan {k : DiagnosticKind} (hk : k.isRecovery = false) :
    (s.scan source).diagnostics.filter (·.kind = k) ~
      (((Assembly.start source s.options.maxBlankLines).replay (s.events source)).finish
        (Position.start.after source)).diagnostics.filter (·.kind = k) ++
      (s.commentsRead source).flatMap fun c ↦ (c.notes s.registry).filter (·.kind = k) := by
  have hunwind : ∀ (stop : Position) (cs : List Context),
      (cs.flatMap (Context.unwindNotes s.grammar stop none)).filter (·.kind = k) = [] := by
    intro stop cs
    refine List.filter_eq_nil_iff.mpr fun d hd hdk ↦ ?_
    rw [← of_decide_eq_true hdk, Pass.isRecovery_unwindNotes s.grammar stop none cs d hd] at hk
    cases hk
  rw [scan_eq]
  refine ((List.mergeSort_perm _ _).filter _).trans ?_
  rw [List.filter_append, List.filter_append, hunwind, List.append_nil, s.filter_kind_run source hk]

/-- What the outline reports is about unattached tags. -/
theorem filter_kind_finish (k : DiagnosticKind) :
    let found := ((Assembly.start source s.options.maxBlankLines).replay (s.events source)).finish
      (Position.start.after source)
    found.diagnostics.filter (·.kind = k) = if k = .unresolvedTag then found.diagnostics else [] := by
  intro found
  have hkind : ∀ d ∈ found.diagnostics, d.kind = .unresolvedTag :=
    fun d hd ↦ (Assembly.about_finish _ _ _ _ d hd).1
  split
  · rename_i hk
    rw [List.filter_eq_self]
    intro d hd
    rw [hkind d hd, hk]
    rfl
  · rename_i hk
    rw [List.filter_eq_nil_iff]
    intro d hd hdk
    rw [hkind d hd] at hdk
    exact hk (of_decide_eq_true hdk).symm

/-- The tags of an outline that satisfy a condition on the tags as they were parsed. -/
theorem filter_tags_scan {β : Type} (condition : Tag → Bool) (view : Tag → β)
    (hcondition : ∀ t, condition t = condition t.plain) (hview : ∀ t, view t = view t.plain) :
    (((s.scan source).outline.root.allTags ++ (s.scan source).outline.unresolved).filter
        condition).map view ~
      ((Pass.parsedTags s.registry (s.commentsRead source)).filter condition).map view := by
  have hplain : ∀ ts : List Tag,
      (ts.filter condition).map view = ((ts.map Tag.plain).filter condition).map view := by
    intro ts
    rw [List.filter_map, List.map_map]
    simp only [Function.comp_def, ← hcondition, ← hview]
  have hperm := Assembly.perm_tags_replay_finish source s.options.maxBlankLines (s.events source)
    (Position.start.after source)
  rw [flatMap_tags_events] at hperm
  rw [hplain, hplain (Pass.parsedTags _ _), scan_eq]
  exact (hperm.filter _).map _

/-- The outline of a scan accounts for its tags. -/
theorem accounted_scan :
    let found := ((Assembly.start source s.options.maxBlankLines).replay (s.events source)).finish
      (Position.start.after source)
    (∀ x ∈ found.outline.seated, Seat.Fair x) ∧
      found.diagnostics.map (·.span) ~ (unattached found.outline.seated).map (·.span) := by
  have hstart : (Assembly.start source s.options.maxBlankLines).Accounted :=
    ⟨fun w hw ↦ (by cases hw), fun x hx ↦ (by cases hx), .refl _⟩
  refine (hstart.replay fun e he t ht ↦ ?_).finish _
  refine s.resolved_of_mem_parsedTags source ?_
  rw [← flatMap_tags_events]
  exact List.mem_flatMap.mpr ⟨e, he, ht⟩

/-- The tags that are not attached are reported as such. -/
theorem unresolved_scan :
    ((s.scan source).diagnostics.filter (·.kind = .unresolvedTag)).map (·.span) ~
      (((s.scan source).outline.root.allTags ++ (s.scan source).outline.unresolved).filter
        (·.resolved = false)).map (·.span) := by
  have hnotes : ((s.commentsRead source).flatMap fun c ↦
      (c.notes s.registry).filter (·.kind = .unresolvedTag)) = [] := by
    refine List.flatMap_eq_nil_iff.mpr fun c _ ↦ ?_
    rw [Comment.notes, Comment.tags, Comment.filter_tagsAfter _ _ (by decide)]
    refine List.flatMap_eq_nil_iff.mpr fun t _ ↦ ?_
    rw [t.filter_parse_diagnostics s.registry _ (by decide)]
    simp
  have hkind := (s.filter_kind_scan source (k := .unresolvedTag) rfl).map (·.span)
  rw [hnotes, List.append_nil, filter_kind_finish, if_pos rfl] at hkind
  refine (hkind.trans (s.accounted_scan source).2).trans ?_
  rw [unattached, Outline.map_seated, scan_eq]
  refine .of_eq (congrArg _ (List.filter_congr fun t _ ↦ ?_))
  cases t.resolved <;> rfl

/-- A tag of an outline is attached unless it is for the next anchor and no anchor has it. -/
theorem fair_scan :
    (∀ v ∈ (s.scan source).outline.root.walk, ∀ t ∈ v.node.tags,
      (t.resolved = false ↔ t.placement = .nextAnchor ∧ v.node.anchor = none)) ∧
    ∀ t ∈ (s.scan source).outline.unresolved,
      t.resolved = false ∧ t.placement = .nextAnchor := by
  have hfair := (s.accounted_scan source).1
  rw [scan_eq]
  generalize (((Assembly.start source s.options.maxBlankLines).replay (s.events source)).finish
    (Position.start.after source)).outline = o at hfair ⊢
  refine ⟨fun v hv t ht ↦ ?_, fun t ht ↦ ?_⟩
  · have hnode : v.node ∈ o.root.nodes := List.mem_map_of_mem hv
    rw [Node.nodes_eq, List.mem_cons] at hnode
    rcases hnode with hroot | hnode
    · rw [hroot] at ht
      have hseat : (Seat.root, t) ∈ o.seated :=
        List.mem_append_left _ (List.mem_append_left _ (List.mem_map_of_mem ht))
      have hnext := (hfair _ hseat).root rfl
      refine ⟨fun h ↦ absurd ((hfair _ hseat).resolved.mp h).1 hnext, fun h ↦ absurd h.1 hnext⟩
    · have hseat : (Seat.node v.node.anchor, t) ∈ o.seated := by
        obtain ⟨c, hc, hvc⟩ := List.mem_flatMap.mp hnode
        refine List.mem_append_left _ (List.mem_append_right _ (List.mem_flatMap.mpr ⟨c, hc, ?_⟩))
        exact List.mem_flatMap.mpr ⟨v.node, hvc, List.mem_map_of_mem ht⟩
      have hresolved := (hfair _ hseat).resolved
      simpa using hresolved
  · have hseat : (Seat.unresolved, t) ∈ o.seated :=
      List.mem_append_right _ (List.mem_map_of_mem ht)
    have hnext := (hfair _ hseat).unresolved rfl
    exact ⟨(hfair _ hseat).resolved.mpr ⟨hnext, .inr rfl⟩, hnext⟩

/-- The tags that are not registered are reported where they start. -/
theorem unknown_scan :
    ((s.scan source).diagnostics.filter (·.kind = .unknownTag)).map (·.span.start) ~
      (((s.scan source).outline.root.allTags ++ (s.scan source).outline.unresolved).filter
        fun t ↦ s.registry.get? t.name = none).map (·.span.start) := by
  have hkind := (s.filter_kind_scan source (k := .unknownTag) rfl).map (·.span.start)
  have htags := s.filter_tags_scan source (fun t ↦ s.registry.get? t.name = none) (·.span.start)
    (fun _ ↦ rfl) (fun _ ↦ rfl)
  rw [filter_kind_finish, if_neg (by decide), List.nil_append] at hkind
  refine hkind.trans (.trans (.of_eq ?_) htags.symm)
  rw [Pass.parsedTags, List.filter_flatMap, List.map_flatMap, List.map_flatMap]
  refine List.flatMap_congr fun c _ ↦ ?_
  rw [Comment.unknown_notes]
  refine congrArg _ (List.filter_congr fun t _ ↦ ?_)
  cases s.registry.get? t.name <;> rfl

/-- Of the tags that may stand only once, those are reported that repeat an earlier one of their
comment. -/
theorem duplicate_scan :
    ((s.scan source).diagnostics.filter (·.kind = .duplicateTag)).map (·.span) ~
      (((s.scan source).outline.root.allTags ++ (s.scan source).outline.unresolved).filter
        fun t ↦ Comment.isOnce s.registry t &&
          (s.commentsRead source).any (·.repeats s.registry t.plain)).map (·.span) := by
  have hkind := (s.filter_kind_scan source (k := .duplicateTag) rfl).map (·.span)
  have htags := s.filter_tags_scan source (fun t ↦ Comment.isOnce s.registry t &&
    (s.commentsRead source).any (·.repeats s.registry t.plain)) (·.span)
    (fun _ ↦ rfl) (fun _ ↦ rfl)
  rw [filter_kind_finish, if_neg (by decide), List.nil_append] at hkind
  refine hkind.trans (.trans (.of_eq ?_) htags.symm)
  rw [Pass.parsedTags, List.filter_flatMap, List.map_flatMap, List.map_flatMap]
  refine List.flatMap_congr fun c hc ↦ ?_
  rw [Comment.duplicate_notes (s.pairwise_lines_of_mem_commentsRead source hc)]
  refine congrArg _ (List.filter_congr fun t ht ↦ ?_)
  have hplain : t.plain = t := by
    have hresolved := s.resolved_of_mem_parsedTags source (List.mem_flatMap.mpr ⟨c, hc, ht⟩)
    cases t
    cases hresolved
    rfl
  -- the tag stands in no other comment
  have hany : (s.commentsRead source).any (·.repeats s.registry t.plain) =
      c.repeats s.registry t := by
    rw [hplain, Bool.eq_iff_iff, List.any_eq_true]
    refine ⟨?_, fun h ↦ ⟨c, hc, h⟩⟩
    rintro ⟨d, hd, hrep⟩
    have htd : t ∈ (d.tags s.registry).map (·.tag) :=
      List.contains_iff_mem.mp (Bool.and_eq_true_iff.mp hrep).1
    rwa [s.eq_of_mem_tags source hc hd ht htd]
  rw [hany]

end Setup

/-- What a scan reports of tags accounts for them. The tags that are not attached are those that are
reported as such; they are the tags for the next anchor that have been given up or sit on a node
without an anchor. The tags that are not registered are reported where they start. And of the tags
that may stand only once, those are reported that repeat an earlier one of their comment. -/
theorem scan_accounts_for_tags (s : Setup) (source : List Char) :
    let found := s.scan source
    let tags := found.outline.root.allTags ++ found.outline.unresolved
    ((found.diagnostics.filter (·.kind = .unresolvedTag)).map (·.span) ~
      (tags.filter (·.resolved = false)).map (·.span)) ∧
    ((∀ v ∈ found.outline.root.walk, ∀ t ∈ v.node.tags,
        (t.resolved = false ↔ t.placement = .nextAnchor ∧ v.node.anchor = none)) ∧
      ∀ t ∈ found.outline.unresolved, t.resolved = false ∧ t.placement = .nextAnchor) ∧
    ((found.diagnostics.filter (·.kind = .unknownTag)).map (·.span.start) ~
      (tags.filter fun t ↦ s.registry.get? t.name = none).map (·.span.start)) ∧
    ((found.diagnostics.filter (·.kind = .duplicateTag)).map (·.span) ~
      (tags.filter fun t ↦ Comment.isOnce s.registry t &&
        (s.commentsRead source).any (·.repeats s.registry t.plain)).map (·.span)) := by
  intro found tags
  exact ⟨s.unresolved_scan source, s.fair_scan source, s.unknown_scan source, s.duplicate_scan source⟩

end Marginalia
