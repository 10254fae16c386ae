import Marginalia.Proofs.TagBlind
import Marginalia.Proofs.TagReports

/-!
# Letting anchors be further away

The number of blank lines that may lie between a comment and its anchor decides nothing but whether
an anchor takes the tags that wait for it. Whatever it decides, they stop waiting. So two scans that
differ in it send the same events, the same tags wait all along, and those that are given up are the
same. What is reported by the scan that allows more is what the other one reports, less the tags
that an anchor has taken after all.
-/

namespace Marginalia

open scoped List

namespace Assembly

variable {a b : Assembly}

/-- `b` may let anchors be further away than `a`, and has reported no more; the tags that wait and
those that are given up are the same. -/
structure Laxer (a b : Assembly) : Prop where
  source : b.source = a.source
  tolerance : a.maxBlankLines ≤ b.maxBlankLines
  waiting : b.waiting = a.waiting
  unresolved : b.unresolved = a.unresolved
  diagnostics : b.diagnostics <+ a.diagnostics

namespace Laxer

/-- What happens to the nodes does not matter. -/
theorem mapTop (h : Laxer a b) (f f' : Node → Node) : Laxer (a.mapTop f) (b.mapTop f') := by
  constructor <;> simp [h.source, h.tolerance, h.waiting, h.unresolved, h.diagnostics]

theorem report (h : Laxer a b) (ts : List Tag) (why : String) :
    Laxer (a.report ts why) (b.report ts why) :=
  ⟨h.source, h.tolerance, h.waiting, h.unresolved, h.diagnostics.append_right _⟩

theorem fallBack (h : Laxer a b) (w : Waiting) (why : String) :
    Laxer (a.fallBack w why) (b.fallBack w why) :=
  (h.report w.tags why).mapTop _ _

/-- The stricter one reports tags that the other has attached. -/
theorem fallBack_left (h : Laxer a b) (w : Waiting) (why : String) :
    Laxer (a.fallBack w why) b := by
  have hreport : Laxer (a.report w.tags why) b :=
    ⟨h.source, h.tolerance, h.waiting, h.unresolved,
      h.diagnostics.trans (List.sublist_append_left _ _)⟩
  unfold Assembly.fallBack
  constructor <;> simp [hreport.source, hreport.tolerance, hreport.waiting, hreport.unresolved,
    hreport.diagnostics]

theorem giveUp (h : Laxer a b) (w : Waiting) (why : String) :
    Laxer (a.giveUp w why) (b.giveUp w why) :=
  ⟨h.source, h.tolerance, h.waiting, congrArg (· ++ w.tags) h.unresolved,
    h.diagnostics.append_right _⟩

theorem waitingAt? (h : Laxer a b) (depth : Nat) : b.waitingAt? depth = a.waitingAt? depth := by
  rw [Assembly.waitingAt?, Assembly.waitingAt?, h.waiting]

theorem setWaiting (h : Laxer a b) (ws : List Waiting) :
    Laxer { a with waiting := ws } { b with waiting := ws } :=
  ⟨h.source, h.tolerance, rfl, h.unresolved, h.diagnostics⟩

theorem dropWaiting (h : Laxer a b) : Laxer a.dropWaiting b.dropWaiting :=
  ⟨h.source, h.tolerance, congrArg List.tail h.waiting, h.unresolved, h.diagnostics⟩

theorem addAnchor (h : Laxer a b) (n n' : Node) : Laxer (a.addAnchor n) (b.addAnchor n') := by
  have hinsert := h.mapTop (·.insert n) (·.insert n')
  exact ⟨hinsert.source, hinsert.tolerance, hinsert.waiting, hinsert.unresolved,
    hinsert.diagnostics⟩

/-! ## Events -/

theorem comment (h : Laxer a b) (tags : List Tag) (span : Span) (depth : Nat) :
    Laxer (a.comment tags span depth) (b.comment tags span depth) := by
  have hawait : Laxer ((a.attachEnclosing tags).awaitAnchor tags span depth)
      ((b.attachEnclosing tags).awaitAnchor tags span depth) := by
    have hown : Laxer (a.attachEnclosing tags) (b.attachEnclosing tags) := by
      unfold Assembly.attachEnclosing
      exact h.mapTop _ _
    have hpush : ∀ {a b : Assembly} (w : Waiting), Laxer a b →
        Laxer { a with waiting := w :: a.waiting } { b with waiting := w :: b.waiting } := by
      intro a b w h
      rw [h.waiting]
      exact h.setWaiting _
    unfold Assembly.awaitAnchor
    dsimp only
    rw [hown.waitingAt?]
    split
    · exact hown
    split
    · exact hpush _ (hown.dropWaiting.fallBack _ _)
    · exact hpush _ hown
  unfold Assembly.comment Assembly.placeFree
  dsimp only
  split
  · exact hawait
  · exact hawait.mapTop _ _

/-- An anchor that is too far away for `b` is too far away for `a`. -/
theorem anchor (h : Laxer a b) (anchor : Anchor) (depth : Nat) :
    Laxer (a.anchor anchor depth) (b.anchor anchor depth) := by
  unfold Assembly.anchor
  rw [h.waitingAt?]
  cases a.waitingAt? depth with
  | none => exact h.addAnchor _ _
  | some w =>
    have hgap : b.blankLinesBetween w.comment anchor.span.start =
        a.blankLinesBetween w.comment anchor.span.start := by
      rw [blankLinesBetween, blankLinesBetween, h.source]
    have hdrop := h.dropWaiting
    dsimp only
    rw [hgap]
    split
    · split
      · exact (hdrop.fallBack w _).addAnchor _ _
      · exact (hdrop.fallBack_left w _).addAnchor _ _
    · rw [if_neg (by have := h.tolerance; omega)]
      exact hdrop.addAnchor _ _

theorem enterBody (h : Laxer a b) (p : Position) : Laxer (a.enterBody p) (b.enterBody p) := by
  have hkeep : ∀ a : Assembly, (a.enterBody p).source = a.source ∧
      (a.enterBody p).maxBlankLines = a.maxBlankLines ∧
      (a.enterBody p).unresolved = a.unresolved := by
    intro a
    unfold Assembly.enterBody
    split
    · exact ⟨rfl, rfl, rfl⟩
    split
    · exact ⟨rfl, rfl, rfl⟩
    split <;> simp
  obtain ⟨hsource, htolerance, hunresolved⟩ := hkeep a
  obtain ⟨hsource', htolerance', hunresolved'⟩ := hkeep b
  refine ⟨by rw [hsource, hsource', h.source], by rw [htolerance, htolerance']; exact h.tolerance,
    by simp [h.waiting], by rw [hunresolved, hunresolved', h.unresolved], ?_⟩
  rw [enterBody_diagnostics, enterBody_diagnostics]
  exact h.diagnostics

theorem leaveBody (h : Laxer a b) (stop : Position) :
    Laxer (a.leaveBody stop) (b.leaveBody stop) := by
  have hkeep : ∀ a : Assembly, (a.leaveBody stop).source = a.source ∧
      (a.leaveBody stop).maxBlankLines = a.maxBlankLines ∧
      (a.leaveBody stop).unresolved = a.unresolved := by
    intro a
    unfold Assembly.leaveBody
    split <;> simp
  obtain ⟨hsource, htolerance, hunresolved⟩ := hkeep a
  obtain ⟨hsource', htolerance', hunresolved'⟩ := hkeep b
  refine ⟨by rw [hsource, hsource', h.source], by rw [htolerance, htolerance']; exact h.tolerance,
    by simp [h.waiting], by rw [hunresolved, hunresolved', h.unresolved], ?_⟩
  rw [leaveBody_diagnostics, leaveBody_diagnostics]
  exact h.diagnostics

theorem closeWaiting (h : Laxer a b) (depth : Nat) (ws : List Waiting) :
    Laxer (a.closeWaiting depth ws) (b.closeWaiting depth ws) := by
  induction ws generalizing a b with
  | nil => exact h.setWaiting []
  | cons w ws ih =>
    unfold Assembly.closeWaiting
    split
    · exact ih (h.giveUp w _)
    · exact h.setWaiting _

/-- Whatever comes, what waits stays the same. -/
theorem apply (h : Laxer a b) (e : Event) : Laxer (a.apply e) (b.apply e) := by
  cases e with
  | comment tags span depth => exact h.comment tags span depth
  | anchor anchor depth => exact h.anchor anchor depth
  | bracketOpened | bracketClosed => exact h
  | bodyEntered p => exact h.enterBody p
  | bodyLeft stop => exact h.leaveBody stop
  | blockClosed depth =>
    unfold Assembly.apply Assembly.blockClosed
    rw [h.waiting]
    exact h.closeWaiting depth _

theorem replay (h : Laxer a b) (es : List Event) : Laxer (a.replay es) (b.replay es) := by
  induction es generalizing a b with
  | nil => exact h
  | cons e es ih => exact ih (h.apply e)

/-- The tags that are given up are the same in the end, and what is reported is no more. -/
theorem finish (h : Laxer a b) (stop : Position) :
    (b.finish stop).outline.unresolved = (a.finish stop).outline.unresolved ∧
      (b.finish stop).diagnostics <+~ (a.finish stop).diagnostics := by
  have hfold : ∀ (ws : List Waiting) {a b : Assembly}, Laxer a b →
      Laxer (ws.foldl (·.giveUp · "no anchor before end of input") a)
        (ws.foldl (·.giveUp · "no anchor before end of input") b) := by
    intro ws
    induction ws with
    | nil => exact id
    | cons w ws ih => exact fun h ↦ ih (h.giveUp w _)
  have hwaiting : Laxer a.endWaiting b.endWaiting := by
    unfold Assembly.endWaiting
    rw [h.waiting]
    exact (hfold a.waiting h).setWaiting []
  have hbodies : ∀ (k : Nat) (a : Assembly),
      (Nat.repeat (·.leaveBody stop) k a).unresolved = a.unresolved := by
    intro k a
    induction k with
    | zero => rfl
    | succ k ih =>
      rw [Nat.repeat, ← ih]
      unfold Assembly.leaveBody
      split <;> simp
  constructor
  · simp only [Assembly.finish, Assembly.endBodies, hbodies, hwaiting.unresolved]
  · have hperm : ∀ a : Assembly, (a.finish stop).diagnostics ~ a.endWaiting.diagnostics := by
      intro a
      refine (List.mergeSort_perm _ _).trans ?_
      rw [endBodies_diagnostics]
    exact ((hperm b).subperm_right).mpr (((hperm a).subperm_left).mpr
      hwaiting.diagnostics.subperm)

end Laxer

end Assembly

namespace Setup

variable (s : Setup) (maxBlankLines : Nat) (source : List Char)

/-- The number of blank lines that may lie in between changes no event. -/
theorem events_of_maxBlankLines :
    (s.retagged s.registry maxBlankLines).events source = s.events source := by
  have htwin := Pass.twin_run (Pass.blind_self s.registry) maxBlankLines source
  rw [events_eq, events_eq]
  generalize Pass.run s (Pass.start s source) = p at htwin
  generalize Pass.run (s.retagged s.registry maxBlankLines)
    (Pass.start (s.retagged s.registry maxBlankLines) source) = q at htwin
  cases htwin with
  | of a events notes =>
    rw [List.filter_true, List.filter_true] at events
    simp only [Pass.events, events]

/-- Where more blank lines may lie in between, the same tags are given up and no more is
reported. -/
theorem unresolved_diagnostics_of_maxBlankLines (hle : s.options.maxBlankLines ≤ maxBlankLines) :
    ((s.retagged s.registry maxBlankLines).scan source).outline.unresolved =
        (s.scan source).outline.unresolved ∧
      ((s.retagged s.registry maxBlankLines).scan source).diagnostics <+~
        (s.scan source).diagnostics := by
  have hlaxer : Assembly.Laxer (.start source s.options.maxBlankLines)
      (.start source maxBlankLines) := ⟨rfl, hle, rfl, rfl, .refl _⟩
  obtain ⟨hunresolved, hdiagnostics⟩ :=
    (hlaxer.replay (s.events source)).finish (Position.start.after source)
  have htwin := Pass.twin_run (Pass.blind_self s.registry) maxBlankLines source
  rw [scan_eq, scan_eq, events_of_maxBlankLines]
  refine ⟨hunresolved, ?_⟩
  have hsort : ∀ ds : List Diagnostic, sortDiagnostics ds ~ ds := fun ds ↦ List.mergeSort_perm ds _
  refine ((hsort _).subperm_right).mpr (((hsort _).subperm_left).mpr ?_)
  generalize Pass.run s (Pass.start s source) = p at htwin
  generalize Pass.run (s.retagged s.registry maxBlankLines)
    (Pass.start (s.retagged s.registry maxBlankLines) source) = q at htwin
  cases htwin with
  | of a events notes =>
    rw [List.filter_true, List.filter_true] at notes
    rw [notes]
    exact (List.subperm_append_right _).mpr hdiagnostics

/-- A tag that an outline has attached comes from a comment, where it is not attached yet. -/
theorem comment_of_attached {n : Node} (hn : n ∈ (s.scan source).outline.root.nodes) {t : Tag}
    (ht : t ∈ n.tags) (hattached : t.resolved = true) :
    ∃ pre tags span d later u, s.events source = pre ++ .comment tags span d :: later ∧
      u ∈ tags ∧ u.resolved = false ∧ t = u.resolve := by
  have hperm := Assembly.perm_tags_replay_finish source s.options.maxBlankLines (s.events source)
    (Position.start.after source)
  have hall : t ∈ (s.scan source).outline.root.allTags := by
    rw [Node.allTags_eq]
    exact List.mem_flatMap.mpr ⟨n, hn, ht⟩
  rw [scan_eq] at hall
  have hplain : t.plain ∈ ((s.events source).flatMap Event.tags).map Tag.plain :=
    hperm.mem_iff.mp (List.mem_map_of_mem (List.mem_append_left _ hall))
  obtain ⟨u, hu, htu⟩ := List.mem_map.mp hplain
  have hfresh : u.resolved = false := by
    rw [flatMap_tags_events] at hu
    exact s.resolved_of_mem_parsedTags source hu
  obtain ⟨e, he, hue⟩ := List.mem_flatMap.mp hu
  obtain ⟨pre, later, hes⟩ := List.append_of_mem he
  cases e with
  | comment tags span d =>
    refine ⟨pre, tags, span, d, later, u, hes, hue, hfresh, ?_⟩
    cases t
    cases hattached
    exact (congrArg Tag.resolve htu).symm
  | _ => cases hue

/-- Tags for the next anchor stay with the anchor that takes them. -/
theorem attached_of_nextAnchor (hle : s.options.maxBlankLines ≤ maxBlankLines) {n : Node}
    (hn : n ∈ (s.scan source).outline.root.nodes) {t : Tag} (ht : t ∈ n.tags)
    (hattached : t.resolved = true) (hnext : t.placement = .nextAnchor) :
    ∃ a, n.anchor = some a ∧
      ∃ n' ∈ ((s.retagged s.registry maxBlankLines).scan source).outline.root.nodes,
        t ∈ n'.tags ∧ n'.anchor = some a := by
  obtain ⟨pre, tags, span, d, later, u, hes, hu, hfresh, rfl⟩ :=
    s.comment_of_attached source hn ht hattached
  obtain ⟨a, ha⟩ : ∃ a, n.anchor = some a := by
    rw [← Option.ne_none_iff_exists']
    intro hnone
    obtain ⟨v, hv, rfl⟩ := List.mem_map.mp hn
    have hfair := ((s.fair_scan source).1 v hv _ ht).mpr ⟨hnext, hnone⟩
    rw [hattached] at hfair
    cases hfair
  refine ⟨a, ha, ?_⟩
  have hes' : (s.retagged s.registry maxBlankLines).events source =
      pre ++ .comment tags span d :: later := (s.events_of_maxBlankLines _ source).trans hes
  -- the anchor is near enough for both
  obtain ⟨hsettler, gap, hslice, hgap⟩ := (attached_iff_settled hes hu hnext a).mp ⟨n, hn, ha, ht⟩
  obtain ⟨n', hn', ha', ht'⟩ :=
    (attached_iff_settled hes' hu hnext a).mpr ⟨hsettler, gap, hslice, hgap.trans hle⟩
  exact ⟨n', hn', ht', ha'⟩

/-- Other tags are attached however many blank lines there are. -/
theorem attached_of_not_nextAnchor {n : Node} (hn : n ∈ (s.scan source).outline.root.nodes)
    {t : Tag} (ht : t ∈ n.tags) (hattached : t.resolved = true)
    (hnext : t.placement ≠ .nextAnchor) :
    ∃ n' ∈ ((s.retagged s.registry maxBlankLines).scan source).outline.root.nodes,
      t ∈ n'.tags := by
  obtain ⟨pre, tags, span, d, later, u, hes, hu, hfresh, rfl⟩ :=
    s.comment_of_attached source hn ht hattached
  let s' := s.retagged s.registry maxBlankLines
  have hfair := s'.fair_scan source
  have hperm := Assembly.perm_tags_replay_finish source maxBlankLines (s.events source)
    (Position.start.after source)
  rw [← s.events_of_maxBlankLines maxBlankLines source] at hperm
  have hmem : u.plain ∈ ((s'.scan source).outline.root.allTags ++
      (s'.scan source).outline.unresolved).map Tag.plain := by
    rw [scan_eq]
    refine hperm.mem_iff.mpr (List.mem_map_of_mem
      (List.mem_flatMap.mpr ⟨.comment tags span d, ?_, hu⟩))
    rw [s.events_of_maxBlankLines, hes]
    simp
  obtain ⟨v, hv, hvu⟩ := List.mem_map.mp hmem
  have hplacement : v.placement = u.placement := by
    simpa only [Tag.plain] using congrArg Tag.placement hvu
  have hseated : v ∈ (s'.scan source).outline.root.allTags := by
    refine (List.mem_append.mp hv).resolve_right fun hgone ↦ hnext ?_
    exact hplacement.symm.trans (hfair.2 v hgone).2
  rw [Node.allTags_eq] at hseated
  obtain ⟨n', hn', hv'⟩ := List.mem_flatMap.mp hseated
  obtain ⟨visit, hvisit, rfl⟩ := List.mem_map.mp hn'
  have hresolved : v.resolved = true := by
    rw [← Bool.not_eq_false]
    intro h
    exact hnext (hplacement.symm.trans ((hfair.1 visit hvisit v hv').mp h).1)
  refine ⟨visit.node, hn', ?_⟩
  have hvt : v = u.resolve := by
    cases v
    cases hresolved
    exact congrArg Tag.resolve hvu
  exact hvt ▸ hv'

end Setup

/-- Where more blank lines may lie between a comment and its anchor, every tag that was attached is
attached, a tag for the next anchor to the same anchor; every diagnostic was there before, as often;
and the same tags are given up. -/
theorem scan_of_larger_maxBlankLines (grammar : Grammar) (registry : Registry) (maxDepth : Nat)
    (skipLookahead : SkipLookahead) (source : List Char) (maxBlankLines maxBlankLines' : Nat)
    (hle : maxBlankLines ≤ maxBlankLines') :
    let found := Setup.scan ⟨grammar, registry, ⟨maxDepth, maxBlankLines, skipLookahead⟩⟩ source
    let found' := Setup.scan ⟨grammar, registry, ⟨maxDepth, maxBlankLines', skipLookahead⟩⟩ source
    (∀ n ∈ found.outline.root.nodes, ∀ t ∈ n.tags, t.resolved = true →
      ∃ n' ∈ found'.outline.root.nodes, t ∈ n'.tags ∧
        (t.placement = .nextAnchor → ∃ a, n.anchor = some a ∧ n'.anchor = some a)) ∧
    found'.diagnostics <+~ found.diagnostics ∧
    found'.outline.unresolved = found.outline.unresolved := by
  intro found found'
  let s : Setup := ⟨grammar, registry, ⟨maxDepth, maxBlankLines, skipLookahead⟩⟩
  obtain ⟨hunresolved, hdiagnostics⟩ :=
    s.unresolved_diagnostics_of_maxBlankLines maxBlankLines' source hle
  refine ⟨fun n hn t ht hattached ↦ ?_, hdiagnostics, hunresolved⟩
  by_cases hnext : t.placement = .nextAnchor
  · obtain ⟨a, ha, n', hn', ht', ha'⟩ :=
      s.attached_of_nextAnchor maxBlankLines' source hle hn ht hattached hnext
    exact ⟨n', hn', ht', fun _ ↦ ⟨a, ha, ha'⟩⟩
  · obtain ⟨n', hn', ht'⟩ :=
      s.attached_of_not_nextAnchor maxBlankLines' source hn ht hattached hnext
    exact ⟨n', hn', ht', fun h ↦ absurd h hnext⟩

/-- A function that is documented on the line above it keeps its tag where two blank lines may lie
in between. -/
theorem scan_of_two_blank_lines :
    let source := "//@a\nfunc f() {}\n//@b\n\n\nfunc g() {}".toList
    let found := Setup.scan ⟨.go, .empty, ⟨256, 1, .statement⟩⟩ source
    let found' := Setup.scan ⟨.go, .empty, ⟨256, 2, .statement⟩⟩ source
    let t : Tag :=
      { name := "a", arguments := [], body := "", span := ⟨⟨2, 1, 3⟩, ⟨4, 1, 5⟩⟩,
        placement := .nextAnchor, resolved := true }
    let a : Anchor := ⟨.functionDecl, "f", ⟨⟨5, 2, 1⟩, ⟨11, 2, 7⟩⟩⟩
    1 ≤ 2 ∧ (∃ n ∈ found.outline.root.nodes, n.anchor = some a ∧ t ∈ n.tags) ∧
      (∃ n' ∈ found'.outline.root.nodes, n'.anchor = some a ∧ t ∈ n'.tags) ∧
      found'.diagnostics <+~ found.diagnostics ∧
      found'.outline.unresolved = found.outline.unresolved := by
  intro source found found' t a
  obtain ⟨htags, hdiagnostics, hunresolved⟩ :=
    scan_of_larger_maxBlankLines .go .empty 256 .statement source 1 2 (by decide)
  obtain ⟨n, hn, ha, ht⟩ : ∃ n ∈ found.outline.root.nodes, n.anchor = some a ∧ t ∈ n.tags := by
    decide +kernel
  obtain ⟨n', hn', ht', hanchor⟩ := htags n hn t ht rfl
  obtain ⟨b, hb, hb'⟩ := hanchor rfl
  have hab : a = b := Option.some.inj (ha.symm.trans hb)
  exact ⟨by decide, ⟨n, hn, ha, ht⟩, ⟨n', hn', hab ▸ hb', ht'⟩, hdiagnostics, hunresolved⟩

end Marginalia
