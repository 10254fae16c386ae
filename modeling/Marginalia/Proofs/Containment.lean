import Marginalia.Proofs.SoundCourse

/-!
# Containment

The outline of every text is well nested: nodes lie inside their parents, start where their anchors
start, and the anchors beside each other do not overlap.
-/

namespace Marginalia

/-- An outline whose nodes are in place. -/
structure Outline.WellNested (o : Outline) (source : List Char) : Prop where
  /-- The root has no anchor and spans the text. -/
  root : o.root.anchor = none ∧ o.root.span = ⟨.start, Position.start.after source⟩
  /-- Spans are in order and end in the text. -/
  ordered : ∀ n ∈ o.root.nodes, n.span.start.offset ≤ n.span.stop.offset ∧
    n.span.stop.offset ≤ Text.byteSize source
  /-- Children lie inside their parents. -/
  inside : ∀ n ∈ o.root.nodes, ∀ c ∈ n.children, n.span.contains c.span = true
  /-- A node starts where its anchor starts and contains it. -/
  anchored : ∀ n ∈ o.root.nodes, ∀ a, n.anchor = some a → n.span.start = a.span.start ∧
    n.span.contains a.span = true
  /-- Siblings with anchors do not overlap. -/
  apart : ∀ n ∈ o.root.nodes, n.children.Pairwise Node.Apart
  /-- A node without an anchor is the root, or a leaf with tags. -/
  floating : ∀ n ∈ o.root.children.flatMap Node.nodes, n.anchor = none →
    n.children = [] ∧ n.tags ≠ []
  /-- A class has no functions. -/
  kinds : ∀ n ∈ o.root.nodes, n.kind? = some .classDecl →
    ∀ c ∈ n.children, c.kind? ≠ some .functionDecl

namespace Node

theorem WellNested.stop_le {n : Node} (h : n.WellNested) :
    ∀ m ∈ n.nodes, m.span.stop.offset ≤ n.span.stop.offset := by
  induction n using Node.induction with
  | h n ih =>
    obtain ⟨hfits, hchildren⟩ := wellNested_iff.mp h
    intro m hm
    rw [nodes_eq, List.mem_cons, List.mem_flatMap] at hm
    rcases hm with rfl | ⟨c, hc, hm⟩
    · exact Nat.le_refl _
    · exact (ih c hc (hchildren c hc) m hm).trans (hfits.hosts.inside c hc).2

theorem Hosts.contains {n c : Node} {stop : Nat} (h : n.Hosts stop) (hc : c ∈ n.children)
    (hstop : stop ≤ n.span.stop.offset) : n.span.contains c.span = true := by
  obtain ⟨hstart, hle⟩ := h.inside c hc
  simp only [Span.contains, Bool.and_eq_true, decide_eq_true_eq]
  exact ⟨hstart, hle.trans hstop⟩

end Node

/-- An outline is well nested if its root is open up to the end of the text. -/
theorem Outline.wellNested_of_root {o : Outline} {source : List Char}
    (hanchor : o.root.anchor = none)
    (hspan : o.root.span = ⟨.start, Position.start.after source⟩)
    (hopen : o.root.Open (Text.byteSize source)) : o.WellNested source := by
  have hstop : o.root.span.stop.offset = Text.byteSize source := by
    rw [hspan, Position.after_offset]
    exact Nat.zero_add _
  have hbelow : ∀ n ∈ o.root.children.flatMap Node.nodes,
      n.Fits ∧ n.span.stop.offset ≤ Text.byteSize source := by
    intro n hn
    obtain ⟨c, hc, hn⟩ := List.mem_flatMap.mp hn
    have hnested := hopen.2 c hc
    exact ⟨hnested n hn, (hnested.stop_le n hn).trans (hopen.1.inside c hc).2⟩
  have hnodes : ∀ n ∈ o.root.nodes, n = o.root ∨ n ∈ o.root.children.flatMap Node.nodes := by
    intro n hn
    rwa [Node.nodes_eq, List.mem_cons] at hn
  -- every node hosts its children up to its own end
  have hhosts : ∀ n ∈ o.root.nodes, n.Hosts n.span.stop.offset := by
    intro n hn
    rcases hnodes n hn with rfl | hn
    · rw [hstop]
      exact hopen.1
    · exact (hbelow n hn).1.hosts
  refine ⟨⟨hanchor, hspan⟩, ?_, ?_, ?_, fun n hn ↦ (hhosts n hn).apart,
    fun n hn ↦ (hbelow n hn).1.floating, fun n hn ↦ (hhosts n hn).kinds⟩
  · intro n hn
    rcases hnodes n hn with rfl | hn
    · rw [hstop, hspan]
      exact ⟨Nat.zero_le _, Nat.le_refl _⟩
    · exact ⟨(hbelow n hn).1.ordered, (hbelow n hn).2⟩
  · exact fun n hn c hc ↦ (hhosts n hn).contains hc (Nat.le_refl _)
  · intro n hn a ha
    rcases hnodes n hn with rfl | hn
    · rw [hanchor] at ha
      cases ha
    · obtain ⟨hstart, hle⟩ := (hbelow n hn).1.anchored a ha
      refine ⟨hstart, ?_⟩
      simp only [Span.contains, Bool.and_eq_true, decide_eq_true_eq]
      exact ⟨Nat.le_of_eq (by rw [hstart]), hle⟩

namespace Pass

variable {s : Setup} {source : List Char} {p : Pass}

/-- At the end of the text, all bodies end. -/
theorem closeAll_nested (hreg : p.Regular s.grammar source) (hsound : p.course.Sound)
    (hp : p.Settled) :
    (p.closeAll s.grammar).assembly.Nested p.cursor.position.offset ∧
      (p.closeAll s.grammar).assembly.frames = [] := by
  have hassembly : (p.closeAll s.grammar).assembly =
      p.assembly.replay ((List.replicate (p.nesting.contexts.countP Context.isBody)
        (if s.grammar.indents then p.lastEnd else p.cursor.position)).map .bodyLeft) := by
    rw [← flatMap_leaving _ _ hreg.contexts]
    unfold closeAll
    rw [foldl_unwind]
    rfl
  have hlast := hreg.lastEnd
  have hclock : p.course.clock = p.lastEnd.offset := hp.clock
  rw [hassembly]
  refine ⟨?_, ?_⟩
  · refine hsound.nested.leaveBodies (List.pairwise_replicate.mpr (.inr (Nat.le_refl _))) ?_
      (by rw [hclock]; exact hlast)
    intro q hq
    rw [List.eq_of_mem_replicate hq, hclock]
    split <;> omega
  · have hopenings := Assembly.openings_leaveBodies (a := p.assembly)
      (List.replicate (p.nesting.contexts.countP Context.isBody)
        (if s.grammar.indents then p.lastEnd else p.cursor.position))
    rw [show p.assembly.openings = _ from hsound.bodies, List.length_replicate] at hopenings
    refine List.map_eq_nil_iff.mp (hopenings.trans ?_)
    rw [List.drop_eq_nil_iff, List.length_map, ← List.countP_eq_length_filter]
    exact Nat.le_refl _

end Pass

/-- The root of the finished outline is the root of the assembly, with the span of the text. -/
theorem Assembly.finish_root (a : Assembly) (stop : Position) (h : a.frames = []) :
    (a.finish stop).outline.root = { a.root with span := ⟨.start, stop⟩ } := by
  have hwaiting : ∀ (ws : List Waiting) (b : Assembly),
      (ws.foldl (·.giveUp · "no anchor before end of input") b).root = b.root ∧
        (ws.foldl (·.giveUp · "no anchor before end of input") b).frames = b.frames := by
    intro ws
    induction ws with
    | nil => exact fun b ↦ ⟨rfl, rfl⟩
    | cons w ws ih => exact fun b ↦ ih _
  have hroot : a.endWaiting.root = a.root := (hwaiting a.waiting a).1
  have hframes : a.endWaiting.frames = [] := (hwaiting a.waiting a).2.trans h
  simp only [finish, endBodies, hframes, List.length_nil, Nat.repeat, hroot]

/-- A scan ends in a pass that has read all of the text; the root of its outline is the root of the
assembly once all bodies have ended. -/
theorem Setup.scan_root (s : Setup) (source : List Char) :
    ∃ p, Reaches (Pass.step s) (Pass.start s source) p ∧ p.Settled ∧
      Pass.run s (Pass.start s source) = p ∧ (p.closeAll s.grammar).assembly.frames = [] ∧
      (s.scan source).outline.root =
        { (p.closeAll s.grammar).assembly.root with
          span := ⟨.start, (p.closeAll s.grammar).cursor.position⟩ } := by
  generalize hp : Pass.run s (Pass.start s source) = p
  have hreach : Reaches (Pass.step s) (Pass.start s source) p := hp ▸ Pass.reaches_run s _
  have hend : Pass.step s p = none := hp ▸ Pass.step_run (Pass.atComment_start s source)
  have hsettled : p.Settled := by
    intro c
    rcases (Pass.ahead_eq_nil_of_step_eq_none hend).2 with h | h <;> rw [h] <;> simp
  obtain ⟨-, hframes⟩ := Pass.closeAll_nested (Pass.reaches_moves hreach).2
    (Pass.sound_of_reaches hreach) hsettled
  refine ⟨p, hreach, hsettled, rfl, hframes, ?_⟩
  rw [← Assembly.finish_root _ _ hframes, ← hp]
  rfl

/-- The root of an outline has no anchor, and the nodes below it are finished. -/
theorem Setup.nested_scan (s : Setup) (source : List Char) :
    (s.scan source).outline.root.anchor = none ∧
      ∀ c ∈ (s.scan source).outline.root.children, c.WellNested := by
  obtain ⟨p, hreach, hsettled, -, hframes, hroot⟩ := s.scan_root source
  obtain ⟨hnested, -⟩ := Pass.closeAll_nested (Pass.reaches_moves hreach).2
    (Pass.sound_of_reaches hreach) hsettled
  have hopen := hnested.isOpen (p.closeAll s.grammar).assembly.root
    (by rw [Assembly.openNodes, hframes]; exact List.mem_singleton_self _)
  rw [hroot]
  exact ⟨hnested.root_anchor, hopen.2⟩

/-- The outline of every text is well nested. -/
theorem scan_outline_wellNested (s : Setup) (source : List Char) :
    (s.scan source).outline.WellNested source := by
  generalize hp : Pass.run s (Pass.start s source) = p
  have hreach : Reaches (Pass.step s) (Pass.start s source) p := hp ▸ Pass.reaches_run s _
  have hend : Pass.step s p = none := hp ▸ Pass.step_run (Pass.atComment_start s source)
  obtain ⟨hahead, hmode⟩ := Pass.ahead_eq_nil_of_step_eq_none hend
  have hsettled : p.Settled := by
    intro c
    rcases hmode with h | h <;> rw [h] <;> simp
  have hreg := (Pass.reaches_moves hreach).2
  have hstop := hreg.cursor.position_of_end hahead
  have hsize : p.cursor.position.offset = Text.byteSize source := by
    rw [hstop, Position.after_offset]
    exact Nat.zero_add _
  obtain ⟨hnested, hframes⟩ := Pass.closeAll_nested hreg (Pass.sound_of_reaches hreach) hsettled
  rw [hsize] at hnested
  have hroot : (s.scan source).outline.root =
      { (p.closeAll s.grammar).assembly.root with
        span := ⟨.start, Position.start.after source⟩ } := by
    have hposition : (p.closeAll s.grammar).cursor.position = Position.start.after source := by
      unfold Pass.closeAll
      rw [Pass.foldl_unwind]
      exact hstop
    rw [← hposition, ← Assembly.finish_root _ _ hframes, ← hp]
    rfl
  refine Outline.wellNested_of_root (by rw [hroot]; exact hnested.root_anchor) (by rw [hroot]) ?_
  rw [hroot]
  have hopen := hnested.isOpen (p.closeAll s.grammar).assembly.root
    (by rw [Assembly.openNodes, hframes]; exact List.mem_singleton_self _)
  refine ⟨⟨fun c hc ↦ ⟨Nat.zero_le _, (hopen.1.inside c hc).2⟩, hopen.1.apart, hopen.1.kinds⟩,
    hopen.2⟩

end Marginalia
