import Marginalia.Proofs.SoundCourse
import Marginalia.Proofs.Turns

/-!
# Contexts and outline stay in step

A pass keeps two stacks: the open contexts, and the nodes whose bodies are open. They are changed at
different places, and the wait for a body points into a list that other nodes are inserted into.
Between any two steps of a scan they agree.
-/

namespace Marginalia.Pass

/-- The open contexts, the outline in the making and the wait for a body agree. -/
structure InStep (s : Setup) (p : Pass) : Prop where
  /-- Only brackets and bodies are open. -/
  kinds : ∀ c ∈ p.nesting.contexts,
    (∃ pair opened, c = .block pair opened) ∨ ∃ opened indent, c = .body opened indent
  /-- No more contexts are open than are allowed. -/
  limit : p.nesting.contexts.length ≤ s.options.maxDepth
  /-- There are as many open bodies as nodes with open bodies. -/
  count : p.assembly.frames.length = p.nesting.contexts.countP Context.isBody
  /-- From the innermost outwards, each of these nodes ends for now where its body has opened. -/
  bodies : p.assembly.frames.map (·.node.span.stop) =
    (p.nesting.contexts.filter Context.isBody).map (·.opened)
  /-- Tags that came later wait deeper. -/
  deeper : p.assembly.waiting.Pairwise fun later earlier ↦ earlier.depth < later.depth
  /-- No tags wait deeper than the scan is. -/
  shallow : ∀ w ∈ p.assembly.waiting, w.depth ≤ p.nesting.depth
  /-- While an anchor at this depth waits for its body, the outline knows the place of the latest
  anchor: its node stands there, and the anchors beside it end before it starts. -/
  latest : p.awaitsBody = true → ∃ place node anchor,
    p.assembly.lastAnchor = some place ∧ p.assembly.top.children[place]? = some node ∧
    node.anchor = some anchor ∧ p.journal.findSome? Event.anchor? = some anchor ∧
    ∀ m ∈ p.assembly.top.children.eraseIdx place, m.anchor.isSome = true →
      m.span.stop.offset ≤ anchor.span.start.offset

/-- In every state between two steps of a scan, contexts and outline are in step. -/
theorem inStep_of_reaches (s : Setup) (source : List Char) (p : Pass)
    (h : Reaches (step s) (start s source) p) : p.InStep s := by
  have hregular := (reaches_moves h).2
  have hsound := sound_of_reaches h
  have hbodies : p.assembly.frames.map (·.node.span.stop) =
      (p.nesting.contexts.filter Context.isBody).map (·.opened) := hsound.bodies
  refine ⟨?_, (proper_of_reaches h).depth, ?_, hbodies, hsound.deeper,
    fun w hw ↦ (hsound.timely w hw).depth, ?_⟩
  · intro c hc
    have husual := hregular.contexts c hc
    cases c with
    | block pair opened => exact .inl ⟨pair, opened, rfl⟩
    | body opened indent => exact .inr ⟨opened, indent, rfl⟩
    | literal delimiter opened => exact husual.elim
    | comment opened => exact husual.elim
  · have hlength := congrArg List.length hbodies
    rwa [List.length_map, List.length_map, ← List.countP_eq_length_filter] at hlength
  · intro hawaits
    obtain ⟨-, place, node, anchor, hpoised, hlatest, -⟩ :=
      hsound.poised _ (awaits_of_awaitsBody hawaits) (Nat.le_refl _)
    exact ⟨place, node, anchor, hpoised.latest, hpoised.there, hpoised.anchored, hlatest, hpoised.last⟩

/-- A class in the body of a class waits for its own body, with tags that wait for what follows it. -/
theorem inStep_in_class_body :
    let s : Setup := { grammar := .javascript, registry := .empty }
    let p := iterate (step s) 6 (start s "class A\x7bclass B//@a".toList)
    p.nesting.contexts.length = 1 ∧ p.assembly.waiting.length = 1 ∧ p.awaitsBody = true ∧
      p.InStep s := by
  intro s p
  exact ⟨by decide +kernel, by decide +kernel, by decide +kernel,
    inStep_of_reaches s _ p (reaches_iterate 6 _)⟩

end Marginalia.Pass
