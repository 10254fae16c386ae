import Marginalia.Proofs.Nested
import Marginalia.Proofs.Walk
import Mathlib.Data.List.Nodup
import Mathlib.Data.List.TakeWhile

/-!
# Lineages

Who is the child of whom can be told before an outline is finished. The walk over the outline in the
making goes through the root, then through the open nodes from the outermost to the innermost, each
behind the finished children of the node around it. As long as nodes come in the order of the text,
this walk grows at its end when an anchor comes, and is the same before and after a body opens or
ends.
-/

namespace Marginalia

namespace Node

/-- The anchor of a visited node, and that of its parent. -/
def Visit.kin (v : Visit) : Option Anchor × Option (Option Anchor) :=
  (v.node.anchor, v.parent.map (·.anchor))

/-- The anchors of the nodes below a node in the order of the walk, each with that of its parent. -/
def descent (n : Node) : List (Option Anchor × Option (Option Anchor)) :=
  (n.walk.map Visit.kin).tail

theorem map_kin_visits (parent : Option Node) (depth : Nat) (n : Node) :
    (visits parent depth n).map Visit.kin = (n.anchor, parent.map (·.anchor)) :: n.descent := by
  induction n using induction generalizing parent depth with
  | h n ih =>
    have hchildren : ∀ d, (visitsAll (some n) d n.children).map Visit.kin =
        n.children.flatMap fun c ↦ (c.anchor, some n.anchor) :: c.descent := by
      intro d
      rw [visitsAll_eq_flatMap, List.map_flatMap]
      exact List.flatMap_congr fun c hc ↦ ih c hc (some n) d
    rw [descent, walk_eq_visits, visits_eq, visits_eq, List.map_cons, List.map_cons, List.tail_cons,
      hchildren, hchildren]
    rfl

theorem map_kin_walk (n : Node) : n.walk.map Visit.kin = (n.anchor, none) :: n.descent := by
  rw [walk_eq_visits]
  exact map_kin_visits none 0 n

theorem descent_eq (n : Node) :
    n.descent = n.children.flatMap fun c ↦ (c.anchor, some n.anchor) :: c.descent := by
  rw [descent, walk_eq_visits, visits_eq, List.map_cons, List.tail_cons, visitsAll_eq_flatMap,
    List.map_flatMap]
  exact List.flatMap_congr fun c _ ↦ map_kin_visits (some n) _ c

/-- What is below a node does not depend on its tags and its span. -/
theorem descent_congr {n m : Node} (hanchor : m.anchor = n.anchor)
    (hchildren : m.children = n.children) :
    m.descent = n.descent := by
  rw [descent_eq, descent_eq n, hanchor, hchildren]

/-- A child that is added behind the others comes last. -/
theorem descent_append {n m c : Node} (hanchor : m.anchor = n.anchor)
    (hchildren : m.children = n.children ++ [c]) :
    m.descent = n.descent ++ (c.anchor, some n.anchor) :: c.descent := by
  rw [descent_eq, descent_eq n, hanchor, hchildren, List.flatMap_append, List.flatMap_singleton]

/-- Where anchors tell nodes apart, a walk is known by the anchors of nodes and of their parents. -/
theorem exists_of_anchor {root : Node} (hapart : (root.nodes.map (·.anchor)).Nodup) :
    ∃ node : Option Anchor → Node, node root.anchor = root ∧ (∀ n ∈ root.nodes, node n.anchor = n) ∧
      root.walk.map (fun v ↦ (v.node, v.parent)) =
        (root.walk.map Visit.kin).map (Prod.map node (Option.map node)) := by
  let node : Option Anchor → Node := fun a ↦ (root.nodes.find? (·.anchor = a)).getD root
  have hnode : ∀ n ∈ root.nodes, node n.anchor = n := by
    intro n hn
    cases hm : root.nodes.find? (·.anchor = n.anchor) with
    | none => exact absurd (decide_eq_true rfl) (List.find?_eq_none.mp hm n hn)
    | some m =>
      have hanchor : m.anchor = n.anchor := by simpa using List.find?_some hm
      have heq : m = n :=
        List.inj_on_of_nodup_map hapart (List.mem_of_find?_eq_some hm) hn hanchor
      simp only [node, hm, heq, Option.getD_some]
  refine ⟨node, hnode root root.mem_nodes_self, hnode, ?_⟩
  rw [List.map_map]
  refine List.map_congr_left fun v hv ↦ Prod.ext ?_ ?_
  · exact (hnode v.node (List.mem_map_of_mem hv)).symm
  · rcases eq_or_child_of_mem_walk hv with rfl | ⟨m, hm, hparent, -⟩
    · rfl
    · have hkin : v.kin.2 = some m.anchor := by rw [Visit.kin, hparent, Option.map_some]
      rw [Function.comp_apply, Prod.map_snd, hkin, hparent, Option.map_some, hnode m hm]

end Node

namespace Assembly

variable {a : Assembly} {root : Node} {clock clock' : Nat} {x : Anchor}

/-- The innermost of open nodes. -/
def innermost (root : Node) : List Frame → Node
  | [] => root
  | f :: _ => f.node

/-- The walk over an outline in the making. -/
def lineage (root : Node) : List Frame → List (Option Anchor × Option (Option Anchor))
  | [] => (root.anchor, none) :: root.descent
  | f :: fs => lineage root fs ++ (f.node.anchor, some (innermost root fs).anchor) :: f.node.descent

/-- Every open node goes back behind all children of the node around it. -/
def GoBackLast (root : Node) : List Frame → Prop
  | [] => True
  | f :: fs => f.slot = (innermost root fs).children.length ∧ GoBackLast root fs

theorem innermost_eq_top (a : Assembly) : innermost a.root a.frames = a.top := by
  unfold innermost top
  cases a.frames <;> rfl

theorem mapTop_frames (a : Assembly) (f : Node → Node) :
    (a.mapTop f).frames =
      match a.frames with
      | [] => []
      | fr :: frs => { fr with node := f fr.node } :: frs := by
  unfold mapTop
  split <;> rename_i hframes <;> simp [hframes]

/-- A child that is added to the innermost open node behind the others comes last. -/
theorem lineage_mapTop {f : Node → Node} {n : Node} (hanchor : (f a.top).anchor = a.top.anchor)
    (hchildren : (f a.top).children = a.top.children ++ [n]) :
    lineage (a.mapTop f).root (a.mapTop f).frames =
      lineage a.root a.frames ++ (n.anchor, some a.top.anchor) :: n.descent := by
  have hdescent := Node.descent_append hanchor hchildren
  unfold mapTop
  unfold top at hanchor hdescent ⊢
  split <;> rename_i hframes <;> rw [hframes] at hanchor hdescent ⊢ <;>
    simp only [lineage, hanchor, hdescent, List.cons_append, List.append_assoc]

theorem mapTop_congr {f g : Node → Node} (h : f a.top = g a.top) : a.mapTop f = a.mapTop g := by
  unfold top at h
  unfold mapTop
  split <;> rename_i hframes <;> rw [hframes] at h <;> rw [h]

theorem goBackLast_mapTop {f : Node → Node} (h : GoBackLast a.root a.frames) :
    GoBackLast (a.mapTop f).root (a.mapTop f).frames := by
  unfold mapTop
  split <;> rename_i hframes
  · rw [hframes]
    trivial
  · rw [hframes] at h
    exact h

/-- No tags wait, every open node goes back last, and no node that is open or in an open one starts
behind the clock. -/
structure Flush (clock : Nat) (a : Assembly) : Prop where
  waiting : a.waiting = []
  slots : GoBackLast a.root a.frames
  keys : ∀ n ∈ a.openNodes, ∀ c ∈ n.children, c.key ≤ clock
  starts : ∀ f ∈ a.frames, f.node.key ≤ clock

theorem flush_start (source : List Char) (maxBlankLines : Nat) :
    (start source maxBlankLines).Flush 0 := by
  refine ⟨rfl, trivial, fun n hn c hc ↦ ?_, fun f hf ↦ absurd hf List.not_mem_nil⟩
  rw [List.mem_singleton.mp hn] at hc
  cases hc

theorem Flush.mono (h : a.Flush clock) (hle : clock ≤ clock') : a.Flush clock' :=
  ⟨h.waiting, h.slots, fun n hn c hc ↦ (h.keys n hn c hc).trans hle,
    fun f hf ↦ (h.starts f hf).trans hle⟩

/-- A finished node may be added to the innermost open node behind the others. -/
theorem Flush.append (h : a.Flush clock) {n : Node} (hn : n.key ≤ clock) :
    let b := a.mapTop fun t ↦ { t with children := t.children ++ [n] }
    b.Flush clock ∧ b.frames.map (·.node.anchor) = a.frames.map (·.node.anchor) ∧
      lineage b.root b.frames =
        lineage a.root a.frames ++ (n.anchor, some a.top.anchor) :: n.descent := by
  intro b
  refine ⟨⟨?_, goBackLast_mapTop h.slots, ?_, ?_⟩, ?_, lineage_mapTop rfl rfl⟩
  · rw [mapTop_waiting, h.waiting]
  · intro m hm c hc
    rw [openNodes_mapTop, List.mem_cons] at hm
    rcases hm with rfl | hm
    · rcases List.mem_append.mp hc with hc | hc
      · exact h.keys a.top (by rw [openNodes_eq]; exact List.mem_cons_self) c hc
      · exact List.mem_singleton.mp hc ▸ hn
    · exact h.keys m (List.mem_of_mem_tail hm) c hc
  · have hstarts := h.starts
    rw [mapTop_frames]
    cases hframes : a.frames with
    | nil => exact fun f hf ↦ absurd hf List.not_mem_nil
    | cons f frames =>
      rw [hframes, List.forall_mem_cons] at hstarts
      exact List.forall_mem_cons.mpr hstarts
  · rw [mapTop_frames]
    cases a.frames with
    | nil => rfl
    | cons f frames => rfl

/-- Where no tags wait, none is given up. -/
theorem blockClosed_of_waiting (h : a.waiting = []) (depth : Nat) : a.blockClosed depth = a := by
  rw [blockClosed, h, closeWaiting, ← h]

/-! ## Bodies that end -/

/-- The end of a body changes nothing but what is open. -/
theorem Flush.leaveBody (h : a.Flush clock) (stop : Position) :
    (a.leaveBody stop).Flush clock ∧
      (a.leaveBody stop).frames.map (·.node.anchor) = (a.frames.map (·.node.anchor)).tail ∧
      lineage (a.leaveBody stop).root (a.leaveBody stop).frames = lineage a.root a.frames := by
  cases hframes : a.frames with
  | nil =>
    rw [Assembly.leaveBody, hframes]
    exact ⟨h, congrArg _ hframes, congrArg _ hframes⟩
  | cons f frames =>
    have hslots := h.slots
    have hstarts := h.starts
    rw [hframes] at hslots hstarts
    obtain ⟨hslot, hslots⟩ := hslots
    let outer : Assembly := { a with frames }
    let node : Node := { f.node with span := { f.node.span with stop } }
    have hopen : a.openNodes = f.node :: outer.openNodes := by
      rw [openNodes, hframes]
      rfl
    have houter : outer.Flush clock :=
      ⟨h.waiting, hslots, fun n hn ↦ h.keys n (hopen ▸ List.mem_cons_of_mem _ hn),
        fun g hg ↦ hstarts g (List.mem_cons_of_mem _ hg)⟩
    obtain ⟨hflush, hanchors, hlineage⟩ :=
      houter.append (n := node) (hstarts f List.mem_cons_self)
    have hleave : a.leaveBody stop =
        { outer.mapTop fun t ↦ { t with children := t.children ++ [node] } with
          lastAnchor := none } := by
      have hlength : f.slot = outer.top.children.length := by
        rw [hslot, ← outer.innermost_eq_top]
      have htop : outer.mapTop (fun t ↦ { t with
            children := t.children.take f.slot ++ node :: t.children.drop f.slot }) =
          outer.mapTop fun t ↦ { t with children := t.children ++ [node] } := by
        refine outer.mapTop_congr ?_
        rw [hlength, List.take_length, List.drop_length]
      rw [← htop, Assembly.leaveBody, hframes]
    rw [hleave]
    refine ⟨⟨hflush.waiting, hflush.slots, hflush.keys, hflush.starts⟩, hanchors, ?_⟩
    have hdescent : node.descent = f.node.descent := Node.descent_congr rfl rfl
    rw [hdescent, ← outer.innermost_eq_top] at hlineage
    exact hlineage

/-- The walk is the same after bodies have ended. -/
theorem Flush.lineage_replay (h : a.Flush clock) {es : List Event}
    (hes : ∀ e ∈ es, ∃ stop, e = .bodyLeft stop) :
    lineage (a.replay es).root (a.replay es).frames = lineage a.root a.frames := by
  induction es generalizing a with
  | nil => rfl
  | cons e es ih =>
    obtain ⟨⟨stop, rfl⟩, htail⟩ := List.forall_mem_cons.mp hes
    obtain ⟨hflush, -, hlineage⟩ := h.leaveBody stop
    exact (ih hflush htail).trans hlineage

/-! ## Anchors whose body opens -/

theorem Flush.waiting_anchor (h : a.Flush clock) (x : Anchor) (depth : Nat) :
    (a.anchor x depth).waiting = [] := by
  have hwaiting : a.waitingAt? depth = none := by
    rw [waitingAt?, h.waiting]
    rfl
  rw [Assembly.anchor, hwaiting]
  exact (a.mapTop_waiting _).trans h.waiting

/-- An anchor whose body opens becomes the innermost open node. -/
theorem Flush.enterBody_anchor (h : a.Flush clock) (hx : clock ≤ x.span.start.offset) (depth : Nat)
    (p : Position) :
    (a.anchor x depth).canEnterBody = true ∧
      (a.anchor x depth).enterBody p =
        { a with
          frames := ⟨{ Node.ofAnchor x with span := { x.span with stop := p } },
            a.top.children.length⟩ :: a.frames
          lastAnchor := none } := by
  have hplace : Node.place a.top (.ofAnchor x) = a.top.children.length := by
    have hall : ∀ c ∈ a.top.children, decide (c.key ≤ (Node.ofAnchor x).key) = true := by
      intro c hc
      rw [decide_eq_true_eq]
      exact (h.keys a.top (by rw [openNodes_eq]; exact List.mem_cons_self) c hc).trans hx
    rw [Node.place, List.takeWhile_eq_self_iff.mpr hall]
  have hinsert : a.top.insert (.ofAnchor x) =
      { a.top with children := a.top.children ++ [.ofAnchor x] } := by
    rw [Node.insert, hplace, List.take_length, List.drop_length]
  have hanchor : a.anchor x depth =
      { a.mapTop (fun t ↦ { t with children := t.children ++ [.ofAnchor x] }) with
        lastAnchor := some a.top.children.length } := by
    have hwaiting : a.waitingAt? depth = none := by
      rw [waitingAt?, h.waiting]
      rfl
    rw [Assembly.anchor, hwaiting]
    dsimp only
    have htop : a.mapTop (·.insert (.ofAnchor x)) =
        a.mapTop fun t ↦ { t with children := t.children ++ [.ofAnchor x] } := mapTop_congr hinsert
    rw [addAnchor, hplace, htop]
  have herase : (a.top.children ++ [Node.ofAnchor x]).eraseIdx a.top.children.length =
      a.top.children := by
    rw [List.eraseIdx_append_of_length_le (Nat.le_refl _), Nat.sub_self, List.eraseIdx_zero,
      List.tail_cons, List.append_nil]
  have hsome : (Node.ofAnchor x).anchor = some x := rfl
  rw [hanchor]
  clear hplace hinsert hanchor h
  obtain ⟨source, maxBlankLines, root, frames, waiting, unresolved, lastAnchor, ds⟩ := a
  cases frames with
  | nil =>
    simp only [top] at herase
    simp [canEnterBody, enterBody, mapTop, top, herase, hsome]
    exact ⟨by cases root; rfl, rfl⟩
  | cons f frames =>
    simp only [top] at herase
    simp [canEnterBody, enterBody, mapTop, top, herase, hsome]
    obtain ⟨⟨anchor, tags, children, span⟩, slot⟩ := f
    exact ⟨rfl, rfl⟩

/-- The walk grows by an anchor whose body opens. -/
theorem Flush.open_body (h : a.Flush clock) (hx : clock ≤ x.span.start.offset) (depth : Nat)
    (p : Position) :
    let b := (a.anchor x depth).enterBody p
    b.Flush x.span.start.offset ∧
      b.frames.map (·.node.anchor) = some x :: a.frames.map (·.node.anchor) ∧
      lineage b.root b.frames = lineage a.root a.frames ++ [(some x, some a.top.anchor)] := by
  intro b
  have hb : b = _ := (h.enterBody_anchor hx depth p).2
  let node : Node := { Node.ofAnchor x with span := { x.span with stop := p } }
  have hopen : b.openNodes = node :: a.openNodes := by
    rw [hb]
    rfl
  have hmono := h.mono hx
  have hdescent : node.descent = [] := by
    rw [Node.descent_eq]
    rfl
  refine ⟨⟨by rw [hb]; exact h.waiting, ?_, ?_, ?_⟩, by rw [hb]; rfl, ?_⟩
  · rw [hb]
    exact ⟨congrArg (·.children.length) a.innermost_eq_top.symm, h.slots⟩
  · intro n hn c hc
    rw [hopen, List.mem_cons] at hn
    rcases hn with rfl | hn
    · cases hc
    · exact hmono.keys n hn c hc
  · rw [hb]
    exact List.forall_mem_cons.mpr ⟨Nat.le_refl _, hmono.starts⟩
  · rw [hb]
    change lineage a.root a.frames ++ (some x, some (innermost a.root a.frames).anchor) ::
      node.descent = _
    rw [hdescent, innermost_eq_top]

end Assembly

end Marginalia
