import Marginalia.Proofs.Bearings
import Marginalia.Proofs.Turns

/-!
# Positions of the findings

Every position in the findings of a scan is a position of the text. The events of a scan have such
positions, and an assembly puts into its nodes only what its events bring; tags are read where they
say, names stand in the headers of their anchors.
-/

namespace Marginalia

/-! ## Nodes -/

/-- A node with positions of the text. -/
def Node.In (source : List Char) (n : Node) : Prop :=
  n.span.In source ∧ ∀ a, n.anchor = some a → a.In source

namespace Node

variable {source : List Char} {n m : Node}

/-- A node with positions of the text, with all nodes below it. -/
def Placed (source : List Char) (n : Node) : Prop := ∀ m ∈ n.nodes, m.In source

theorem placed_iff : n.Placed source ↔ n.In source ∧ ∀ c ∈ n.children, c.Placed source := by
  unfold Placed
  rw [nodes_eq]
  simp only [List.mem_cons, List.mem_flatMap, forall_eq_or_imp, forall_exists_index, and_imp]
  exact and_congr_right fun _ ↦ ⟨fun h c hc m hm ↦ h m c hc hm, fun h m c hc hm ↦ h c hc m hm⟩

theorem placed_leaf (hspan : n.span.In source) (hanchor : ∀ a, n.anchor = some a → a.In source)
    (hchildren : n.children = []) : n.Placed source :=
  placed_iff.mpr ⟨⟨hspan, hanchor⟩, by simp [hchildren]⟩

/-- A node stays in place with other children that are in place. -/
theorem Placed.of_children (h : n.Placed source) (hanchor : m.anchor = n.anchor)
    (hspan : m.span.In source) (hchildren : ∀ c ∈ m.children, c ∈ n.children ∨ c.Placed source) :
    m.Placed source := by
  obtain ⟨hn, hc⟩ := placed_iff.mp h
  refine placed_iff.mpr ⟨⟨hspan, fun a ha ↦ hn.2 a (hanchor ▸ ha)⟩, ?_⟩
  intro c hm
  rcases hchildren c hm with hm | hm
  · exact hc c hm
  · exact hm

theorem Placed.insert (h : n.Placed source) (hm : m.Placed source) :
    (n.insert m).Placed source := by
  refine h.of_children rfl (placed_iff.mp h).1.1 ?_
  intro c hc
  rcases List.mem_cons.mp ((insert_children_perm n m).mem_iff.mp hc) with rfl | hc
  · exact .inr hm
  · exact .inl hc

end Node

/-! ## Assemblies -/

namespace Assembly

variable {source : List Char} {a : Assembly}

/-- The open nodes of an assembly are in place. -/
def Upright (source : List Char) (a : Assembly) : Prop := ∀ n ∈ a.openNodes, n.Placed source

/-- The open nodes of an assembly, and the comments whose tags wait, are in place. -/
structure Placed (source : List Char) (a : Assembly) : Prop where
  nodes : a.Upright source
  waiting : ∀ w ∈ a.waiting, w.comment.In source

theorem placed_start (source : List Char) (maxBlankLines : Nat) :
    (start source maxBlankLines).Placed source := by
  refine ⟨?_, fun w hw ↦ by cases hw⟩
  intro n hn
  rw [List.mem_singleton.mp hn]
  exact Node.placed_leaf (Span.in_point (Position.in_start source)) (fun a ha ↦ by cases ha) rfl

theorem Upright.of_eq {b : Assembly} (h : a.Upright source) (hroot : b.root = a.root)
    (hframes : b.frames = a.frames) : b.Upright source := by
  rwa [Upright, openNodes, hroot, hframes]

theorem Upright.top (h : a.Upright source) : a.top.Placed source :=
  h _ (a.openNodes_eq ▸ List.mem_cons_self)

theorem Upright.mapTop (h : a.Upright source) {f : Node → Node} (hf : (f a.top).Placed source) :
    (a.mapTop f).Upright source := by
  intro n hn
  rw [openNodes_mapTop, List.mem_cons] at hn
  rcases hn with rfl | hn
  · exact hf
  · exact h n (List.mem_of_mem_tail hn)

theorem Upright.insert (h : a.Upright source) {n : Node} (hn : n.Placed source) :
    (a.mapTop (·.insert n)).Upright source :=
  h.mapTop (h.top.insert hn)

theorem placed_floating {tags : List Tag} {span : Span} (h : span.In source) :
    Node.Placed source { tags, span } :=
  Node.placed_leaf h (fun a ha ↦ by cases ha) rfl

theorem placed_anchor {anchor : Anchor} (h : anchor.In source) (tags : List Tag) :
    Node.Placed source { Node.ofAnchor anchor with tags } :=
  Node.placed_leaf h.1 (fun a ha ↦ by cases ha; exact h) rfl

theorem mem_of_mem_taken {w : Waiting} {depth : Nat}
    (h : w ∈ if (a.waitingAt? depth).isSome then a.waiting.tail else a.waiting) :
    w ∈ a.waiting := by
  split at h
  · exact List.mem_of_mem_tail h
  · exact h

theorem Placed.comment (h : a.Placed source) {span : Span} (hspan : span.In source)
    (tags : List Tag) (depth : Nat) : (a.comment tags span depth).Placed source := by
  refine ⟨comment_induction (P := Upright source) ?_ ?_ ?_ ?_ h.nodes, ?_⟩
  · exact fun b c hroot hframes _ hb ↦ hb.of_eq hroot hframes
  · intro b ts hb
    exact hb.mapTop (hb.top.of_children rfl (Node.placed_iff.mp hb.top).1.1 fun c hc ↦ .inl hc)
  · intro b old hold hb
    exact hb.insert (placed_floating (h.waiting old (mem_waiting_of_waitingAt? hold)))
  · intro b ts _ _ hb
    exact hb.insert (placed_floating hspan)
  · intro w hw
    rw [comment_waiting] at hw
    split at hw
    · exact h.waiting w hw
    · rcases List.mem_cons.mp hw with rfl | hw
      · exact hspan
      · exact h.waiting w (mem_of_mem_taken hw)

theorem Placed.anchor (h : a.Placed source) {anchor : Anchor} (hanchor : anchor.In source)
    (depth : Nat) : (a.anchor anchor depth).Placed source := by
  refine ⟨?_, ?_⟩
  · unfold Assembly.anchor
    split
    · exact h.nodes.insert (placed_anchor hanchor [])
    · rename_i w hw
      have hdrop : (a.dropWaiting.report w.tags
          "separated from the next anchor by blank lines").Upright source :=
        h.nodes.of_eq rfl rfl
      split
      · exact (hdrop.insert (placed_floating (h.waiting w (mem_waiting_of_waitingAt? hw)))).insert
          (placed_anchor hanchor [])
      · exact Upright.insert (a := a.dropWaiting) (h.nodes.of_eq rfl rfl)
          (placed_anchor hanchor _)
  · intro w hw
    rw [anchor_waiting] at hw
    exact h.waiting w (mem_of_mem_taken hw)

theorem Upright.enterBody (h : a.Upright source) {p : Position} (hp : p.In source) :
    (a.enterBody p).Upright source := by
  unfold Assembly.enterBody
  split
  · exact h
  rename_i slot _
  split
  · exact h
  rename_i n hn
  split
  · exact h
  have hn' : n.Placed source := (Node.placed_iff.mp h.top).2 n (List.mem_of_getElem? hn)
  have hmap : (a.mapTop fun t ↦ { t with children := t.children.eraseIdx slot }).Upright source :=
    h.mapTop (h.top.of_children rfl (Node.placed_iff.mp h.top).1.1 fun c hc ↦
      .inl (List.mem_of_mem_eraseIdx hc))
  intro m hm
  rcases List.mem_cons.mp hm with rfl | hm
  · exact hn'.of_children rfl ⟨(Node.placed_iff.mp hn').1.1.1, hp⟩ fun c hc ↦ .inl hc
  · exact hmap m hm

theorem Upright.leaveBody (h : a.Upright source) {stop : Position} (hstop : stop.In source) :
    (a.leaveBody stop).Upright source := by
  unfold Assembly.leaveBody
  split
  · exact h
  rename_i f frames hframes
  have hf : f.node.Placed source := h _ (by simp [openNodes, hframes])
  have houter : { a with frames }.Upright source := by
    intro n hn
    exact h n (by rw [openNodes, hframes]; exact List.mem_cons_of_mem _ hn)
  have hnode : Node.Placed source { f.node with span := { f.node.span with stop } } :=
    hf.of_children rfl ⟨(Node.placed_iff.mp hf).1.1.1, hstop⟩ fun c hc ↦ .inl hc
  refine houter.mapTop (houter.top.of_children rfl (Node.placed_iff.mp houter.top).1.1 ?_)
  intro c hc
  rcases List.mem_append.mp hc with hc | hc
  · exact .inl (List.mem_of_mem_take hc)
  · rcases List.mem_cons.mp hc with rfl | hc
    · exact .inr hnode
    · exact .inl (List.mem_of_mem_drop hc)

/-- An event with positions of the text keeps an assembly in place. -/
theorem Placed.apply (h : a.Placed source) {e : Event} (he : e.In source) :
    (a.apply e).Placed source := by
  cases e with
  | comment tags span depth => exact h.comment he.2 tags depth
  | anchor anchor depth => exact h.anchor he depth
  | bracketOpened pair position => exact h
  | bracketClosed pair position => exact h
  | bodyEntered p => exact ⟨h.nodes.enterBody he, by simpa [Assembly.apply] using h.waiting⟩
  | bodyLeft stop => exact ⟨h.nodes.leaveBody he, by simpa [Assembly.apply] using h.waiting⟩
  | blockClosed depth =>
    obtain ⟨hwaiting, hroot, hframes, -⟩ := closeWaiting_fields a depth a.waiting
    refine ⟨h.nodes.of_eq hroot hframes, ?_⟩
    intro w hw
    rw [show (a.apply (.blockClosed depth)).waiting = _ from hwaiting] at hw
    exact h.waiting w ((List.dropWhile_suffix _).subset hw)

theorem placed_replay (maxBlankLines : Nat) {es : List Event} (h : ∀ e ∈ es, e.In source) :
    ((start source maxBlankLines).replay es).Placed source := by
  have hrun : ∀ (es : List Event) (a : Assembly), (∀ e ∈ es, e.In source) → a.Placed source →
      (a.replay es).Placed source := by
    intro es
    induction es with
    | nil => exact fun a _ ha ↦ ha
    | cons e es ih =>
      intro a hes ha
      exact ih (a.apply e) (fun f hf ↦ hes f (List.mem_cons_of_mem _ hf))
        (ha.apply (hes e List.mem_cons_self))
  exact hrun es _ h (placed_start source maxBlankLines)

theorem Placed.finish (h : a.Placed source) {stop : Position} (hstop : stop.In source) :
    (a.finish stop).outline.root.Placed source := by
  have hwaiting : ∀ (ws : List Waiting) (b : Assembly), b.Upright source →
      (ws.foldl (·.giveUp · "no anchor before end of input") b).Upright source := by
    intro ws
    induction ws with
    | nil => exact fun b hb ↦ hb
    | cons w ws ih => exact fun b hb ↦ ih _ (hb.of_eq rfl rfl)
  have hbodies : ∀ (n : Nat) (b : Assembly), b.Upright source →
      (Nat.repeat (·.leaveBody stop) n b).Upright source := by
    intro n
    induction n with
    | zero => exact fun b hb ↦ hb
    | succ n ih => exact fun b hb ↦ (ih b hb).leaveBody hstop
  have hend : a.endWaiting.Upright source := (hwaiting a.waiting a h.nodes).of_eq rfl rfl
  have hroot := hbodies a.endWaiting.frames.length a.endWaiting hend
    (a.endWaiting.endBodies stop).root (List.mem_append_right _ (List.mem_singleton_self _))
  exact hroot.of_children rfl ⟨Position.in_start source, hstop⟩ fun c hc ↦ .inl hc

end Assembly

/-! ## Findings -/

/-- Findings whose positions are positions of the text. -/
structure Findings.Placed (source : List Char) (f : Findings) : Prop where
  nodes : ∀ n ∈ f.outline.root.nodes, n.span.In source
  /-- The name of an anchor is read in its span. -/
  anchors : ∀ n ∈ f.outline.root.nodes, ∀ a, n.anchor = some a → a.In source
  /-- A tag is read where it starts. -/
  tags : ∀ t ∈ f.outline.root.allTags ++ f.outline.unresolved, t.In source
  diagnostics : ∀ d ∈ f.diagnostics, d.span.In source

/-- What is assembled from events with positions of the text has positions of the text. -/
theorem Assembly.findings_placed {source : List Char} (maxBlankLines : Nat) {es : List Event}
    {stop : Position} (hes : ∀ e ∈ es, e.In source) (hstop : stop.In source) :
    (((start source maxBlankLines).replay es).finish stop).Placed source := by
  have hnodes := (placed_replay maxBlankLines hes).finish hstop
  have htags : ∀ t ∈ es.flatMap Event.tags, t.In source := by
    intro t ht
    obtain ⟨e, he, ht⟩ := List.mem_flatMap.mp ht
    have hin := hes e he
    cases e with
    | comment tags span depth => exact hin.1 t ht
    | _ => cases ht
  refine ⟨fun n hn ↦ (hnodes n hn).1, fun n hn ↦ (hnodes n hn).2, ?_, ?_⟩
  · intro t ht
    have hperm := perm_tags_replay_finish source maxBlankLines es stop
    obtain ⟨u, hu, hplain⟩ := List.mem_map.mp (hperm.mem_iff.mp (List.mem_map_of_mem ht))
    -- whether a tag is attached shows neither in its span nor in its name
    have hspan : u.plain.span = t.plain.span := congrArg Tag.span hplain
    have hname : u.plain.name = t.plain.name := congrArg Tag.name hplain
    have hu : u.plain.In source := htags u hu
    rw [Tag.In, hspan, hname] at hu
    exact hu
  · intro d hd
    obtain ⟨-, t, ht, hspan⟩ := about_finish source maxBlankLines es stop d hd
    exact hspan ▸ (htags t ht).1

/-- The events of a scan have positions of the text. -/
theorem Setup.events_in (s : Setup) (source : List Char) : ∀ e ∈ s.events source, e.In source := by
  have hreach := Pass.reaches_run s (Pass.start s source)
  intro e he
  rw [events_eq, List.mem_append] at he
  rcases he with he | he
  · exact (Pass.proper_of_reaches hreach).events e (List.mem_reverse.mp he)
  · exact (Pass.leaving_in (Pass.reaches_moves hreach).2.cursor.position_in
      (Pass.reaches_turns hreach).2.lastEnd _ e he).1

/-- Every position that a scan reports is a position of the text, whatever the grammar, the
registry, the options and the text. -/
theorem scan_positions_in (s : Setup) (source : List Char) : (s.scan source).Placed source := by
  have hproper := Pass.proper_of_reaches (Pass.reaches_run s (Pass.start s source))
  have hstop : (Position.start.after source).In source :=
    Position.in_of_prefix (List.prefix_refl source)
  have hfound := Assembly.findings_placed s.options.maxBlankLines (s.events_in source) hstop
  rw [s.scan_eq source]
  refine ⟨hfound.nodes, hfound.anchors, hfound.tags, ?_⟩
  intro d hd
  rcases List.mem_append.mp (List.mem_mergeSort.mp hd) with hd | hd
  · exact hfound.diagnostics d hd
  rcases List.mem_append.mp hd with hd | hd
  · exact hproper.reports d hd
  · obtain ⟨c, hc, hd⟩ := List.mem_flatMap.mp hd
    exact Track.unwindNotes_in (hproper.contexts c hc) hstop none d hd

end Marginalia
