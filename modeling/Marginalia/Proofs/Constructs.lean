import Marginalia.Proofs.Bearings
import Marginalia.Proofs.Containment

/-!
# The constructs of an outline

Taken without its tags, an outline is a set of constructs: the anchors with the spans of their nodes
and the anchors they stand below. Comments put tags and nodes without anchors into an outline, but
leave its constructs. So a course can be compared with its bare copy, which is sent the same events
except for the comments.
-/

namespace Marginalia

open scoped List

/-- A node with an anchor, taken without its tags. -/
structure Construct where
  anchor : Anchor
  span : Span
  /-- The span of the anchor of the parent, if that has one. -/
  parent : Option Span
deriving DecidableEq, Repr

namespace Node

variable {n m c : Node}

/-- The construct that a visit comes to. -/
def Visit.construct? (v : Visit) : Option Construct :=
  v.node.anchor.map fun a ↦ ⟨a, v.node.span, (v.parent.bind (·.anchor)).map (·.span)⟩

/-- The constructs of a tree in the order of the walk. -/
def constructs (n : Node) : List Construct := n.walk.filterMap Visit.construct?

/-- The constructs of a tree that stands below a parent with the given anchor. -/
def constructsUnder (parent : Option Anchor) (n : Node) : List Construct :=
  (visits (some { anchor := parent }) 0 n).filterMap Visit.construct?

/-- The constructs below a node. -/
def constructsBelow (n : Node) : List Construct := n.children.flatMap (constructsUnder n.anchor)

/-- A walk comes to the construct of its start, and then to those below it. -/
theorem filterMap_visits (parent : Option Node) (depth : Nat) (n : Node) :
    (visits parent depth n).filterMap Visit.construct? =
      (Visit.construct? ⟨n, parent, 0⟩).toList ++ n.constructsBelow := by
  induction n using induction generalizing parent depth with
  | h n ih =>
    have hbelow : (visitsAll (some n) (depth + 1) n.children).filterMap Visit.construct? =
        n.constructsBelow := by
      rw [visitsAll_eq_flatMap, List.filterMap_flatMap]
      refine List.flatMap_congr fun c hc ↦ ?_
      rw [constructsUnder, ih c hc, ih c hc]
      rfl
    rw [visits_eq, List.filterMap_cons, hbelow]
    cases n with
    | mk anchor tags children span => cases anchor <;> rfl

theorem constructsUnder_eq (parent : Option Anchor) (n : Node) :
    constructsUnder parent n =
      (n.anchor.map fun a ↦ ⟨a, n.span, parent.map (·.span)⟩).toList ++ n.constructsBelow :=
  filterMap_visits (some { anchor := parent }) 0 n

/-- A tree without an anchor at its root has the constructs below the root. -/
theorem constructs_eq_of_anchor (h : n.anchor = none) : n.constructs = n.constructsBelow := by
  rw [constructs, walk_eq_visits, filterMap_visits, Visit.construct?, h]
  rfl

/-- A leaf without an anchor is no construct. -/
theorem constructsUnder_floating (parent : Option Anchor) (tags : List Tag) (span : Span) :
    constructsUnder parent { tags, span } = [] := constructsUnder_eq parent _

/-- A child adds the constructs of its tree. -/
theorem constructsBelow_perm (hanchor : m.anchor = n.anchor)
    (hperm : m.children ~ c :: n.children) :
    m.constructsBelow ~ constructsUnder n.anchor c ++ n.constructsBelow := by
  rw [constructsBelow, hanchor]
  exact hperm.flatMap_right _

/-! ## Nodes with the same constructs -/

/-- Nodes with the same anchor and span, and with the same constructs below them. -/
structure Alike (n m : Node) : Prop where
  anchor : n.anchor = m.anchor
  span : n.span = m.span
  below : n.constructsBelow ~ m.constructsBelow

theorem Alike.refl (n : Node) : n.Alike n := ⟨rfl, rfl, .refl _⟩

/-- Nodes alike have the same constructs under every parent. -/
theorem Alike.under {parent parent' : Option Anchor} (h : n.Alike m) (hparent : parent = parent') :
    constructsUnder parent n ~ constructsUnder parent' m := by
  rw [constructsUnder_eq, constructsUnder_eq, h.anchor, h.span, hparent]
  exact h.below.append_left _

/-- Nodes stay alike when children that are alike are added to them. -/
theorem Alike.add {n' m' c c' : Node} (h : n.Alike m) (hc : c.Alike c')
    (hanchor : n'.anchor = n.anchor) (hspan : n'.span = n.span)
    (hperm : n'.children ~ c :: n.children) (hanchor' : m'.anchor = m.anchor)
    (hspan' : m'.span = m.span) (hperm' : m'.children ~ c' :: m.children) : n'.Alike m' where
  anchor := by rw [hanchor, hanchor', h.anchor]
  span := by rw [hspan, hspan', h.span]
  below := calc
    n'.constructsBelow
    _ ~ constructsUnder n.anchor c ++ n.constructsBelow := constructsBelow_perm hanchor hperm
    _ ~ constructsUnder m.anchor c' ++ m.constructsBelow := (hc.under h.anchor).append h.below
    _ ~ m'.constructsBelow := (constructsBelow_perm hanchor' hperm').symm

/-- Nodes stay alike when children that are alike are taken from them. -/
theorem Alike.remove {n' m' c c' : Node} (h : n'.Alike m') (hc : c.Alike c')
    (hanchor : n'.anchor = n.anchor) (hspan : n'.span = n.span)
    (hperm : n'.children ~ c :: n.children) (hanchor' : m'.anchor = m.anchor)
    (hspan' : m'.span = m.span) (hperm' : m'.children ~ c' :: m.children) : n.Alike m where
  anchor := by rw [← hanchor, ← hanchor', h.anchor]
  span := by rw [← hspan, ← hspan', h.span]
  below := by
    have hanchors : n.anchor = m.anchor := by rw [← hanchor, ← hanchor', h.anchor]
    refine (List.perm_append_left_iff (constructsUnder n.anchor c)).mp ?_
    calc
      constructsUnder n.anchor c ++ n.constructsBelow
      _ ~ n'.constructsBelow := (constructsBelow_perm hanchor hperm).symm
      _ ~ m'.constructsBelow := h.below
      _ ~ constructsUnder m.anchor c' ++ m.constructsBelow := constructsBelow_perm hanchor' hperm'
      _ ~ constructsUnder n.anchor c ++ m.constructsBelow :=
        (hc.under hanchors).symm.append_right _

end Node

namespace Assembly

variable {a b : Assembly} {n m : Node}

/-- The open nodes of two assemblies are alike. -/
def Alike (a b : Assembly) : Prop := List.Forall₂ Node.Alike a.openNodes b.openNodes

theorem Alike.top (h : a.Alike b) : a.top.Alike b.top := by
  unfold Alike at h
  rw [openNodes_eq a, openNodes_eq b] at h
  cases h with
  | cons h _ => exact h

theorem Alike.symm (h : a.Alike b) : b.Alike a := by
  refine h.flip.imp ?_
  rintro n m ⟨hanchor, hspan, hbelow⟩
  exact ⟨hanchor.symm, hspan.symm, hbelow.symm⟩

theorem Alike.of_eq {a' b' : Assembly} (h : a.Alike b) (ha : a'.openNodes = a.openNodes)
    (hb : b'.openNodes = b.openNodes) : a'.Alike b' := by
  unfold Alike
  rwa [ha, hb]

theorem openNodes_congr {a' : Assembly} (hroot : a'.root = a.root)
    (hframes : a'.frames = a.frames) : a'.openNodes = a.openNodes := by
  rw [openNodes, openNodes, hroot, hframes]

theorem Alike.frames_eq_nil (h : a.Alike b) (hframes : a.frames = []) : b.frames = [] := by
  have hlength := h.length_eq
  simp only [openNodes, hframes, List.map_nil, List.nil_append, List.length_append, List.length_map,
    List.length_singleton] at hlength
  exact List.length_eq_zero_iff.mp (by omega)

/-- Without open bodies, the roots are alike. -/
theorem Alike.root (h : a.Alike b) (hframes : a.frames = []) : a.root.Alike b.root := by
  have htop := h.top
  rwa [Assembly.top, Assembly.top, hframes, h.frames_eq_nil hframes] at htop

/-- The innermost open nodes may be changed as long as they stay alike. -/
theorem Alike.mapTop {f f' : Node → Node} (h : a.Alike b) (htop : (f a.top).Alike (f' b.top)) :
    (a.mapTop f).Alike (b.mapTop f') := by
  unfold Alike at h ⊢
  rw [openNodes_eq a, openNodes_eq b] at h
  rw [openNodes_mapTop, openNodes_mapTop]
  cases h with
  | cons _ h => exact .cons htop h

/-- Tags may be added to one of the innermost open nodes. -/
theorem Alike.addTags (h : a.Alike b) (ts : List Tag) :
    (a.mapTop fun n ↦ { n with tags := n.tags ++ ts }).Alike b := by
  have hmap : (a.mapTop fun n ↦ { n with tags := n.tags ++ ts }).Alike (b.mapTop id) :=
    h.mapTop ⟨h.top.anchor, h.top.span, h.top.below⟩
  refine hmap.of_eq rfl ?_
  rw [openNodes_mapTop, openNodes_eq b]
  rfl

/-- A leaf without an anchor may be added to one of the innermost open nodes. -/
theorem Alike.insertFloating (h : a.Alike b) (tags : List Tag) (span : Span) :
    (a.mapTop (·.insert { tags, span })).Alike b := by
  have hbelow : (a.top.insert { tags, span }).constructsBelow ~ a.top.constructsBelow := by
    have hperm := Node.constructsBelow_perm (n := a.top) (m := a.top.insert { tags, span }) rfl
      (Node.insert_children_perm a.top { tags, span })
    rwa [Node.constructsUnder_floating, List.nil_append] at hperm
  have hmap : (a.mapTop (·.insert { tags, span })).Alike (b.mapTop id) :=
    h.mapTop ⟨h.top.anchor, h.top.span, hbelow.trans h.top.below⟩
  refine hmap.of_eq rfl ?_
  rw [openNodes_mapTop, openNodes_eq b]
  rfl

/-- A comment leaves the constructs. -/
theorem Alike.comment (h : a.Alike b) (tags : List Tag) (span : Span) (depth : Nat) :
    (a.comment tags span depth).Alike b := by
  refine comment_induction (P := fun a ↦ a.Alike b) ?_ ?_ ?_ ?_ h
  · intro a a' hroot hframes _ ha
    exact ha.of_eq (openNodes_congr hroot hframes) rfl
  · exact fun a ts ha ↦ ha.addTags ts
  · exact fun a old _ ha ↦ ha.insertFloating old.tags old.comment
  · exact fun a ts _ _ ha ↦ ha.insertFloating ts span

theorem Alike.anchor (h : a.Alike b) (anchor : Anchor) (depth depth' : Nat) :
    (a.anchor anchor depth).Alike (b.anchor anchor depth') := by
  obtain ⟨a', tags, ha, hakeeps⟩ := a.anchor_eq anchor depth
  obtain ⟨b', tags', hb, hbkeeps⟩ := b.anchor_eq anchor depth'
  have hother : ∀ e c d : Assembly, d.root = c.root → d.frames = c.frames →
      d.lastAnchor = c.lastAnchor → c.Alike e → d.Alike e :=
    fun e c d hroot hframes _ hc ↦ hc.of_eq (openNodes_congr hroot hframes) rfl
  have hleft : a'.Alike b := hakeeps (Alike · b) (hother b) (fun c w _ hc ↦ hc.insertFloating _ _) h
  have h' : a'.Alike b' := (hbkeeps (Alike · a') (hother a')
    (fun c w _ hc ↦ hc.insertFloating _ _) hleft.symm).symm
  rw [ha, hb]
  have hleaf : Node.Alike { Node.ofAnchor anchor with tags }
      { Node.ofAnchor anchor with tags := tags' } := ⟨rfl, rfl, .refl _⟩
  exact Alike.of_eq (h'.mapTop (h'.top.add hleaf rfl rfl (Node.insert_children_perm _ _) rfl rfl
    (Node.insert_children_perm _ _))) rfl rfl

/-- The bodies of the same anchor open alike. -/
theorem Alike.enterBody (h : a.Alike b) {slot slot' : Nat} {anchor : Anchor}
    (ha : a.Poised slot n anchor) (hb : b.Poised slot' m anchor) (p : Position) :
    (a.enterBody p).Alike (b.enterBody p) := by
  have hleaf : n.Alike m := by
    refine ⟨ha.anchored.trans hb.anchored.symm, ha.span.trans hb.span.symm, ?_⟩
    rw [Node.constructsBelow, Node.constructsBelow, ha.empty, hb.empty]
    rfl
  -- what is left of the innermost open nodes is alike, since what is taken away is
  have herase : ∀ {c : Assembly} {k : Nat} {l : Node}, c.top.children[k]? = some l →
      c.top.children ~ l :: c.top.children.eraseIdx k := by
    intro c k l hl
    obtain ⟨hk, rfl⟩ := List.getElem?_eq_some_iff.mp hl
    exact (List.getElem_cons_eraseIdx_perm hk).symm
  have hmap : (a.mapTop fun t ↦ { t with children := t.children.eraseIdx slot }).Alike
      (b.mapTop fun t ↦ { t with children := t.children.eraseIdx slot' }) :=
    h.mapTop (h.top.remove hleaf rfl rfl (herase ha.there) rfl rfl (herase hb.there))
  rw [ha.enterBody_eq p, hb.enterBody_eq p]
  refine List.Forall₂.cons ⟨hleaf.anchor, ?_, hleaf.below⟩ hmap
  rw [hleaf.span]

/-- Bodies that end at the same place go back alike. -/
theorem Alike.leaveBody (h : a.Alike b) (stop : Position) :
    (a.leaveBody stop).Alike (b.leaveBody stop) := by
  unfold Assembly.leaveBody
  cases hfa : a.frames with
  | nil =>
    rw [h.frames_eq_nil hfa]
    exact h
  | cons f frames =>
    cases hfb : b.frames with
    | nil => rw [h.symm.frames_eq_nil hfb] at hfa; cases hfa
    | cons f' frames' =>
      have hopen : List.Forall₂ Node.Alike (f.node :: { a with frames }.openNodes)
          (f'.node :: { b with frames := frames' }.openNodes) := by
        have hopen := h
        unfold Alike at hopen
        rw [openNodes, openNodes, hfa, hfb] at hopen
        exact hopen
      cases hopen with
      | cons hnode hrest =>
        have hrest : { a with frames }.Alike { b with frames := frames' } := hrest
        have hclosed : Node.Alike { f.node with span := { f.node.span with stop } }
            { f'.node with span := { f'.node.span with stop } } :=
          ⟨hnode.anchor, by rw [hnode.span], hnode.below⟩
        have hback : ∀ (cs : List Node) (c : Node) (k : Nat),
            cs.take k ++ c :: cs.drop k ~ c :: cs := fun cs c k ↦
          List.perm_middle.trans (by rw [List.take_append_drop])
        exact Alike.of_eq (hrest.mapTop (hrest.top.add hclosed rfl rfl (hback _ _ _) rfl rfl
          (hback _ _ _))) rfl rfl

theorem Alike.leaveBodies (h : a.Alike b) (stops : List Position) :
    (a.replay (stops.map .bodyLeft)).Alike (b.replay (stops.map .bodyLeft)) := by
  induction stops generalizing a b with
  | nil => exact h
  | cons stop stops ih => exact ih (h.leaveBody stop)

theorem Alike.blockClosed (h : a.Alike b) (depth : Nat) :
    (a.blockClosed depth).Alike (b.blockClosed depth) := by
  obtain ⟨-, hroot, hframes, -⟩ := a.closeWaiting_fields depth a.waiting
  obtain ⟨-, hroot', hframes', -⟩ := b.closeWaiting_fields depth b.waiting
  exact h.of_eq (openNodes_congr hroot hframes) (openNodes_congr hroot' hframes')

end Assembly

/-! ## Bare courses -/

/-- Whether an event comes from the code and not from a comment. -/
def Event.isCode : Event → Bool
  | .comment _ _ _ => false
  | .anchor _ _ | .bracketOpened _ _ | .bracketClosed _ _ | .bodyEntered _ | .bodyLeft _
  | .blockClosed _ => true

/-- The outline that is assembled from the code of a journal alone. -/
def Assembly.ofCode (source : List Char) (journal : List Event) : Assembly :=
  (start source 0).replay (journal.reverse.filter Event.isCode)

theorem Assembly.ofCode_append (source : List Char) (es journal : List Event) :
    ofCode source (es.reverse ++ journal) =
      (ofCode source journal).replay (es.filter Event.isCode) := by
  simp [ofCode, replay_append]

namespace Course

variable {source : List Char} {c d : Course}

/-- The course without its comments. -/
def bare (source : List Char) (c : Course) : Course :=
  { c with
    assembly := .ofCode source c.journal
    journal := c.journal.filter Event.isCode }

theorem bare_send (es : List Event) (c : Course) :
    (c.send es).bare source = (c.bare source).send (es.filter Event.isCode) := by
  simp [bare, send, Assembly.ofCode_append]

theorem filter_isCode_of_isBracket {es : List Event} (h : ∀ e ∈ es, e.isBracket = true) :
    es.filter Event.isCode = es := by
  refine List.filter_eq_self.mpr fun e he ↦ ?_
  cases e <;> first | rfl | cases h _ he

theorem filter_isCode_closing (stops : List Position) (depth : Nat) :
    (Event.closing stops depth).filter Event.isCode = Event.closing stops depth := by
  refine List.filter_eq_self.mpr fun e he ↦ ?_
  rw [Event.closing, List.mem_append, List.mem_map, List.mem_singleton] at he
  rcases he with ⟨stop, -, rfl⟩ | rfl <;> rfl

/-- The latest anchor does not come from a comment. -/
theorem latest?_bare (c : Course) : (c.bare source).latest? = c.latest? := by
  unfold latest? bare
  dsimp only
  induction c.journal with
  | nil => rfl
  | cons e journal ih =>
    cases e <;> simp [List.filter_cons, List.findSome?_cons, Event.isCode, Event.anchor?, ih]

/-- A sound course whose bare copy is sound, too, and has the same constructs. -/
structure Mirrored (source : List Char) (c : Course) : Prop where
  sound : c.Sound
  bare : (c.bare source).Sound
  alike : c.assembly.Alike (.ofCode source c.journal)

/-- The kind that anchors are recognised under is that of the bare copy. -/
theorem Mirrored.enclosingKind? (h : c.Mirrored source) :
    c.assembly.enclosingKind? = (Assembly.ofCode source c.journal).enclosingKind? := by
  have hbare := h.bare.enclosingKind?
  rw [show (c.bare source).assembly = .ofCode source c.journal from rfl] at hbare
  rw [h.sound.enclosingKind?, hbare, Node.kind?, Node.kind?, h.alike.top.anchor]

/-- A course that has been sent events is mirrored if its bare copy, sent those that are code, is
sound and has the same constructs. -/
theorem Mirrored.of_send {es : List Event} (hd : d.Sound)
    (hassembly : d.assembly = c.assembly.replay es) (hjournal : d.journal = es.reverse ++ c.journal)
    (hbare : { (c.bare source).send (es.filter Event.isCode) with
      contexts := d.contexts, awaits := d.awaits, clock := d.clock }.Sound)
    (halike : (c.assembly.replay es).Alike
      ((Assembly.ofCode source c.journal).replay (es.filter Event.isCode))) :
    d.Mirrored source := by
  have heq : d.bare source = { (c.bare source).send (es.filter Event.isCode) with
      contexts := d.contexts, awaits := d.awaits, clock := d.clock } := by
    rw [← bare_send]
    simp only [Course.bare, hjournal, send]
  refine ⟨hd, heq ▸ hbare, ?_⟩
  rw [hassembly, hjournal, Assembly.ofCode_append]
  exact halike

/-- Every move keeps a course mirrored. -/
theorem Move.mirrored (hc : c.Mirrored source) (h : Move source c d) : d.Mirrored source := by
  have hsound := h.sound hc.sound
  cases h with
  | @idle es awaits clock brackets waits later =>
    have hcode := filter_isCode_of_isBracket brackets
    have hmove : Move source (c.bare source) { (c.bare source).send es with awaits, clock } :=
      .idle brackets waits later
    refine .of_send hsound rfl rfl (by rw [hcode]; exact hmove.sound hc.bare) ?_
    rw [hcode, Assembly.replay_brackets brackets, Assembly.replay_brackets brackets]
    exact hc.alike
  | @comment tags span later ordered inside place =>
    refine .of_send hsound rfl rfl ?_ (hc.alike.comment tags span _)
    exact hc.bare.later (.inl rfl) (later.trans ordered) rfl
  | @anchor anchor later ordered kinds place =>
    refine .of_send hsound rfl rfl ?_ (hc.alike.anchor anchor _ _)
    exact hc.bare.anchor later ordered (hc.enclosingKind? ▸ kinds)
  | openBlock later fresh =>
    exact @Mirrored.of_send source c _ [] hsound rfl rfl (hc.bare.openBlock later fresh) hc.alike
  | @enterBody opened indent later waits ready =>
    refine .of_send hsound rfl rfl (hc.bare.enterBody later waits) ?_
    obtain ⟨-, slot, n, anchor, hpoised, hlatest, -⟩ := hc.sound.poised _ waits (Nat.le_refl _)
    obtain ⟨-, slot', n', anchor', hpoised', hlatest', -⟩ := hc.bare.poised _ waits (Nat.le_refl _)
    -- both bodies are those of the latest anchor
    rw [latest?_bare, hlatest] at hlatest'
    cases hlatest'
    exact hc.alike.enterBody hpoised hpoised' opened
  | @close inner outer stops awaits clock split each ordered between later waits =>
    have hcode := filter_isCode_closing stops outer.length
    have hclose := hc.bare.close split each ordered between later waits
    refine .of_send hsound rfl rfl (by rw [hcode]; exact hclose) ?_
    rw [hcode, Event.closing, Assembly.replay_append, Assembly.replay_append]
    exact (hc.alike.leaveBodies stops).blockClosed outer.length

theorem mirrored_start (s : Setup) (source : List Char) :
    (Pass.start s source).course.Mirrored source where
  sound := sound_start s source
  bare := sound_start { s with options := { s.options with maxBlankLines := 0 } } source
  alike := .cons (.refl _) .nil

end Course

namespace Pass

variable {s : Setup} {source : List Char} {p : Pass}

/-- The course of every pass that a scan reaches is mirrored. -/
theorem mirrored_of_reaches (h : Reaches (step s) (start s source) p) : p.course.Mirrored source :=
  (reaches_moves h).1.invariant (fun _ _ hc hm ↦ hm.mirrored hc) (Course.mirrored_start s source)

/-- At the end of the text, the outline and the one of the code alone are alike. -/
theorem closeAll_alike (hreg : p.Regular s.grammar source) (h : p.course.Mirrored source) :
    (p.closeAll s.grammar).assembly.Alike
      (.ofCode source (p.closeAll s.grammar).journal) := by
  have hcode : ∀ stops : List Position,
      (stops.map Event.bodyLeft).filter Event.isCode = stops.map Event.bodyLeft := by
    intro stops
    refine List.filter_eq_self.mpr fun e he ↦ ?_
    obtain ⟨stop, -, rfl⟩ := List.mem_map.mp he
    rfl
  rw [closeAll_eq, flatMap_leaving _ _ hreg.contexts]
  change (p.assembly.replay _).Alike (.ofCode source (_ ++ p.journal))
  rw [Assembly.ofCode_append, hcode]
  exact h.alike.leaveBodies _

end Pass

/-- The constructs of an outline are those that the code alone makes. -/
theorem Setup.constructs_scan (s : Setup) (source : List Char) :
    (s.scan source).outline.root.constructs ~
      ((Assembly.start source 0).replay
        ((s.events source).filter Event.isCode)).root.constructsBelow := by
  obtain ⟨p, hreach, -, hp, hframes, hroot⟩ := s.scan_root source
  have hreg := (Pass.reaches_moves hreach).2
  have hmirrored := Pass.mirrored_of_reaches hreach
  rw [Node.constructs_eq_of_anchor (s.nested_scan source).1, hroot, events, hp]
  exact ((Pass.closeAll_alike hreg hmirrored).root hframes).below

end Marginalia
