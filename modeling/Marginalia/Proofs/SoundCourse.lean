import Marginalia.Proofs.Course
import Marginalia.Proofs.Nested
import Mathlib.Data.List.TakeWhile

/-!
# Sound courses

What ties the open contexts of a scan to its outline: the bodies among the contexts are the frames
of the assembly, tags wait at the depth of a context that is still open, deeper ones later, and an
anchor that waits for its body is still the latest one of the innermost open node. Every move keeps
this.
-/

namespace Marginalia

open scoped List

/-! ## Operations of an assembly -/

namespace Node

theorem take_place_prefix (parent n : Node) :
    ∀ m ∈ parent.children.take (place parent n), m.key ≤ n.key := by
  intro m hm
  rw [place, ← List.prefix_iff_eq_take.mp (List.takeWhile_prefix _)] at hm
  simpa using List.mem_takeWhile_imp hm

theorem place_le (parent n : Node) : place parent n ≤ parent.children.length :=
  (List.takeWhile_prefix _).length_le

/-- A new node comes after all children up to a place whose keys are no greater. -/
theorem lt_place {parent n : Node} {k : Nat} (hk : k < parent.children.length)
    (h : ∀ m ∈ parent.children.take (k + 1), m.key ≤ n.key) : k < place parent n := by
  have happend : (parent.children.take (k + 1) ++ parent.children.drop (k + 1)).takeWhile
      (·.key ≤ n.key) =
      parent.children.take (k + 1) ++ (parent.children.drop (k + 1)).takeWhile (·.key ≤ n.key) :=
    List.takeWhile_append_of_pos fun m hm ↦ decide_eq_true (h m hm)
  rw [List.take_append_drop] at happend
  rw [place, happend, List.length_append, List.length_take_of_le (by omega)]
  omega

theorem getElem?_insert_of_lt {parent n : Node} {k : Nat} (h : k < place parent n) :
    (parent.insert n).children[k]? = parent.children[k]? := by
  have hle := place_le parent n
  rw [insert, List.getElem?_append_left (by rw [List.length_take_of_le hle]; exact h),
    List.getElem?_take_of_lt h]

theorem take_insert_of_lt {parent n : Node} {k : Nat} (h : k < place parent n) :
    (parent.insert n).children.take (k + 1) = parent.children.take (k + 1) := by
  have hle := place_le parent n
  rw [insert, List.take_append_of_le_length (by rw [List.length_take_of_le hle]; exact h),
    List.take_take, Nat.min_eq_left h]

theorem mem_eraseIdx_insert {parent n m : Node} {k : Nat} (h : k < place parent n)
    (hm : m ∈ (parent.insert n).children.eraseIdx k) :
    m = n ∨ m ∈ parent.children.eraseIdx k := by
  have hle := place_le parent n
  rw [insert, List.eraseIdx_append_of_lt_length (by rw [List.length_take_of_le hle]; exact h)] at hm
  have hsplit : parent.children.eraseIdx k =
      (parent.children.take (place parent n)).eraseIdx k ++ parent.children.drop (place parent n) := by
    rw [← List.eraseIdx_append_of_lt_length (by rw [List.length_take_of_le hle]; exact h),
      List.take_append_drop]
  rw [hsplit]
  simp only [List.mem_append, List.mem_cons] at hm ⊢
  tauto

end Node

namespace Assembly

variable {a b : Assembly} {slot clock : Nat} {n m : Node} {anchor : Anchor}

/-- The latest anchor stays poised when only other fields change. -/
theorem Poised.of_eq (h : a.Poised slot n anchor) (htop : b.top.children = a.top.children)
    (hlatest : b.lastAnchor = a.lastAnchor) : b.Poised slot n anchor :=
  ⟨by rw [hlatest]; exact h.latest, by rw [htop]; exact h.there, h.anchored, h.span, h.empty,
    by rw [htop]; exact h.last, by rw [htop]; exact h.keys⟩

/-- A node without an anchor that comes later leaves the latest anchor poised. -/
theorem Poised.insert (h : a.Poised slot n anchor) (hanchor : m.anchor = none)
    (hkey : anchor.span.start.offset ≤ m.key) : (a.mapTop (·.insert m)).Poised slot n anchor := by
  have hlt : slot < Node.place a.top m :=
    Node.lt_place (List.getElem?_eq_some_iff.mp h.there).1
      fun k hk ↦ (h.keys k hk).trans hkey
  refine ⟨by rw [mapTop_lastAnchor]; exact h.latest, ?_, h.anchored, h.span, h.empty, ?_, ?_⟩
  · rw [top_mapTop, Node.getElem?_insert_of_lt hlt]
    exact h.there
  · intro k hk hsome
    rw [top_mapTop] at hk
    rcases Node.mem_eraseIdx_insert hlt hk with rfl | hk
    · rw [hanchor] at hsome
      cases hsome
    · exact h.last k hk hsome
  · rw [top_mapTop, Node.take_insert_of_lt hlt]
    exact h.keys

/-- A new anchor is poised if all others beside it come before it. -/
theorem poised_addAnchor (hanchor : n.anchor = some anchor) (hspan : n.span = anchor.span)
    (hempty : n.children = [])
    (hlast : ∀ m ∈ a.top.children, m.anchor.isSome = true →
      m.span.stop.offset ≤ anchor.span.start.offset) :
    (a.addAnchor n).Poised (Node.place a.top n) n anchor := by
  have htop : (a.addAnchor n).top = a.top.insert n := top_mapTop a _
  have hlen : (a.top.children.take (Node.place a.top n)).length = Node.place a.top n :=
    List.length_take_of_le (Node.place_le _ _)
  have hkey : n.key ≤ anchor.span.start.offset := by
    unfold Node.key
    rw [hanchor, hspan]
    split
    · exact Nat.le_refl _
    · simp_all
    · exact Nat.min_le_right _ _
  refine ⟨rfl, ?_, hanchor, hspan, hempty, ?_, ?_⟩
  · rw [htop, Node.insert, List.getElem?_append_right (Nat.le_of_eq hlen), hlen, Nat.sub_self]
    rfl
  · intro m hm
    rw [htop, Node.insert, List.eraseIdx_append_of_length_le (Nat.le_of_eq hlen), hlen,
      Nat.sub_self, List.eraseIdx_cons_zero, List.take_append_drop] at hm
    exact hlast m hm
  · intro m hm
    rw [htop, Node.insert, List.take_append, hlen, Nat.add_sub_cancel_left, List.mem_append] at hm
    rcases hm with hm | hm
    · exact (Node.take_place_prefix _ _ m (List.mem_of_mem_take hm)).trans hkey
    · rw [List.take_succ_cons, List.take_zero, List.mem_singleton] at hm
      rw [hm]
      exact hkey

/-- Where the bodies of the open anchors have opened, innermost first. -/
def openings (a : Assembly) : List Position := a.frames.map (·.node.span.stop)

theorem openings_mapTop {f : Node → Node} (h : (f a.top).span = a.top.span) :
    (a.mapTop f).openings = a.openings := by
  unfold openings mapTop
  cases hfr : a.frames with
  | nil => rfl
  | cons fr frs =>
    rw [top, hfr] at h
    simp [h]

theorem openings_enterBody (h : a.Poised slot n anchor) (p : Position) :
    (a.enterBody p).openings = p :: a.openings := by
  have hmap := openings_mapTop (a := a)
    (f := fun t ↦ { t with children := t.children.eraseIdx slot }) rfl
  rw [h.enterBody_eq p, ← hmap]
  rfl

theorem openings_leaveBody (stop : Position) : (a.leaveBody stop).openings = a.openings.tail := by
  unfold leaveBody
  split
  · rename_i hfr
    simp [openings, hfr]
  · rename_i f frames hfr
    have h : a.openings.tail = { a with frames }.openings := by simp [openings, hfr]
    rw [h]
    exact openings_mapTop rfl

theorem openings_leaveBodies (stops : List Position) :
    (a.replay (stops.map .bodyLeft)).openings = a.openings.drop stops.length := by
  induction stops generalizing a with
  | nil => rfl
  | cons stop stops ih =>
    change ((a.leaveBody stop).replay (stops.map .bodyLeft)).openings = _
    rw [ih, openings_leaveBody, List.length_cons, ← List.drop_one, List.drop_drop, Nat.add_comm]

/-- Bodies may end one after the other. -/
theorem Nested.leaveBodies {clock' : Nat} (h : a.Nested clock) {stops : List Position}
    (hordered : stops.Pairwise fun p q ↦ p.offset ≤ q.offset)
    (hbetween : ∀ p ∈ stops, clock ≤ p.offset ∧ p.offset ≤ clock') (hle : clock ≤ clock') :
    (a.replay (stops.map .bodyLeft)).Nested clock' := by
  induction stops generalizing a clock with
  | nil => exact h.mono hle
  | cons stop stops ih =>
    obtain ⟨hge, hle'⟩ := hbetween stop List.mem_cons_self
    rw [List.pairwise_cons] at hordered
    refine ih (h.leaveBody hge) hordered.2 ?_ hle'
    intro p hp
    exact ⟨hordered.1 p hp, (hbetween p (List.mem_cons_of_mem _ hp)).2⟩

theorem leaveBodies_waiting (stops : List Position) :
    (a.replay (stops.map .bodyLeft)).waiting = a.waiting := by
  induction stops generalizing a with
  | nil => rfl
  | cons stop stops ih => exact ih.trans (a.leaveBody_waiting stop)

theorem replay_closing (a : Assembly) (stops : List Position) (depth : Nat) :
    a.replay (Event.closing stops depth) =
      (a.replay (stops.map .bodyLeft)).blockClosed depth :=
  replay_append a _ _

theorem replay_brackets {es : List Event} (h : ∀ e ∈ es, e.isBracket = true) : a.replay es = a := by
  induction es with
  | nil => rfl
  | cons e es ih =>
    have he := h e List.mem_cons_self
    have happly : a.apply e = a := by cases e <;> first | rfl | cases he
    change (a.apply e).replay es = a
    rw [happly]
    exact ih fun f hf ↦ h f (List.mem_cons_of_mem _ hf)

/-- A block that closes takes away the tags that wait deeper and changes no open node. -/
theorem closeWaiting_fields (a : Assembly) (depth : Nat) (ws : List Waiting) :
    (a.closeWaiting depth ws).waiting = ws.dropWhile (depth < ·.depth) ∧
      (a.closeWaiting depth ws).root = a.root ∧ (a.closeWaiting depth ws).frames = a.frames ∧
      (a.closeWaiting depth ws).lastAnchor = a.lastAnchor := by
  fun_induction closeWaiting a depth ws with
  | case1 => exact ⟨rfl, rfl, rfl, rfl⟩
  | case2 a w ws h ih =>
    rw [List.dropWhile_cons_of_pos (by simpa using h)]
    exact ih
  | case3 a w ws h =>
    rw [List.dropWhile_cons_of_neg (by simpa using h)]
    exact ⟨rfl, rfl, rfl, rfl⟩

/-- Once the tags for the enclosing anchor are attached, what tags left in place and tags put in
place keep, a comment keeps. -/
theorem comment_induction_of_enclosing {P : Assembly → Prop} {tags : List Tag} {span : Span}
    {depth : Nat}
    (hother : ∀ b c : Assembly, c.root = b.root → c.frames = b.frames →
      c.lastAnchor = b.lastAnchor → P b → P c)
    (hold : ∀ b old, a.waitingAt? depth = some old → P b →
      P (b.mapTop (·.insert { tags := old.tags, span := old.comment })))
    (hfree : ∀ b, (tags.filter (·.placement = .freeFloating)).map Tag.resolve ≠ [] → P b →
      P (b.mapTop (·.insert
        { tags := (tags.filter (·.placement = .freeFloating)).map Tag.resolve, span })))
    (henclosing : P (a.attachEnclosing tags)) : P (a.comment tags span depth) := by
  have hawait : P ((a.attachEnclosing tags).awaitAnchor tags span depth) := by
    unfold awaitAnchor
    dsimp only
    split
    · exact henclosing
    · cases hw : (a.attachEnclosing tags).waitingAt? depth with
      | none => exact hother (a.attachEnclosing tags) _ rfl rfl rfl henclosing
      | some old =>
        have hw' : a.waitingAt? depth = some old := by
          rw [waitingAt?, attachEnclosing_waiting] at hw
          exact hw
        have hreport := hother (a.attachEnclosing tags) ((a.attachEnclosing tags).dropWaiting.report
          old.tags "superseded by a later comment block") rfl rfl rfl henclosing
        exact hother ((a.attachEnclosing tags).dropWaiting.fallBack old
          "superseded by a later comment block") _ rfl rfl rfl (hold _ old hw' hreport)
  unfold comment placeFree
  dsimp only
  split
  · exact hawait
  · rename_i hne
    exact hfree _ (by simpa using hne) hawait

/-- What tags added to the innermost open node, tags left in place, and tags put in place keep, a
comment keeps. -/
theorem comment_induction {P : Assembly → Prop} {tags : List Tag} {span : Span} {depth : Nat}
    (hother : ∀ b c : Assembly, c.root = b.root → c.frames = b.frames →
      c.lastAnchor = b.lastAnchor → P b → P c)
    (htags : ∀ b ts, P b → P (b.mapTop fun n ↦ { n with tags := n.tags ++ ts }))
    (hold : ∀ b old, a.waitingAt? depth = some old → P b →
      P (b.mapTop (·.insert { tags := old.tags, span := old.comment })))
    (hfree : ∀ b ts, ts ≠ [] → (∀ t ∈ ts, ∃ u ∈ tags, t.span = u.span) → P b →
      P (b.mapTop (·.insert { tags := ts, span })))
    (ha : P a) : P (a.comment tags span depth) := by
  refine comment_induction_of_enclosing hother hold (fun b hne hb ↦ hfree b _ hne ?_ hb)
    (htags a _ ha)
  intro t ht
  obtain ⟨u, hu, rfl⟩ := List.mem_map.mp ht
  exact ⟨u, (List.mem_filter.mp hu).1, rfl⟩

/-- Tags for the next anchor wait from then on, in the place of those that waited at the same
depth. -/
theorem comment_waiting (tags : List Tag) (span : Span) (depth : Nat) :
    (a.comment tags span depth).waiting =
      if (tags.filter (·.placement = .nextAnchor)).isEmpty then a.waiting
      else ⟨tags.filter (·.placement = .nextAnchor), span, depth⟩ ::
        if (a.waitingAt? depth).isSome then a.waiting.tail else a.waiting := by
  have hw : (a.attachEnclosing tags).waitingAt? depth = a.waitingAt? depth := by
    simp [waitingAt?]
  rw [comment, placeFree_waiting, awaitAnchor]
  dsimp only
  split
  · simp
  · rw [hw]
    cases a.waitingAt? depth with
    | none => simp
    | some old => simp [dropWaiting]

theorem mem_waiting_comment {tags : List Tag} {span : Span} {depth : Nat} {w : Waiting}
    (h : w ∈ (a.comment tags span depth).waiting) :
    w ∈ a.waiting ∨ tags.filter (·.placement = .nextAnchor) ≠ [] ∧
      w = ⟨tags.filter (·.placement = .nextAnchor), span, depth⟩ := by
  rw [comment_waiting] at h
  split at h
  · exact .inl h
  · rename_i hne
    rw [List.mem_cons] at h
    rcases h with rfl | h
    · exact .inr ⟨by simpa using hne, rfl⟩
    · split at h
      · exact .inl (List.mem_of_mem_tail h)
      · exact .inl h

/-- An anchor is added to the innermost open node of an assembly that keeps what tags left in place
and tags put in place keep. -/
theorem anchor_eq (a : Assembly) (anchor : Anchor) (depth : Nat) :
    ∃ (b : Assembly) (tags : List Tag),
      a.anchor anchor depth = b.addAnchor { Node.ofAnchor anchor with tags } ∧
      ∀ P : Assembly → Prop, (∀ c d : Assembly, d.root = c.root → d.frames = c.frames →
          d.lastAnchor = c.lastAnchor → P c → P d) →
        (∀ c w, a.waitingAt? depth = some w → P c →
          P (c.mapTop (·.insert { tags := w.tags, span := w.comment }))) →
        P a → P b := by
  unfold Assembly.anchor
  cases hw : a.waitingAt? depth with
  | none => exact ⟨a, [], rfl, fun _ _ _ ha ↦ ha⟩
  | some w =>
    dsimp only
    split
    · refine ⟨a.dropWaiting.fallBack w _, [], rfl, fun P hother hold ha ↦ ?_⟩
      exact hold _ w rfl (hother a _ rfl rfl rfl ha)
    · exact ⟨a.dropWaiting, _, rfl, fun P hother _ ha ↦ hother a _ rfl rfl rfl ha⟩

theorem anchor_waiting (anchor : Anchor) (depth : Nat) :
    (a.anchor anchor depth).waiting =
      if (a.waitingAt? depth).isSome then a.waiting.tail else a.waiting := by
  unfold Assembly.anchor
  cases a.waitingAt? depth with
  | none => simp
  | some w =>
    dsimp only
    split <;> simp [dropWaiting]

/-- Asking for the latest tags takes away none but them. -/
theorem waiting_left_sublist (a : Assembly) (depth : Nat) :
    (if (a.waitingAt? depth).isSome then a.waiting.tail else a.waiting).Sublist a.waiting := by
  split
  · exact List.tail_sublist _
  · exact List.Sublist.refl _

/-- An assembly in order, with the same innermost open node and the same open bodies as another one,
apart from what these hold. -/
structure Refills (clock : Nat) (a b : Assembly) : Prop where
  nested : b.Nested clock
  anchor : b.top.anchor = a.top.anchor
  span : b.top.span = a.top.span
  openings : b.openings = a.openings

theorem Refills.of_eq {d : Assembly} (h : Refills clock a b) (hroot : d.root = b.root)
    (hframes : d.frames = b.frames) : Refills clock a d := by
  have htop : d.top = b.top := by rw [top, hroot, hframes, ← top]
  have hopenings : d.openings = b.openings := by rw [Assembly.openings, Assembly.openings, hframes]
  exact ⟨h.nested.of_eq hroot hframes, htop ▸ h.anchor, htop ▸ h.span, hopenings.trans h.openings⟩

/-- The innermost open node may be changed if it stays in order. -/
theorem Refills.mapTop {f : Node → Node} (h : Refills clock a b)
    (hnested : (b.mapTop f).Nested clock) (hanchor : (f b.top).anchor = b.top.anchor)
    (hspan : (f b.top).span = b.top.span) : Refills clock a (b.mapTop f) := by
  refine ⟨hnested, ?_, ?_, ?_⟩
  · rw [top_mapTop, hanchor, h.anchor]
  · rw [top_mapTop, hspan, h.span]
  · rw [openings_mapTop hspan, h.openings]

/-- Tags may be put in place in the innermost open node, behind its start. -/
theorem Refills.insertTags {tags : List Tag} {span : Span} (h : Refills clock a b)
    (hne : tags ≠ []) (hordered : span.start.offset ≤ span.stop.offset)
    (hstart : a.top.span.start.offset ≤ span.start.offset) (hstop : span.stop.offset ≤ clock) :
    Refills clock a (b.mapTop (·.insert { tags, span })) := by
  refine h.mapTop (h.nested.insert (Node.wellNested_floating hne hordered) ?_ hstop
    (fun d _ hnone ↦ by cases hnone) (fun _ ↦ by simp [Node.kind?])) rfl rfl
  rw [h.span]
  exact hstart

end Assembly

/-- Where deeper tags wait later and none wait deeper than `depth`, those left after the latest has
been asked for wait less deep. -/
theorem Assembly.depth_lt_of_waitingAt? {a : Assembly} {depth : Nat}
    (hdeeper : a.waiting.Pairwise fun v w ↦ w.depth < v.depth)
    (hle : ∀ w ∈ a.waiting, w.depth ≤ depth) :
    ∀ w ∈ (if (a.waitingAt? depth).isSome then a.waiting.tail else a.waiting), w.depth < depth := by
  unfold waitingAt?
  cases hw : a.waiting with
  | nil => simp
  | cons v ws =>
    rw [hw, List.pairwise_cons] at hdeeper
    have hv := hle v (by rw [hw]; exact List.mem_cons_self)
    by_cases heq : v.depth = depth
    · simp only [List.head?_cons, Option.filter, heq, decide_true, if_true, Option.isSome_some,
        List.tail_cons]
      exact fun w hmem ↦ heq ▸ hdeeper.1 w hmem
    · simp only [List.head?_cons, Option.filter, heq, decide_false, Bool.false_eq_true, if_false,
        Option.isSome_none]
      intro w hmem
      rw [List.mem_cons] at hmem
      rcases hmem with rfl | hmem
      · omega
      · exact (hdeeper.1 w hmem).trans_le hv

/-- Where deeper tags wait later, those that go on waiting when a block closes are those that wait
no deeper than it. -/
theorem dropWhile_deeper {depth : Nat} {ws : List Waiting}
    (hdeeper : ws.Pairwise fun v w ↦ w.depth < v.depth) :
    ws.dropWhile (depth < ·.depth) = ws.filter (·.depth ≤ depth) := by
  induction ws with
  | nil => rfl
  | cons v ws ih =>
    rw [List.pairwise_cons] at hdeeper
    by_cases hv : depth < v.depth
    · rw [List.dropWhile_cons_of_pos (by simpa using hv),
        List.filter_cons_of_neg (by simpa using hv), ih hdeeper.2]
    · rw [List.dropWhile_cons_of_neg (by simpa using hv), eq_comm, List.filter_eq_self]
      intro w hw
      rw [List.mem_cons] at hw
      rcases hw with rfl | hw
      · exact decide_eq_true (by omega)
      · have := hdeeper.1 w hw
        exact decide_eq_true (by omega)

theorem Assembly.closing_waiting {a : Assembly}
    (hdeeper : a.waiting.Pairwise fun v w ↦ w.depth < v.depth) (stops : List Position)
    (depth : Nat) :
    (a.replay (Event.closing stops depth)).waiting = a.waiting.filter (·.depth ≤ depth) := by
  rw [replay_closing, blockClosed, (closeWaiting_fields _ _ _).1, leaveBodies_waiting,
    dropWhile_deeper hdeeper]

/-! ## Soundness -/

namespace Event

/-- The anchor that an event brings. -/
def anchor? : Event → Option Anchor
  | .anchor a _ => some a
  | .comment _ _ _ | .bracketOpened _ _ | .bracketClosed _ _ | .bodyEntered _ | .bodyLeft _
  | .blockClosed _ => none

theorem anchor?_of_isBracket {e : Event} (h : e.isBracket = true) : e.anchor? = none := by
  cases e <;> first | rfl | cases h

theorem anchor?_of_mem_closing (stops : List Position) (depth : Nat) :
    ∀ e ∈ closing stops depth, e.anchor? = none := by
  intro e he
  rw [closing, List.mem_append, List.mem_map, List.mem_singleton] at he
  rcases he with ⟨stop, -, rfl⟩ | rfl <;> rfl

end Event

/-- Tags that wait are those of a comment that has been dealt with, at the depth of a context that
is still open: all contexts down to that depth were open before it. -/
structure Waiting.Timely (contexts : List Context) (clock : Nat) (w : Waiting) : Prop where
  depth : w.depth ≤ contexts.length
  tags : w.tags ≠ []
  ordered : w.comment.start.offset ≤ w.comment.stop.offset
  past : w.comment.stop.offset ≤ clock
  inside : ∀ t ∈ w.tags, w.comment.start.offset ≤ t.span.start.offset
  inner : ∀ x ∈ contexts.drop (contexts.length - w.depth),
    x.opened.offset ≤ w.comment.start.offset

theorem Waiting.Timely.mono {contexts : List Context} {clock clock' : Nat}
    {w : Waiting} (h : w.Timely contexts clock) (hle : clock ≤ clock') :
    w.Timely contexts clock' :=
  { h with past := h.past.trans hle }

namespace Course

variable {source : List Char} {c d : Course}

/-- The latest anchor that has been found. -/
def latest? (c : Course) : Option Anchor := c.journal.findSome? Event.anchor?

/-- Events without an anchor leave the latest one. -/
theorem latest?_send {es : List Event} (h : ∀ e ∈ es, e.anchor? = none) (c : Course) :
    (c.send es).latest? = c.latest? := by
  have hnone : es.reverse.findSome? Event.anchor? = none :=
    List.findSome?_eq_none_iff.mpr fun e he ↦ h e (List.mem_reverse.mp he)
  rw [latest?, send, List.findSome?_append, hnone, Option.none_or]
  rfl

/-- The anchor that waits at a depth for its body is poised: it is the latest one, no body has
opened since it came, and the tags that wait as deep or deeper came after it. -/
structure Poised (depth : Nat) (c : Course) : Prop where
  blocks : ∀ x ∈ c.contexts.take (c.contexts.length - depth), x.isBody = false
  poised : ∃ slot n anchor, c.assembly.Poised slot n anchor ∧ c.latest? = some anchor ∧
    ∀ w ∈ c.assembly.waiting, depth ≤ w.depth →
      anchor.span.start.offset ≤ w.comment.start.offset

/-- The ties between the open contexts, the outline in the making and the wait for a body. -/
structure Sound (c : Course) : Prop where
  nested : c.assembly.Nested c.clock
  bodies : c.assembly.openings = (c.contexts.filter Context.isBody).map (·.opened)
  opened : ∀ x ∈ c.contexts, x.opened.offset ≤ c.clock
  deeper : c.assembly.waiting.Pairwise fun v w ↦ w.depth < v.depth
  timely : ∀ w ∈ c.assembly.waiting, w.Timely c.contexts c.clock
  poised : ∀ depth, c.awaits = some depth → depth ≤ c.contexts.length → c.Poised depth

theorem sound_start (s : Setup) (source : List Char) : (Pass.start s source).course.Sound where
  nested := Assembly.nested_start source s.options.maxBlankLines
  bodies := rfl
  opened x hx := by cases hx
  deeper := .nil
  timely w hw := by cases hw
  poised depth hd := by cases hd

/-- Time passes, and the wait for a body may end. -/
theorem Sound.later (h : c.Sound) {awaits : Option Nat} {clock : Nat} {journal : List Event}
    (hawaits : awaits = c.awaits ∨ awaits = none) (hle : c.clock ≤ clock)
    (hlatest : { c with journal }.latest? = c.latest?) :
    { c with awaits, clock, journal }.Sound where
  nested := h.nested.mono hle
  bodies := h.bodies
  opened x hx := (h.opened x hx).trans hle
  deeper := h.deeper
  timely w hw := (h.timely w hw).mono hle
  poised depth hd hdepth := by
    rcases hawaits with ha | ha
    · obtain ⟨hblocks, slot, n, anchor, hpoised, hsame, hlate⟩ := h.poised depth (ha ▸ hd) hdepth
      exact ⟨hblocks, slot, n, anchor, hpoised, hlatest.trans hsame, hlate⟩
    · rw [show awaits = some depth from hd] at ha
      cases ha

/-- The innermost open node starts before any offset that all open contexts come before. -/
theorem Sound.top_start_le (h : c.Sound) {t : Nat} (ht : ∀ x ∈ c.contexts, x.opened.offset ≤ t) :
    c.assembly.top.span.start.offset ≤ t := by
  have hbodies := h.bodies
  unfold Assembly.openings at hbodies
  cases hfr : c.assembly.frames with
  | nil =>
    have hroot : c.assembly.top = c.assembly.root := by simp [Assembly.top, hfr]
    rw [hroot, h.nested.root_start]
    exact Nat.zero_le t
  | cons f fs =>
    have htop : c.assembly.top = f.node := by simp [Assembly.top, hfr]
    have hchain := h.nested.chain
    obtain ⟨parent, rest, hopen⟩ :
        ∃ parent rest, fs.map (·.node) ++ [c.assembly.root] = parent :: rest := by
      cases fs <;> exact ⟨_, _, rfl⟩
    rw [Assembly.openNodes, hfr, List.map_cons, List.cons_append, hopen,
      List.isChain_cons_cons] at hchain
    rw [hfr, List.map_cons] at hbodies
    have hmem : f.node.span.stop ∈ (c.contexts.filter Context.isBody).map (·.opened) := by
      rw [← hbodies]
      exact List.mem_cons_self
    obtain ⟨x, hx, hxo⟩ := List.mem_map.mp hmem
    rw [htop]
    exact hchain.1.ordered.trans (hxo ▸ ht x (List.mem_filter.mp hx).1)

/-- The kind that anchors are recognised under is that of the innermost open node. -/
theorem Sound.enclosingKind? (h : c.Sound) :
    c.assembly.enclosingKind? = c.assembly.top.kind? := by
  unfold Assembly.enclosingKind? Assembly.top Node.kind?
  split
  · rw [h.nested.root_anchor]
    rfl
  · rfl

/-- The latest anchor can take a body as long as it waits for one at the depth of the scan. -/
theorem Sound.canEnterBody (h : c.Sound) (hwaits : c.awaits = some c.contexts.length) :
    c.assembly.canEnterBody = true := by
  obtain ⟨-, slot, n, anchor, hpoised, -, -⟩ := h.poised _ hwaits (Nat.le_refl _)
  simp [Assembly.canEnterBody, hpoised.latest, hpoised.there, hpoised.anchored]

/-! ## Moves -/

theorem Timely.push {contexts : List Context} {clock : Nat} {w : Waiting} (x : Context)
    (h : w.Timely contexts clock) : w.Timely (x :: contexts) clock := by
  have hdepth := h.depth
  refine { h with depth := by rw [List.length_cons]; omega, inner := ?_ }
  rw [List.length_cons, show contexts.length + 1 - w.depth = contexts.length - w.depth + 1 by omega]
  exact h.inner

theorem Sound.openBlock (h : c.Sound) {pair : Nat} {opened : Position}
    (later : c.clock ≤ opened.offset)
    (fresh : ∀ depth, c.awaits = some depth → depth ≤ c.contexts.length) :
    { c with contexts := .block pair opened :: c.contexts, clock := opened.offset }.Sound where
  nested := h.nested.mono later
  bodies := h.bodies
  opened := by
    intro x hx
    rw [List.mem_cons] at hx
    rcases hx with rfl | hx
    · exact Nat.le_refl _
    · exact (h.opened x hx).trans later
  deeper := h.deeper
  timely w hw := Timely.push _ ((h.timely w hw).mono later)
  poised := by
    intro depth hd _
    obtain ⟨hblocks, hpoised⟩ := h.poised depth hd (fresh depth hd)
    have hle := fresh depth hd
    refine ⟨?_, hpoised⟩
    intro x hx
    rw [List.length_cons, Nat.sub_add_comm hle, List.take_succ_cons, List.mem_cons] at hx
    rcases hx with rfl | hx
    · rfl
    · exact hblocks x hx

theorem Sound.enterBody (h : c.Sound) {opened : Position} {indent : Option Nat}
    (later : c.clock ≤ opened.offset) (waits : c.awaits = some c.contexts.length) :
    { c.send [.bodyEntered opened] with
      contexts := .body opened indent :: c.contexts, awaits := none,
      clock := opened.offset }.Sound := by
  obtain ⟨-, slot, n, anchor, hpoised, -, -⟩ := h.poised _ waits (Nat.le_refl _)
  have hwaiting : (c.assembly.enterBody opened).waiting = c.assembly.waiting :=
    c.assembly.enterBody_waiting opened
  refine ⟨h.nested.enterBody hpoised later, ?_, ?_, ?_, ?_, ?_⟩
  · change (c.assembly.enterBody opened).openings = _
    rw [Assembly.openings_enterBody hpoised, h.bodies]
    rfl
  · intro x hx
    rw [List.mem_cons] at hx
    rcases hx with rfl | hx
    · exact Nat.le_refl _
    · exact (h.opened x hx).trans later
  · change (c.assembly.enterBody opened).waiting.Pairwise _
    rw [hwaiting]
    exact h.deeper
  · intro w hw
    rw [show (c.send [.bodyEntered opened]).assembly.waiting = _ from hwaiting] at hw
    exact Timely.push _ ((h.timely w hw).mono later)
  · intro depth hd
    cases hd

theorem Timely.drop {inner outer : List Context} {clock : Nat} {w : Waiting}
    (h : w.Timely (inner ++ outer) clock) (hdepth : w.depth ≤ outer.length) :
    w.Timely outer clock := by
  refine { h with depth := hdepth, inner := ?_ }
  have hinner := h.inner
  rwa [List.length_append, Nat.add_sub_assoc hdepth, List.drop_length_add_append] at hinner

/-- No body opens after an anchor that still waits for its own: none is among the contexts that
close down to its depth, nor among those left above it. -/
theorem Sound.isBody_of_awaits (h : c.Sound) {inner outer : List Context} {depth : Nat}
    (split : c.contexts = inner ++ outer) (hawaits : c.awaits = some depth)
    (hdepth : depth ≤ outer.length) :
    inner.countP Context.isBody = 0 ∧
      ∀ x ∈ outer.take (outer.length - depth), x.isBody = false := by
  have hblocks := (h.poised depth hawaits (by rw [split, List.length_append]; omega)).blocks
  rw [split, List.length_append, Nat.add_sub_assoc hdepth, List.take_length_add_append] at hblocks
  refine ⟨List.countP_eq_zero.mpr fun x hx ↦ ?_, fun x hx ↦ hblocks x (List.mem_append_right _ hx)⟩
  rw [hblocks x (List.mem_append_left _ hx)]
  exact Bool.false_ne_true

theorem Sound.close (h : c.Sound) {inner outer : List Context} {stops : List Position}
    {awaits : Option Nat} {clock : Nat} (split : c.contexts = inner ++ outer)
    (each : stops.length = inner.countP Context.isBody)
    (ordered : stops.Pairwise fun p q ↦ p.offset ≤ q.offset)
    (between : ∀ p ∈ stops, c.clock ≤ p.offset ∧ p.offset ≤ clock) (later : c.clock ≤ clock)
    (waits : awaits = c.awaits ∨ awaits = none) :
    { c.send (Event.closing stops outer.length) with contexts := outer, awaits, clock }.Sound := by
  have hfilter := Assembly.closing_waiting h.deeper stops outer.length
  have hmem : ∀ w ∈ (c.assembly.replay (Event.closing stops outer.length)).waiting,
      w ∈ c.assembly.waiting ∧ w.depth ≤ outer.length := by
    intro w hwm
    rw [hfilter, List.mem_filter] at hwm
    exact ⟨hwm.1, of_decide_eq_true hwm.2⟩
  have hassembly := c.assembly.replay_closing stops outer.length
  generalize hleft : c.assembly.replay (stops.map .bodyLeft) = left at hassembly
  rw [hassembly] at hfilter hmem
  replace hassembly : (c.send (Event.closing stops outer.length)).assembly =
      left.blockClosed outer.length := hassembly
  obtain ⟨-, hroot, hframes, hlatest⟩ := left.closeWaiting_fields outer.length left.waiting
  refine ⟨?_, ?_, ?_, ?_, ?_, ?_⟩
  · rw [hassembly]
    refine Assembly.Nested.of_eq ?_ hroot hframes
    rw [← hleft]
    exact h.nested.leaveBodies ordered between later
  · rw [hassembly, Assembly.openings, Assembly.blockClosed, hframes, ← Assembly.openings, ← hleft,
      Assembly.openings_leaveBodies, h.bodies, split, List.filter_append, List.map_append, each,
      List.countP_eq_length_filter]
    exact List.drop_left' (List.length_map _)
  · intro x hx
    exact (h.opened x (by rw [split]; exact List.mem_append_right _ hx)).trans later
  · rw [hassembly, hfilter]
    exact h.deeper.filter _
  · intro w hwm
    rw [hassembly] at hwm
    obtain ⟨hwc, hdepth⟩ := hmem w hwm
    exact Timely.drop (split ▸ (h.timely w hwc).mono later) hdepth
  · intro depth hd hdepth
    have hsame : c.awaits = some depth := by
      rcases waits with ha | ha
      · exact ha ▸ hd
      · rw [show awaits = some depth from hd] at ha
        cases ha
    obtain ⟨hinner, hblocks⟩ := h.isBody_of_awaits split hsame hdepth
    have hnone : stops = [] := List.length_eq_zero_iff.mp (each.trans hinner)
    obtain ⟨-, slot, n, anchor, hpoised, hfound, hlate⟩ := h.poised depth hsame
      (by rw [split, List.length_append]; exact Nat.le_add_left_of_le hdepth)
    have htop : (left.blockClosed outer.length).top = c.assembly.top := by
      rw [hnone] at hleft
      rw [Assembly.top, Assembly.blockClosed, hframes, hroot, ← hleft]
      rfl
    refine ⟨hblocks, slot, n, anchor, ?_, ?_, ?_⟩
    · rw [hassembly]
      refine hpoised.of_eq (by rw [htop]) ?_
      rw [Assembly.blockClosed, hlatest, ← hleft, hnone]
      rfl
    · exact (latest?_send (Event.anchor?_of_mem_closing stops outer.length) c).trans hfound
    · rw [hassembly]
      intro w hwm
      exact hlate w (hmem w hwm).1

/-- An anchor that waits for its body has been dealt with. -/
theorem Sound.anchor_start_le (h : c.Sound) {slot : Nat} {n : Node} {anchor : Anchor}
    (hp : c.assembly.Poised slot n anchor) : anchor.span.start.offset ≤ c.clock := by
  have hmem : n ∈ c.assembly.top.children := List.mem_of_getElem? hp.there
  have hordered := (Node.wellNested_iff.mp (h.nested.top_open.2 n hmem)).1.ordered
  rw [← hp.span]
  exact hordered.trans (h.nested.top_open.1.inside n hmem).2

/-- Tags that stop waiting at the depth of the scan may be left in the innermost open node. -/
theorem Sound.fallBack (h : c.Sound) {w : Waiting}
    (hw : c.assembly.waitingAt? c.contexts.length = some w) {a : Assembly} {clock : Nat}
    (ha : c.assembly.Refills clock a) (hle : c.clock ≤ clock) :
    c.assembly.Refills clock (a.mapTop (·.insert { tags := w.tags, span := w.comment })) := by
  obtain ⟨hdepth, hwaiting⟩ := Assembly.waiting_of_waitingAt? hw
  have ht := h.timely w (by rw [hwaiting]; exact List.mem_cons_self)
  have hinner := ht.inner
  rw [hdepth, Nat.sub_self, List.drop_zero] at hinner
  exact ha.insertTags ht.tags ht.ordered (h.top_start_le hinner) (ht.past.trans hle)

theorem key_floating {tags : List Tag} {span : Span} {t : Nat} (hne : tags ≠ [])
    (h : ∀ u ∈ tags, t ≤ u.span.start.offset) : t ≤ Node.key { tags, span } := by
  cases tags with
  | nil => exact absurd rfl hne
  | cons u us => exact h u List.mem_cons_self

/-! ### Comments -/

section Comment

variable {tags : List Tag} {span : Span}

/-- A comment only changes what the innermost open node holds. -/
theorem Sound.refills_comment (h : c.Sound) (later : c.clock ≤ span.start.offset)
    (ordered : span.start.offset ≤ span.stop.offset) :
    c.assembly.Refills span.stop.offset (c.assembly.comment tags span c.contexts.length) := by
  have hclock : c.clock ≤ span.stop.offset := later.trans ordered
  have hstart : c.assembly.top.span.start.offset ≤ span.start.offset :=
    h.top_start_le fun x hx ↦ (h.opened x hx).trans later
  refine Assembly.comment_induction (P := c.assembly.Refills span.stop.offset)
    (fun b b' hroot hframes _ hb ↦ hb.of_eq hroot hframes) (fun b ts hb ↦ ?_)
    (fun b old hold hb ↦ h.fallBack hold hb hclock)
    (fun b ts hne _ hb ↦ hb.insertTags hne ordered hstart (Nat.le_refl _))
    ⟨h.nested.mono hclock, rfl, rfl, rfl⟩
  exact hb.mapTop (hb.nested.mapTop rfl rfl
    (hb.nested.top_open.remove rfl rfl (List.Sublist.refl _))) rfl rfl

/-- The tags that wait after a comment are those that waited before it, and its own. -/
theorem Sound.timely_comment (h : c.Sound) (later : c.clock ≤ span.start.offset)
    (ordered : span.start.offset ≤ span.stop.offset)
    (inside : ∀ t ∈ tags, span.start.offset ≤ t.span.start.offset) {w : Waiting}
    (hw : w ∈ (c.assembly.comment tags span c.contexts.length).waiting) :
    w.Timely c.contexts span.stop.offset := by
  rcases Assembly.mem_waiting_comment hw with hw | ⟨hne, rfl⟩
  · exact (h.timely w hw).mono (later.trans ordered)
  · exact ⟨Nat.le_refl _, hne, ordered, Nat.le_refl _,
      fun t ht ↦ inside t (List.mem_filter.mp ht).1,
      fun x hx ↦ (h.opened x (List.mem_of_mem_drop hx)).trans later⟩

/-- The tags of a comment wait deeper than those that go on waiting. -/
theorem Sound.deeper_comment (h : c.Sound) :
    (c.assembly.comment tags span c.contexts.length).waiting.Pairwise
      fun v w ↦ w.depth < v.depth := by
  rw [Assembly.comment_waiting]
  split
  · exact h.deeper
  · exact List.pairwise_cons.mpr
      ⟨c.assembly.depth_lt_of_waitingAt? h.deeper fun w hw ↦ (h.timely w hw).depth,
        h.deeper.sublist (c.assembly.waiting_left_sublist _)⟩

/-- A comment leaves the anchor poised that waits for its body: the tags that it puts in place, and
those that it leaves there, come after the anchor. -/
theorem Sound.poised_comment (h : c.Sound) (later : c.clock ≤ span.start.offset)
    (inside : ∀ t ∈ tags, span.start.offset ≤ t.span.start.offset) {slot : Nat} {n : Node}
    {anchor : Anchor} (hpoised : c.assembly.Poised slot n anchor)
    (hlate : ∀ w ∈ c.assembly.waiting, c.contexts.length ≤ w.depth →
      anchor.span.start.offset ≤ w.comment.start.offset) :
    (c.assembly.comment tags span c.contexts.length).Poised slot n anchor := by
  have hstart := (h.anchor_start_le hpoised).trans later
  refine Assembly.comment_induction (P := (·.Poised slot n anchor)) ?_ ?_ ?_ ?_ hpoised
  · intro b b' hroot hframes hlatest hb
    exact hb.of_eq (by rw [Assembly.top, hroot, hframes]; rfl) hlatest
  · intro b ts hb
    exact hb.of_eq (by rw [Assembly.top_mapTop]) (Assembly.mapTop_lastAnchor _ _)
  · intro b old hold hb
    obtain ⟨hdepth, hwaiting⟩ := Assembly.waiting_of_waitingAt? hold
    have hold : old ∈ c.assembly.waiting := by rw [hwaiting]; exact List.mem_cons_self
    have ht := h.timely old hold
    exact hb.insert rfl (key_floating ht.tags fun t ht' ↦
      (hlate old hold (Nat.le_of_eq hdepth.symm)).trans (ht.inside t ht'))
  · intro b ts hne hspan hb
    refine hb.insert rfl (key_floating hne fun t ht ↦ ?_)
    obtain ⟨u, hu, heq⟩ := hspan t ht
    rw [heq]
    exact hstart.trans (inside u hu)

theorem Sound.comment (h : c.Sound) (later : c.clock ≤ span.start.offset)
    (ordered : span.start.offset ≤ span.stop.offset)
    (inside : ∀ t ∈ tags, span.start.offset ≤ t.span.start.offset) :
    { c.send [.comment tags span c.contexts.length] with clock := span.stop.offset }.Sound where
  nested := (h.refills_comment later ordered).nested
  bodies := (h.refills_comment later ordered).openings.trans h.bodies
  opened x hx := (h.opened x hx).trans (later.trans ordered)
  deeper := h.deeper_comment
  timely _ hw := h.timely_comment later ordered inside hw
  poised depth hawaits hdepth := by
    obtain ⟨hblocks, slot, n, anchor, hpoised, hlatest, hlate⟩ := h.poised depth hawaits hdepth
    refine ⟨hblocks, slot, n, anchor,
      h.poised_comment later inside hpoised fun w hw hle ↦ hlate w hw (hdepth.trans hle), hlatest,
      fun w hw hdw ↦ ?_⟩
    rcases Assembly.mem_waiting_comment hw with hw | ⟨-, rfl⟩
    · exact hlate w hw hdw
    · exact (h.anchor_start_le hpoised).trans later

end Comment

/-! ### Anchors -/

/-- An anchor is added to the innermost open node, after tags that may have been left there. -/
theorem Sound.refills_anchor (h : c.Sound) (anchor : Anchor) :
    ∃ (b : Assembly) (tags : List Tag),
      c.assembly.anchor anchor c.contexts.length = b.addAnchor { Node.ofAnchor anchor with tags } ∧
      c.assembly.Refills c.clock b := by
  obtain ⟨b, tags, heq, hkeeps⟩ := c.assembly.anchor_eq anchor c.contexts.length
  refine ⟨b, tags, heq, hkeeps _ (fun a a' hroot hframes _ ha ↦ ha.of_eq hroot hframes)
    (fun a w hw ha ↦ h.fallBack hw ha (Nat.le_refl _)) ⟨h.nested, rfl, rfl, rfl⟩⟩

/-- An anchor leaves the innermost open node with itself as the latest anchor. -/
theorem Sound.anchor (h : c.Sound) {anchor : Anchor}
    (later : c.clock ≤ anchor.span.start.offset)
    (ordered : anchor.span.start.offset ≤ anchor.span.stop.offset)
    (kinds : c.assembly.enclosingKind? = some .classDecl → anchor.kind ≠ .functionDecl) :
    { c.send [.anchor anchor c.contexts.length] with
      awaits := some c.contexts.length, clock := anchor.span.stop.offset }.Sound := by
  have hclock : c.clock ≤ anchor.span.stop.offset := later.trans ordered
  obtain ⟨b, tags, heq, hb⟩ := h.refills_anchor anchor
  have hlast : ∀ m ∈ b.top.children, m.span.stop.offset ≤ anchor.span.start.offset :=
    fun m hm ↦ (hb.nested.top_open.1.inside m hm).2.trans later
  have hwaiting : (c.assembly.anchor anchor c.contexts.length).waiting =
      if (c.assembly.waitingAt? c.contexts.length).isSome then c.assembly.waiting.tail
      else c.assembly.waiting := Assembly.anchor_waiting anchor _
  have hsub := c.assembly.waiting_left_sublist c.contexts.length
  have hrest := c.assembly.depth_lt_of_waitingAt? h.deeper fun w hw ↦ (h.timely w hw).depth
  rw [← hwaiting] at hsub hrest
  refine ⟨?_, ?_, fun x hx ↦ (h.opened x hx).trans hclock, h.deeper.sublist hsub,
    fun w hw ↦ (h.timely w (hsub.subset hw)).mono hclock, ?_⟩
  · change (c.assembly.anchor anchor c.contexts.length).Nested anchor.span.stop.offset
    rw [heq]
    refine Assembly.Nested.of_eq ((hb.nested.mono hclock).insert
      (Node.wellNested_anchor tags ordered) ?_ (Nat.le_refl _) ?_ ?_) rfl rfl
    · rw [hb.span]
      exact h.top_start_le fun x hx ↦ (h.opened x hx).trans later
    · exact fun m hm _ _ ↦ .inr (hlast m hm)
    · intro hclass hfun
      rw [Node.kind?, hb.anchor, ← Node.kind?, ← h.enclosingKind?] at hclass
      exact kinds hclass (by simpa [Node.kind?] using hfun)
  · change (c.assembly.anchor anchor c.contexts.length).openings = _
    rw [heq]
    exact (Assembly.openings_mapTop rfl).trans (hb.openings.trans h.bodies)
  · intro depth hd _
    cases hd
    have hpoised : (c.assembly.anchor anchor c.contexts.length).Poised
        (Node.place b.top { Node.ofAnchor anchor with tags }) { Node.ofAnchor anchor with tags }
        anchor := by
      rw [heq]
      exact Assembly.poised_addAnchor rfl rfl rfl fun m hm _ ↦ hlast m hm
    refine ⟨by simp [send], _, _, anchor, hpoised, rfl, fun w hw hdepth ↦ ?_⟩
    exact absurd (hrest w hw) (Nat.not_lt.mpr hdepth)

/-- Every move keeps a course sound. -/
theorem Move.sound (hc : c.Sound) (h : Move source c d) : d.Sound := by
  cases h with
  | idle brackets waits later =>
    rename_i es awaits clock
    have hlatest := latest?_send (fun e he ↦ Event.anchor?_of_isBracket (brackets e he)) c
    rw [send, Assembly.replay_brackets brackets] at hlatest ⊢
    exact hc.later waits later hlatest
  | comment later ordered inside place =>
    exact hc.comment later ordered fun t ht ↦ (inside t ht).2.1
  | anchor later ordered kinds place => exact hc.anchor later ordered kinds
  | openBlock later fresh => exact hc.openBlock later fresh
  | enterBody later waits ready => exact hc.enterBody later waits
  | close split each ordered between later waits =>
    exact hc.close split each ordered between later waits

end Course

/-- The course of every pass that a scan reaches is sound. -/
theorem Pass.sound_of_reaches {s : Setup} {source : List Char} {p : Pass}
    (h : Reaches (step s) (start s source) p) : p.course.Sound :=
  (reaches_moves h).1.invariant (fun _ _ hc hm ↦ hm.sound hc) (Course.sound_start s source)

end Marginalia
