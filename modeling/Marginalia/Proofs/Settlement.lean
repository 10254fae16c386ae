import Marginalia.Proofs.Conservation
import Marginalia.Proofs.SoundCourse

/-!
# The end of a wait

Tags for the next anchor wait until the first event that settles them: an anchor at their depth, a
later comment with such tags at that depth, or the end of a block around them. An assembly looks
only at the latest tags that wait. That is enough as long as deeper tags wait later and no event
comes from less deep than tags still wait.
-/

namespace Marginalia

open scoped List

/-- Whether an event ends the wait of tags at a depth. -/
def Event.settles (depth : Nat) : Event → Bool
  | .comment tags _ d => d = depth && tags.any (·.placement = .nextAnchor)
  | .anchor _ d => d = depth
  | .blockClosed d => d < depth
  | .bracketOpened _ _ | .bracketClosed _ _ | .bodyEntered _ | .bodyLeft _ => false

/-- The depth of a comment or an anchor. -/
def Event.depth? : Event → Option Nat
  | .comment _ _ d | .anchor _ d => some d
  | .bracketOpened _ _ | .bracketClosed _ _ | .bodyEntered _ | .bodyLeft _ | .blockClosed _ => none

/-- The number of blank lines between a comment and an anchor. -/
def blankLinesBefore (source : List Char) (comment : Span) (anchor : Anchor) : Nat :=
  blankLines ((Text.slice? source comment.stop.offset anchor.span.start.offset).getD [])

/-- Where tags that wait go when an event settles them, or none ever does. -/
def Waiting.seats (source : List Char) (maxBlankLines : Nat) (w : Waiting) :
    Option Event → List (Seat × Tag)
  | some (.anchor anchor _) =>
    if maxBlankLines < blankLinesBefore source w.comment anchor then w.tags.map (Seat.node none, ·)
    else w.tags.map (Seat.node anchor, ·.resolve)
  | some (.comment _ _ _) => w.tags.map (Seat.node none, ·)
  | some (.blockClosed _) | some (.bracketOpened _ _) | some (.bracketClosed _ _)
  | some (.bodyEntered _) | some (.bodyLeft _) | none => w.tags.map (Seat.unresolved, ·)

/-- The first of the events to come that settles tags that wait. -/
def Waiting.settler? (es : List Event) (w : Waiting) : Option Event :=
  es.find? (·.settles w.depth)

/-- Where the tags for the next anchor go that comments among the events bring. -/
def settlement (source : List Char) (maxBlankLines : Nat) : List Event → List (Seat × Tag)
  | [] => []
  | .comment tags span depth :: es =>
    let w : Waiting := ⟨tags.filter (·.placement = .nextAnchor), span, depth⟩
    w.seats source maxBlankLines (w.settler? es) ++ settlement source maxBlankLines es
  | _ :: es => settlement source maxBlankLines es

namespace Assembly

variable {a : Assembly} {e : Event} {es : List Event} {x : Seat × Tag}

/-- An event that comes while deeper tags wait later, and none deeper than itself. -/
def Admits (a : Assembly) (e : Event) : Prop :=
  a.waiting.Pairwise (fun v w ↦ w.depth < v.depth) ∧
    ∀ d, e.depth? = some d → ∀ w ∈ a.waiting, w.depth ≤ d

/-- Events that come in such an order. -/
def Orderly (a : Assembly) : List Event → Prop
  | [] => True
  | e :: es => a.Admits e ∧ (a.apply e).Orderly es

theorem orderly_append {es fs : List Event} :
    a.Orderly (es ++ fs) ↔ a.Orderly es ∧ (a.replay es).Orderly fs := by
  induction es generalizing a with
  | nil => simp [Orderly, replay]
  | cons e es ih =>
    rw [List.cons_append, Orderly, Orderly, ih, and_assoc]
    rfl

/-- What is seated in the end, as far as it is known before the events to come. -/
def Destined (es : List Event) (a : Assembly) (x : Seat × Tag) : Prop :=
  x ∈ a.seated ∨ ∃ w ∈ a.waiting, x ∈ w.seats a.source a.maxBlankLines (w.settler? es)

end Assembly

theorem Waiting.settler?_cons_of_settles {w : Waiting} {e : Event} (h : e.settles w.depth = true)
    (es : List Event) : w.settler? (e :: es) = some e := by
  rw [settler?, List.find?_cons_of_pos h]

theorem Waiting.settler?_cons_of_not {w : Waiting} {e : Event} (h : e.settles w.depth = false)
    (es : List Event) : w.settler? (e :: es) = w.settler? es := by
  rw [settler?, List.find?_cons_of_neg (by simp [h])]
  rfl

/-- Tags that an event does not settle go where the events after it put them. -/
theorem Waiting.exists_mem_seats_cons {ws : List Waiting} {e : Event} {x : Seat × Tag}
    (h : ∀ w ∈ ws, e.settles w.depth = false) (source : List Char) (k : Nat) (es : List Event) :
    (∃ w ∈ ws, x ∈ w.seats source k (w.settler? (e :: es))) ↔
      ∃ w ∈ ws, x ∈ w.seats source k (w.settler? es) := by
  refine exists_congr fun w ↦ and_congr_right fun hw ↦ ?_
  rw [settler?_cons_of_not (h w hw)]

namespace Assembly

variable {a b : Assembly} {e : Event} {es : List Event} {x : Seat × Tag}

/-- An event that settles nothing and moves no tag leaves all destinies as they are. -/
theorem destined_of_quiet (hseated : b.seated ~ a.seated) (hwaiting : b.waiting = a.waiting)
    (hsource : b.source = a.source ∧ b.maxBlankLines = a.maxBlankLines)
    (hquiet : ∀ depth, e.settles depth = false) :
    b.Destined es x ↔ a.Destined (e :: es) x := by
  unfold Destined
  rw [hseated.mem_iff, hwaiting, hsource.1, hsource.2,
    Waiting.exists_mem_seats_cons fun w _ ↦ hquiet w.depth]

/-- When a block closes, the tags that wait deeper join the unresolved ones. -/
theorem seated_closeWaiting (a : Assembly) (depth : Nat) (ws : List Waiting) :
    (a.closeWaiting depth ws).seated ~
      ((ws.takeWhile (depth < ·.depth)).flatMap (·.tags)).map (Seat.unresolved, ·) ++ a.seated := by
  fun_induction closeWaiting a depth ws with
  | case1 => exact .refl _
  | case2 a w ws h ih =>
    rw [List.takeWhile_cons_of_pos (by simpa using h), List.flatMap_cons, List.map_append]
    refine (ih.trans ((a.seated_giveUp w _).append_left _)).trans ?_
    rw [← List.append_assoc]
    exact List.perm_append_comm.append_right _
  | case3 a w ws h =>
    rw [List.takeWhile_cons_of_neg (by simpa using h)]
    exact .refl _

/-- Where deeper tags wait later, those that a closing block reaches are those that wait deeper. -/
theorem mem_takeWhile_deeper {depth : Nat} {ws : List Waiting} {w : Waiting}
    (hdeeper : ws.Pairwise fun v w ↦ w.depth < v.depth) :
    w ∈ ws.takeWhile (depth < ·.depth) ↔ w ∈ ws ∧ depth < w.depth := by
  induction ws with
  | nil => simp
  | cons v ws ih =>
    rw [List.pairwise_cons] at hdeeper
    by_cases hv : depth < v.depth
    · rw [List.takeWhile_cons_of_pos (by simpa using hv), List.mem_cons, List.mem_cons,
        ih hdeeper.2]
      constructor
      · rintro (rfl | ⟨hw, hd⟩)
        · exact ⟨.inl rfl, hv⟩
        · exact ⟨.inr hw, hd⟩
      · rintro ⟨rfl | hw, hd⟩
        · exact .inl rfl
        · exact .inr ⟨hw, hd⟩
    · rw [List.takeWhile_cons_of_neg (by simpa using hv)]
      refine ⟨fun h ↦ absurd h List.not_mem_nil, ?_⟩
      rintro ⟨hw, hd⟩
      rw [List.mem_cons] at hw
      rcases hw with rfl | hw
      · exact absurd hd hv
      · have := hdeeper.1 w hw
        omega

theorem destined_blockClosed {d : Nat} (h : a.Admits (.blockClosed d)) :
    (a.blockClosed d).Destined es x ↔ a.Destined (.blockClosed d :: es) x := by
  have hwaiting : (a.blockClosed d).waiting = a.waiting.filter (·.depth ≤ d) := by
    rw [blockClosed, (a.closeWaiting_fields d a.waiting).1, dropWhile_deeper h.1]
  have hsource := a.closeWaiting_source d a.waiting
  unfold Destined
  rw [hwaiting, blockClosed, hsource.1, hsource.2,
    (a.seated_closeWaiting d a.waiting).mem_iff, List.mem_append, or_comm (a := x ∈ List.map _ _),
    or_assoc]
  refine or_congr_right ?_
  simp only [List.mem_map, List.mem_flatMap, mem_takeWhile_deeper h.1, List.mem_filter,
    decide_eq_true_eq]
  constructor
  · rintro (⟨t, ⟨w, ⟨hw, hd⟩, ht⟩, rfl⟩ | ⟨w, ⟨hw, hd⟩, hx⟩)
    · refine ⟨w, hw, ?_⟩
      rw [Waiting.settler?_cons_of_settles (by simpa [Event.settles] using hd)]
      exact List.mem_map_of_mem ht
    · refine ⟨w, hw, ?_⟩
      rwa [Waiting.settler?_cons_of_not (by simpa [Event.settles] using hd)]
  · rintro ⟨w, hw, hx⟩
    by_cases hd : d < w.depth
    · rw [Waiting.settler?_cons_of_settles (by simpa [Event.settles] using hd)] at hx
      obtain ⟨t, ht, rfl⟩ := List.mem_map.mp hx
      exact .inl ⟨t, ⟨w, ⟨hw, hd⟩, ht⟩, rfl⟩
    · rw [Waiting.settler?_cons_of_not (by simpa [Event.settles] using hd)] at hx
      exact .inr ⟨w, ⟨hw, Nat.le_of_not_lt hd⟩, hx⟩

/-- An event that settles the latest tags that wait, and no others, puts them where they belong. -/
theorem destined_of_settled {w : Waiting} {rest : List Waiting} (hwaiting : a.waiting = w :: rest)
    (hrest : b.waiting = rest)
    (hseated : b.seated ~ w.seats a.source a.maxBlankLines (some e) ++ a.seated)
    (hsource : b.source = a.source ∧ b.maxBlankLines = a.maxBlankLines)
    (hsettles : e.settles w.depth = true) (hothers : ∀ v ∈ rest, e.settles v.depth = false) :
    b.Destined es x ↔ a.Destined (e :: es) x := by
  unfold Destined
  rw [hseated.mem_iff, hrest, hwaiting, hsource.1, hsource.2, List.mem_append]
  simp only [List.mem_cons, exists_eq_or_imp, Waiting.settler?_cons_of_settles hsettles]
  rw [Waiting.exists_mem_seats_cons hothers, ← or_assoc, or_comm (a := x ∈ w.seats _ _ _)]

/-- An event that settles none of the tags that wait. -/
theorem destined_of_unsettled (hwaiting : b.waiting = a.waiting)
    (hseated : b.seated ~ a.seated)
    (hsource : b.source = a.source ∧ b.maxBlankLines = a.maxBlankLines)
    (hothers : ∀ w ∈ a.waiting, e.settles w.depth = false) :
    b.Destined es x ↔ a.Destined (e :: es) x := by
  unfold Destined
  rw [hseated.mem_iff, hwaiting, hsource.1, hsource.2, Waiting.exists_mem_seats_cons hothers]

/-- Only the latest tags may wait at the depth of an event that is admitted. -/
theorem depth_ne_of_admits {d : Nat} (h : a.Admits e) (hd : e.depth? = some d) :
    ∀ w ∈ (if (a.waitingAt? d).isSome then a.waiting.tail else a.waiting), w.depth ≠ d :=
  fun w hw ↦ Nat.ne_of_lt (depth_lt_of_waitingAt? h.1 (h.2 d hd) w hw)

theorem destined_anchor {anchor : Anchor} {d : Nat} (h : a.Admits (.anchor anchor d)) :
    (a.anchor anchor d).Destined es x ↔ a.Destined (.anchor anchor d :: es) x := by
  have hothers := depth_ne_of_admits h rfl
  have hsource := a.anchor_source anchor d
  cases hw : a.waitingAt? d with
  | none =>
    rw [hw] at hothers
    refine destined_of_unsettled ?_ ?_ hsource ?_
    · simp [anchor_waiting, hw]
    · have heq : a.anchor anchor d = a.addAnchor (.ofAnchor anchor) := by
        simp only [Assembly.anchor, hw]
      rw [heq]
      exact a.seated_addAnchor _
    · intro w hw
      simpa [Event.settles] using (hothers w hw).symm
  | some w =>
    obtain ⟨hdepth, hwaiting⟩ := waiting_of_waitingAt? hw
    rw [hw] at hothers
    refine destined_of_settled hwaiting ?_ ?_ hsource (by simp [Event.settles, hdepth]) ?_
    · simp [anchor_waiting, hw, dropWaiting]
    · unfold Assembly.anchor
      simp only [hw, Waiting.seats]
      have hlines : a.blankLinesBetween w.comment anchor.span.start =
        blankLinesBefore a.source w.comment anchor := rfl
      rw [hlines]
      by_cases hblank : a.maxBlankLines < blankLinesBefore a.source w.comment anchor
      · rw [if_pos hblank, if_pos hblank]
        exact (seated_addAnchor _ _).trans (a.dropWaiting.seated_fallBack w _)
      · rw [if_neg hblank, if_neg hblank]
        refine (seated_addAnchor _ _).trans ?_
        rw [Node.ofAnchor, seated_leaf, List.map_map]
        exact .refl _
    · intro v hv
      simpa [Event.settles] using (hothers v hv).symm

theorem isEmpty_filter_iff (tags : List Tag) (place : Placement) :
    (tags.filter (·.placement = place)).isEmpty = !tags.any (·.placement = place) := by
  induction tags with
  | nil => rfl
  | cons t ts ih => by_cases ht : t.placement = place <;> simp [ht, ih]

/-- The tags for the next anchor that sit somewhere after a comment are those that sat there, and
those that it has superseded. -/
theorem mem_seated_comment {tags : List Tag} {span : Span} {d : Nat}
    (hx : x.2.placement = .nextAnchor) :
    x ∈ (a.comment tags span d).seated ↔ x ∈ a.seated ∨
      ∃ old, a.waitingAt? d = some old ∧ tags.any (·.placement = .nextAnchor) = true ∧
        x ∈ old.tags.map (Seat.node none, ·) := by
  have hother : ∀ (place : Placement) (seat : Seat), place ≠ .nextAnchor →
      x ∉ ((tags.filter (·.placement = place)).map Tag.resolve).map (seat, ·) := by
    intro place seat hplace hmem
    obtain ⟨t, ht, rfl⟩ := List.mem_map.mp hmem
    obtain ⟨u, hu, rfl⟩ := List.mem_map.mp ht
    exact hplace ((of_decide_eq_true (List.mem_filter.mp hu).2).symm.trans hx)
  have henclosing : x ∈ (a.attachEnclosing tags).seated ↔ x ∈ a.seated := by
    rw [(a.seated_attachEnclosing tags).mem_iff, List.mem_append]
    exact or_iff_right (hother _ _ (by decide))
  have hw : (a.attachEnclosing tags).waitingAt? d = a.waitingAt? d := by simp [waitingAt?]
  rw [comment, (seated_placeFree _ _ _).mem_iff, List.mem_append, or_iff_right
    (hother _ _ (by decide)), awaitAnchor, isEmpty_filter_iff, hw]
  cases hany : tags.any (·.placement = .nextAnchor) with
  | false => simpa using henclosing
  | true =>
    cases hold : a.waitingAt? d with
    | none =>
      simp only [Bool.not_true, Bool.false_eq_true, if_false, reduceCtorEq, false_and, exists_false,
        or_false]
      exact henclosing
    | some old =>
      simp only [Bool.not_true, Bool.false_eq_true, if_false, Option.some.injEq, exists_eq_left',
        true_and]
      change x ∈ ((a.attachEnclosing tags).dropWaiting.fallBack old
        "superseded by a later comment block").seated ↔ _
      rw [(seated_fallBack _ _ _).mem_iff, List.mem_append, seated_dropWaiting, henclosing, or_comm]

/-- After a comment, the tags for the next anchor that it brings wait too. -/
theorem destined_comment {tags : List Tag} {span : Span} {d : Nat}
    (h : a.Admits (.comment tags span d)) (hx : x.2.placement = .nextAnchor) :
    let w : Waiting := ⟨tags.filter (·.placement = .nextAnchor), span, d⟩
    (a.comment tags span d).Destined es x ↔ a.Destined (.comment tags span d :: es) x ∨
      x ∈ w.seats a.source a.maxBlankLines (w.settler? es) := by
  intro w
  have hothers := depth_ne_of_admits h rfl
  have hsource := a.comment_source tags span d
  have hwaiting : (a.comment tags span d).waiting =
      if (tags.filter (·.placement = .nextAnchor)).isEmpty then a.waiting
      else w :: if (a.waitingAt? d).isSome then a.waiting.tail else a.waiting :=
    a.comment_waiting tags span d
  have htags : w.tags = tags.filter (·.placement = .nextAnchor) := rfl
  have hsettles : ∀ depth, Event.settles depth (.comment tags span d) =
      (decide (d = depth) && tags.any (·.placement = .nextAnchor)) := fun _ ↦ rfl
  rw [isEmpty_filter_iff] at hwaiting
  clear_value w
  unfold Destined
  rw [mem_seated_comment hx, hsource.1, hsource.2, hwaiting]
  cases hany : tags.any (·.placement = .nextAnchor) with
  | false =>
    -- the comment brings nothing that waits, and settles nothing
    have hnone : w.seats a.source a.maxBlankLines (w.settler? es) = [] := by
      have hempty : w.tags = [] := by
        rw [htags, ← List.isEmpty_iff, isEmpty_filter_iff, hany]
        rfl
      unfold Waiting.seats
      split <;> simp [hempty]
    rw [hnone, Waiting.exists_mem_seats_cons fun v _ ↦ by simp [hsettles, hany]]
    simp
  | true =>
    have hquiet : ∀ v ∈ (if (a.waitingAt? d).isSome then a.waiting.tail else a.waiting),
        Event.settles v.depth (.comment tags span d) = false :=
      fun v hv ↦ by simp [hsettles, (hothers v hv).symm]
    cases hold : a.waitingAt? d with
    | none =>
      rw [hold] at hquiet
      replace hquiet : ∀ v ∈ a.waiting, Event.settles v.depth (.comment tags span d) = false :=
        hquiet
      rw [Waiting.exists_mem_seats_cons hquiet]
      simp only [Bool.not_true, Bool.false_eq_true, if_false, reduceCtorEq, false_and, exists_false,
        or_false, Option.isSome_none, List.mem_cons, exists_eq_or_imp]
      rw [or_assoc]
      exact or_congr_right or_comm
    | some old =>
      obtain ⟨hdepth, hold'⟩ := waiting_of_waitingAt? hold
      have hsettled : old.settler? (.comment tags span d :: es) = some (.comment tags span d) :=
        Waiting.settler?_cons_of_settles (by simp [hsettles, hany, hdepth]) es
      rw [hold, hold'] at hquiet
      replace hquiet :
          ∀ v ∈ a.dropWaiting.waiting, Event.settles v.depth (.comment tags span d) = false :=
        hquiet
      rw [hold']
      simp only [Bool.not_true, Bool.false_eq_true, if_false, Option.some.injEq, exists_eq_left',
        true_and, Option.isSome_some, if_true, List.tail_cons, List.mem_cons, exists_eq_or_imp,
        Waiting.exists_mem_seats_cons hquiet, hsettled]
      change _ ↔ (_ ∨ x ∈ old.tags.map (Seat.node none, ·) ∨ _) ∨ _
      rw [or_assoc, or_assoc, or_assoc]
      exact or_congr_right (or_congr_right or_comm)

/-! ## Runs of events -/

/-- Where the tags for the next anchor sit in the end: where they sat before, where those that wait
are settled, and where those that come are settled. -/
theorem mem_seated_finish_iff (h : a.Orderly es) (hx : x.2.placement = .nextAnchor)
    (stop : Position) :
    x ∈ ((a.replay es).finish stop).outline.seated ↔
      a.Destined es x ∨ x ∈ settlement a.source a.maxBlankLines es := by
  induction es generalizing a with
  | nil =>
    rw [((a.replay []).seated_finish stop).mem_iff, List.mem_append, or_comm]
    simp only [settlement, List.not_mem_nil, or_false, Destined, List.mem_map, List.mem_flatMap]
    refine or_congr_right ⟨?_, ?_⟩
    · rintro ⟨t, ⟨w, hw, ht⟩, rfl⟩
      exact ⟨w, hw, List.mem_map_of_mem ht⟩
    · rintro ⟨w, hw, hmem⟩
      obtain ⟨t, ht, rfl⟩ := List.mem_map.mp hmem
      exact ⟨t, ⟨w, hw, ht⟩, rfl⟩
  | cons e es ih =>
    obtain ⟨hadmits, hrest⟩ := h
    have hsource := a.apply_source e
    change x ∈ (((a.apply e).replay es).finish stop).outline.seated ↔ _
    rw [ih hrest, hsource.1, hsource.2]
    cases e with
    | comment tags span d =>
      rw [settlement, List.mem_append, ← or_assoc]
      exact or_congr_left (destined_comment hadmits hx)
    | anchor anchor d => exact or_congr_left (destined_anchor hadmits)
    | bracketOpened | bracketClosed =>
      exact or_congr_left (destined_of_quiet (.refl _) rfl ⟨rfl, rfl⟩ fun _ ↦ rfl)
    | bodyEntered p =>
      exact or_congr_left (destined_of_quiet (a.seated_enterBody p) (a.enterBody_waiting p)
        (a.enterBody_source p) fun _ ↦ rfl)
    | bodyLeft stop =>
      exact or_congr_left (destined_of_quiet (a.seated_leaveBody stop) (a.leaveBody_waiting stop)
        (a.leaveBody_source stop) fun _ ↦ rfl)
    | blockClosed d => exact or_congr_left (destined_blockClosed hadmits)

end Assembly

end Marginalia
