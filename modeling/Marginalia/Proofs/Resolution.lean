import Marginalia.Proofs.Bearings

/-!
# Attached, or reported

A tag is not attached if it is for the next anchor and sits on none: it has fallen back to a node
without an anchor, or has been given up. An assembly reports such a tag when it stops waiting, and
never again; nothing else that it does leaves a tag unattached. So what it has reported and what is
not attached correspond, in every state and in the end.
-/

namespace Marginalia

open scoped List

/-- Whether a tag that sits somewhere is attached follows from its placement and from where it sits.
Tags for the next anchor never sit on the root, and only they are given up. -/
structure Seat.Fair (x : Seat × Tag) : Prop where
  resolved : x.2.resolved = false ↔
    x.2.placement = .nextAnchor ∧ (x.1 = .node none ∨ x.1 = .unresolved)
  root : x.1 = .root → x.2.placement ≠ .nextAnchor
  unresolved : x.1 = .unresolved → x.2.placement = .nextAnchor

/-- The tags that sit somewhere unattached. -/
def unattached (xs : List (Seat × Tag)) : List Tag := (xs.map (·.2)).filter (!·.resolved)

theorem unattached_append (xs ys : List (Seat × Tag)) :
    unattached (xs ++ ys) = unattached xs ++ unattached ys := by
  simp [unattached]

theorem unattached_perm {xs ys : List (Seat × Tag)} (h : xs ~ ys) :
    unattached xs ~ unattached ys :=
  (h.map _).filter _

/-- A tag for the next anchor that no anchor has taken. -/
def Tag.Loose (t : Tag) : Prop := t.resolved = false ∧ t.placement = .nextAnchor

theorem unattached_loose {ts : List Tag} (h : ∀ t ∈ ts, t.Loose) (seat : Seat) :
    unattached (ts.map (seat, ·)) = ts := by
  rw [unattached, List.map_map, show Prod.snd ∘ (seat, ·) = @id Tag from rfl, List.map_id,
    List.filter_eq_self]
  intro t ht
  rw [(h t ht).1]
  rfl

theorem unattached_resolve (ts : List Tag) (seat : Seat) :
    unattached ((ts.map Tag.resolve).map (seat, ·)) = [] := by
  rw [unattached, List.filter_eq_nil_iff]
  intro t ht
  obtain ⟨u, hu, rfl⟩ : ∃ u ∈ ts, u.resolve = t := by simpa using ht
  simp [Tag.resolve]

theorem Seat.fair_of_loose {seat : Seat} {t : Tag} (ht : t.Loose)
    (hseat : seat = .node none ∨ seat = .unresolved) : Fair (seat, t) := by
  refine ⟨⟨fun _ ↦ ⟨ht.2, hseat⟩, fun _ ↦ ht.1⟩, fun hroot ↦ ?_, fun _ ↦ ht.2⟩
  rcases hseat with rfl | rfl <;> cases hroot

theorem Seat.fair_of_placement {seat : Seat} {t : Tag} (ht : t.placement ≠ .nextAnchor)
    (hseat : seat ≠ .unresolved) : Fair (seat, t.resolve) :=
  ⟨⟨fun h ↦ (by cases h), fun h ↦ absurd h.1 ht⟩, fun _ ↦ ht, fun h ↦ absurd h hseat⟩

theorem Seat.fair_of_anchor (anchor : Anchor) (t : Tag) : Fair (.node (some anchor), t.resolve) :=
  ⟨⟨fun h ↦ (by cases h), fun h ↦ (by rcases h.2 with h | h <;> cases h)⟩, fun h ↦ (by cases h),
    fun h ↦ (by cases h)⟩

namespace Assembly

variable {a b : Assembly}

/-- The tags that wait are loose, tags are attached as it fits their seats, and those that are not
have been reported. -/
structure Accounted (a : Assembly) : Prop where
  waiting : ∀ w ∈ a.waiting, ∀ t ∈ w.tags, t.Loose
  seats : ∀ x ∈ a.seated, Seat.Fair x
  reports : a.diagnostics.map (·.span) ~ (unattached a.seated).map (·.span)

/-- Tags that take a seat, and are reported if they are not attached. -/
theorem Accounted.seat (h : a.Accounted) (new : List (Seat × Tag))
    (hw : ∀ w ∈ b.waiting, w ∈ a.waiting) (hs : b.seated ~ new ++ a.seated)
    (hnew : ∀ x ∈ new, Seat.Fair x)
    (hd : b.diagnostics.map (·.span) = a.diagnostics.map (·.span) ++
      (unattached new).map (·.span)) : b.Accounted := by
  refine ⟨fun w hb ↦ h.waiting w (hw w hb), fun x hx ↦ ?_, ?_⟩
  · rcases List.mem_append.mp (hs.mem_iff.mp hx) with hx | hx
    · exact hnew x hx
    · exact h.seats x hx
  · have hun := (unattached_perm hs).map (·.span)
    rw [unattached_append, List.map_append] at hun
    rw [hd]
    exact ((h.reports.append_right _).trans List.perm_append_comm).trans hun.symm

theorem map_span_report (a : Assembly) (ts : List Tag) (why : String) :
    (a.report ts why).diagnostics.map (·.span) =
      a.diagnostics.map (·.span) ++ ts.map (·.span) := by
  simp [report, Function.comp_def]

theorem Accounted.dropWaiting (h : a.Accounted) : a.dropWaiting.Accounted :=
  ⟨fun w hw ↦ h.waiting w (List.mem_of_mem_tail hw), h.seats, h.reports⟩

theorem Accounted.fallBack (h : a.Accounted) {w : Waiting} (hw : ∀ t ∈ w.tags, t.Loose)
    (why : String) : (a.fallBack w why).Accounted := by
  refine h.seat (w.tags.map (Seat.node none, ·)) (by simp) (a.seated_fallBack w why) ?_ ?_
  · intro x hx
    obtain ⟨t, ht, rfl⟩ := List.mem_map.mp hx
    exact Seat.fair_of_loose (hw t ht) (.inl rfl)
  · rw [Assembly.fallBack, mapTop_diagnostics, map_span_report, unattached_loose hw]

theorem Accounted.giveUp (h : a.Accounted) {w : Waiting} (hw : ∀ t ∈ w.tags, t.Loose)
    (why : String) : (a.giveUp w why).Accounted := by
  refine h.seat (w.tags.map (Seat.unresolved, ·)) (fun _ hv ↦ hv) (a.seated_giveUp w why) ?_ ?_
  · intro x hx
    obtain ⟨t, ht, rfl⟩ := List.mem_map.mp hx
    exact Seat.fair_of_loose (hw t ht) (.inr rfl)
  · rw [unattached_loose hw]
    exact a.map_span_report w.tags why

/-! ## Comments -/

theorem topSeat_ne_unresolved (a : Assembly) : a.topSeat ≠ .unresolved := by
  unfold topSeat
  split <;> simp

/-- Tags that are attached when they are placed. -/
theorem Accounted.attach (h : a.Accounted) {ts : List Tag} {seat : Seat}
    (hts : ∀ t ∈ ts, t.placement ≠ .nextAnchor) (hseat : seat ≠ .unresolved)
    (hw : b.waiting = a.waiting) (hd : b.diagnostics = a.diagnostics)
    (hs : b.seated ~ (ts.map Tag.resolve).map (seat, ·) ++ a.seated) : b.Accounted := by
  refine h.seat _ (fun w hb ↦ hw ▸ hb) hs ?_ (by rw [hd, unattached_resolve]; simp)
  intro x hx
  obtain ⟨u, hu, rfl⟩ := List.mem_map.mp hx
  obtain ⟨t, ht, rfl⟩ := List.mem_map.mp hu
  exact Seat.fair_of_placement (hts t ht) hseat

theorem Accounted.attachEnclosing (h : a.Accounted) (tags : List Tag) :
    (a.attachEnclosing tags).Accounted := by
  refine h.attach ?_ a.topSeat_ne_unresolved (a.attachEnclosing_waiting tags)
    (mapTop_diagnostics a _) (a.seated_attachEnclosing tags)
  intro t ht hnext
  have hp := (List.mem_filter.mp ht).2
  simp [hnext] at hp

theorem Accounted.placeFree (h : a.Accounted) (tags : List Tag) (span : Span) :
    (a.placeFree tags span).Accounted := by
  have hd : (a.placeFree tags span).diagnostics = a.diagnostics := by
    unfold Assembly.placeFree
    dsimp only
    split
    · rfl
    · exact mapTop_diagnostics a _
  refine h.attach ?_ (by simp) (a.placeFree_waiting tags span) hd (a.seated_placeFree tags span)
  intro t ht hnext
  have hp := (List.mem_filter.mp ht).2
  simp [hnext] at hp

theorem Accounted.awaitAnchor (h : a.Accounted) {tags : List Tag}
    (htags : ∀ t ∈ tags, t.resolved = false) (span : Span) (depth : Nat) :
    (a.awaitAnchor tags span depth).Accounted := by
  have hnext : ∀ t ∈ tags.filter (·.placement = .nextAnchor), t.Loose := by
    intro t ht
    obtain ⟨ht, hp⟩ := List.mem_filter.mp ht
    exact ⟨htags t ht, of_decide_eq_true hp⟩
  have hpush : ∀ {b : Assembly} {w : Waiting}, b.Accounted → (∀ t ∈ w.tags, t.Loose) →
      { b with waiting := w :: b.waiting }.Accounted := by
    intro b w hb hw
    refine ⟨fun v hv ↦ ?_, hb.seats, hb.reports⟩
    rcases List.mem_cons.mp hv with rfl | hv
    · exact hw
    · exact hb.waiting v hv
  unfold Assembly.awaitAnchor
  dsimp only
  split
  · exact h
  · cases hw : a.waitingAt? depth with
    | none => exact hpush h hnext
    | some old =>
      have hold := h.waiting old (mem_waiting_of_waitingAt? hw)
      exact hpush (h.dropWaiting.fallBack hold _) hnext

/-! ## Anchors and blocks -/

theorem Accounted.addAnchor (h : a.Accounted) (anchor : Anchor) :
    (a.addAnchor (.ofAnchor anchor)).Accounted := by
  have hs := a.seated_addAnchor (.ofAnchor anchor)
  rw [seated_ofAnchor] at hs
  refine h.seat [] (by simp) hs (by simp) ?_
  simp [Assembly.addAnchor, unattached]

theorem Accounted.anchor (h : a.Accounted) (anchor : Anchor) (depth : Nat) :
    (a.anchor anchor depth).Accounted := by
  unfold Assembly.anchor
  cases hw : a.waitingAt? depth with
  | none => exact h.addAnchor anchor
  | some w =>
    have hloose := h.waiting w (mem_waiting_of_waitingAt? hw)
    dsimp only
    split
    · exact (h.dropWaiting.fallBack hloose _).addAnchor anchor
    · have hs := a.dropWaiting.seated_addAnchor
        { Node.ofAnchor anchor with tags := w.tags.map Tag.resolve }
      rw [show Node.seated { Node.ofAnchor anchor with tags := w.tags.map Tag.resolve } =
        (w.tags.map Tag.resolve).map (Seat.node (some anchor), ·) from
          seated_leaf (some anchor) _ anchor.span] at hs
      refine h.dropWaiting.seat _ (by simp) hs ?_ ?_
      · intro x hx
        obtain ⟨u, hu, rfl⟩ := List.mem_map.mp hx
        obtain ⟨t, -, rfl⟩ := List.mem_map.mp hu
        exact Seat.fair_of_anchor anchor t
      · rw [unattached_resolve]
        simp [Assembly.addAnchor]

theorem Accounted.closeWaiting (h : a.Accounted) (depth : Nat) {ws : List Waiting}
    (hws : ∀ w ∈ ws, w ∈ a.waiting) : (a.closeWaiting depth ws).Accounted := by
  induction ws generalizing a with
  | nil => exact ⟨fun w hw ↦ (by cases hw), h.seats, h.reports⟩
  | cons w ws ih =>
    unfold Assembly.closeWaiting
    split
    · refine ih (h.giveUp (h.waiting w (hws w List.mem_cons_self)) _) fun v hv ↦ ?_
      exact hws v (List.mem_cons_of_mem _ hv)
    · exact ⟨fun v hv ↦ h.waiting v (hws v hv), h.seats, h.reports⟩

/-! ## Events -/

/-- An event whose tags are not attached yet keeps the account. -/
theorem Accounted.apply (h : a.Accounted) {e : Event}
    (he : ∀ t ∈ e.tags, t.resolved = false) : (a.apply e).Accounted := by
  cases e with
  | comment tags span depth =>
    exact ((h.attachEnclosing tags).awaitAnchor he span depth).placeFree tags span
  | anchor anchor depth => exact h.anchor anchor depth
  | bracketOpened | bracketClosed => exact h
  | bodyEntered p =>
    refine h.seat [] (by simp [Assembly.apply]) (a.seated_enterBody p) (by simp) ?_
    simp [Assembly.apply, enterBody_diagnostics, unattached]
  | bodyLeft stop =>
    refine h.seat [] (by simp [Assembly.apply]) (a.seated_leaveBody stop) (by simp) ?_
    simp [Assembly.apply, leaveBody_diagnostics, unattached]
  | blockClosed depth => exact h.closeWaiting depth fun _ hw ↦ hw

theorem Accounted.replay (h : a.Accounted) {es : List Event}
    (hes : ∀ e ∈ es, ∀ t ∈ e.tags, t.resolved = false) : (a.replay es).Accounted := by
  induction es generalizing a with
  | nil => exact h
  | cons e es ih =>
    exact ih (h.apply (hes e List.mem_cons_self))
      fun f hf ↦ hes f (List.mem_cons_of_mem _ hf)

theorem Accounted.endWaiting (h : a.Accounted) : a.endWaiting.Accounted := by
  have hfold : ∀ (ws : List Waiting) (b : Assembly), b.Accounted →
      (∀ w ∈ ws, ∀ t ∈ w.tags, t.Loose) →
        (ws.foldl (·.giveUp · "no anchor before end of input") b).Accounted := by
    intro ws
    induction ws with
    | nil => exact fun b hb _ ↦ hb
    | cons w ws ih =>
      exact fun b hb hws ↦ ih _ (hb.giveUp (hws w List.mem_cons_self) _)
        fun v hv ↦ hws v (List.mem_cons_of_mem _ hv)
  have hend := hfold a.waiting a h h.waiting
  exact ⟨fun w hw ↦ (by cases hw), hend.seats, hend.reports⟩

/-- In a finished outline, tags are attached as it fits their seats, and what has been reported are
those that are not. -/
theorem Accounted.finish (h : a.Accounted) (stop : Position) :
    (∀ x ∈ (a.finish stop).outline.seated, Seat.Fair x) ∧
      (a.finish stop).diagnostics.map (·.span) ~
        (unattached (a.finish stop).outline.seated).map (·.span) := by
  have hseated : (a.finish stop).outline.seated ~ a.endWaiting.seated :=
    (a.seated_finish stop).trans a.seated_endWaiting.symm
  have hend := h.endWaiting
  refine ⟨fun x hx ↦ hend.seats x (hseated.mem_iff.mp hx), ?_⟩
  have hreports : (a.finish stop).diagnostics ~ a.endWaiting.diagnostics := by
    refine (List.mergeSort_perm _ _).trans ?_
    rw [endBodies_diagnostics]
  exact ((hreports.map _).trans hend.reports).trans
    ((unattached_perm hseated.symm).map _)

end Assembly

end Marginalia
