import Marginalia.Proofs.Fields
import Marginalia.Proofs.Progress
import Marginalia.Proofs.Seats

/-!
# Conservation of tags

No operation of an assembly loses, invents or repeats a tag: up to whether it is attached, the tags
that sit somewhere together with the tags that wait are those of the comments so far, whatever the
order of events. A scan sends the tags of each comment that it reads to the assembly once.
-/

namespace Marginalia

open scoped List

/-- The tag without the note whether it is attached. -/
def Tag.plain (t : Tag) : Tag := { t with resolved := false }

@[simp] theorem Tag.plain_resolve (t : Tag) : t.resolve.plain = t.plain := rfl

/-- The tags that an event brings. -/
def Event.tags : Event → List Tag
  | .comment tags _ _ => tags
  | .anchor _ _ | .bracketOpened _ _ | .bracketClosed _ _ | .bodyEntered _ | .bodyLeft _
  | .blockClosed _ => []

/-- Every tag has one of three placements. -/
theorem perm_placements (tags : List Tag) :
    tags ~ tags.filter (·.placement = .enclosingAnchor) ++
      (tags.filter (·.placement = .nextAnchor) ++ tags.filter (·.placement = .freeFloating)) := by
  induction tags with
  | nil => exact .refl _
  | cons t ts ih =>
    cases hp : t.placement with
    | enclosingAnchor => simpa [hp] using ih
    | nextAnchor => simpa [hp] using (ih.cons t).trans List.perm_middle.symm
    | freeFloating =>
      simp only [hp, List.filter_cons, decide_true, reduceCtorEq, decide_false, if_true,
        Bool.false_eq_true, if_false]
      rw [← List.append_assoc] at ih ⊢
      exact (ih.cons t).trans List.perm_middle.symm

namespace Assembly

variable (a : Assembly)

/-- The tags of an assembly, those that wait included. -/
def tags : List Tag :=
  (a.seated.map (·.2) ++ a.waiting.flatMap (·.tags)).map Tag.plain

/-- Tags that take a seat while nothing else changes. -/
theorem tags_perm_of_seated {a b : Assembly} (new : List (Seat × Tag))
    (hw : b.waiting = a.waiting) (h : b.seated ~ new ++ a.seated) :
    b.tags ~ new.map (·.2.plain) ++ a.tags := by
  have hm := h.map fun x ↦ x.2.plain
  simp only [tags, hw, List.map_append, List.map_map, ← List.append_assoc] at hm ⊢
  exact hm.append_right _

theorem tags_attachEnclosing (tags : List Tag) :
    (a.attachEnclosing tags).tags ~
      (tags.filter (·.placement = .enclosingAnchor)).map Tag.plain ++ a.tags := by
  have h := tags_perm_of_seated _ (a.attachEnclosing_waiting tags) (a.seated_attachEnclosing tags)
  simpa [List.map_map, Function.comp_def] using h

theorem tags_placeFree (tags : List Tag) (span : Span) :
    (a.placeFree tags span).tags ~
      (tags.filter (·.placement = .freeFloating)).map Tag.plain ++ a.tags := by
  have h := tags_perm_of_seated _ (a.placeFree_waiting tags span) (a.seated_placeFree tags span)
  simpa [List.map_map, Function.comp_def] using h

/-- Tags that stop waiting and take a seat are the same tags. -/
theorem tags_of_dropWaiting {a b : Assembly} {w : Waiting} {d : Nat} (new : List (Seat × Tag))
    (hw : a.waitingAt? d = some w) (hb : b.waiting = a.dropWaiting.waiting)
    (hnew : new.map (·.2.plain) = w.tags.map Tag.plain)
    (h : b.seated ~ new ++ a.seated) : b.tags ~ a.tags := by
  have hm := h.map fun x ↦ x.2.plain
  rw [List.map_append, hnew] at hm
  simp only [tags, hb, (waiting_of_waitingAt? hw).2, List.flatMap_cons, List.map_append,
    List.map_map, Function.comp_def]
  refine (hm.append_right _).trans ?_
  rw [List.append_assoc]
  exact List.perm_append_comm_assoc _ _ _

theorem tags_awaitAnchor (tags : List Tag) (span : Span) (depth : Nat) :
    (a.awaitAnchor tags span depth).tags ~
      (tags.filter (·.placement = .nextAnchor)).map Tag.plain ++ a.tags := by
  have hpush : ∀ (b : Assembly) (w : Waiting),
      { b with waiting := w :: b.waiting }.tags ~ w.tags.map Tag.plain ++ b.tags := by
    intro b w
    simp only [Assembly.tags, List.flatMap_cons, List.map_append]
    exact List.perm_append_comm_assoc _ _ _
  unfold awaitAnchor
  dsimp only
  split
  · rename_i h
    rw [List.isEmpty_iff.mp h]
    exact .refl _
  · refine (hpush _ _).trans (List.Perm.append_left _ ?_)
    cases hw : a.waitingAt? depth with
    | none => exact .refl _
    | some old =>
      refine tags_of_dropWaiting (old.tags.map (Seat.node none, ·)) hw
        (fallBack_waiting _ _ _) (by simp) ?_
      simpa using a.dropWaiting.seated_fallBack old "superseded by a later comment block"

theorem tags_comment (tags : List Tag) (span : Span) (depth : Nat) :
    (a.comment tags span depth).tags ~ tags.map Tag.plain ++ a.tags := by
  have h₁ := a.tags_attachEnclosing tags
  have h₂ := (a.attachEnclosing tags).tags_awaitAnchor tags span depth
  have h₃ := ((a.attachEnclosing tags).awaitAnchor tags span depth).tags_placeFree tags span
  have h := (perm_placements tags).map Tag.plain
  refine List.perm_iff_count.mpr fun t ↦ ?_
  have c₁ := h₁.count_eq t
  have c₂ := h₂.count_eq t
  have c₃ := h₃.count_eq t
  have c := h.count_eq t
  simp only [List.map_append, List.count_append, comment] at *
  omega

theorem seated_ofAnchor (anchor : Anchor) : (Node.ofAnchor anchor).seated = [] := rfl

theorem tags_anchor (anchor : Anchor) (depth : Nat) : (a.anchor anchor depth).tags ~ a.tags := by
  unfold Assembly.anchor
  split
  · have h := tags_perm_of_seated _ (a.addAnchor_waiting (.ofAnchor anchor))
      (a.seated_addAnchor (.ofAnchor anchor))
    simpa [seated_ofAnchor] using h
  · rename_i w hw
    split
    · refine tags_of_dropWaiting (w.tags.map (Seat.node none, ·)) hw (by simp) (by simp) ?_
      refine (seated_addAnchor _ _).trans ?_
      rw [seated_ofAnchor]
      simpa using a.dropWaiting.seated_fallBack w "separated from the next anchor by blank lines"
    · refine tags_of_dropWaiting ((w.tags.map Tag.resolve).map (Seat.node (some anchor), ·)) hw
        (by simp) (by simp [Function.comp_def]) ?_
      refine (seated_addAnchor _ _).trans ?_
      rw [show Node.seated { Node.ofAnchor anchor with tags := w.tags.map Tag.resolve } =
        (w.tags.map Tag.resolve).map (Seat.node (some anchor), ·) from
          seated_leaf (some anchor) _ anchor.span]
      exact .refl _

theorem tags_closeWaiting (depth : Nat) (ws : List Waiting) :
    (a.closeWaiting depth ws).tags ~ { a with waiting := ws }.tags := by
  fun_induction closeWaiting a depth ws with
  | case1 => exact .refl _
  | case2 a w ws h ih =>
    refine ih.trans ?_
    have hs := (a.seated_giveUp w "no anchor before the enclosing block closed").map
      fun x ↦ x.2.plain
    simp only [tags, List.flatMap_cons, List.map_append, List.map_map, Function.comp_def] at hs ⊢
    refine (hs.append_right _).trans ?_
    rw [List.append_assoc]
    exact List.perm_append_comm_assoc _ _ _
  | case3 => exact .refl _

/-- An event adds the tags that it brings, and no other. -/
theorem tags_apply (e : Event) : (a.apply e).tags ~ e.tags.map Tag.plain ++ a.tags := by
  cases e with
  | comment tags span depth => exact a.tags_comment tags span depth
  | anchor anchor depth => exact a.tags_anchor anchor depth
  | bracketOpened | bracketClosed => exact .refl _
  | bodyEntered p =>
    exact tags_perm_of_seated [] (a.enterBody_waiting p) (a.seated_enterBody p)
  | bodyLeft stop =>
    exact tags_perm_of_seated [] (a.leaveBody_waiting stop) (a.seated_leaveBody stop)
  | blockClosed depth => exact a.tags_closeWaiting depth a.waiting

theorem tags_replay (es : List Event) :
    (a.replay es).tags ~ (es.flatMap Event.tags).map Tag.plain ++ a.tags := by
  induction es generalizing a with
  | nil => exact .refl _
  | cons e es ih =>
    refine (ih (a.apply e)).trans ?_
    simp only [List.flatMap_cons, List.map_append, List.append_assoc]
    refine ((a.tags_apply e).append_left _).trans ?_
    exact List.perm_append_comm_assoc _ _ _

/-! ## The end -/

/-- At the end of the text, the tags that wait join the unresolved ones. -/
theorem seated_endWaiting :
    a.endWaiting.seated ~
      (a.waiting.flatMap (·.tags)).map (Seat.unresolved, ·) ++ a.seated := by
  have hfold : ∀ (ws : List Waiting) (b : Assembly),
      (ws.foldl (·.giveUp · "no anchor before end of input") b).seated ~
        (ws.flatMap (·.tags)).map (Seat.unresolved, ·) ++ b.seated := by
    intro ws
    induction ws with
    | nil => exact fun b ↦ .refl _
    | cons w ws ih =>
      intro b
      refine (ih _).trans ?_
      simp only [List.flatMap_cons, List.map_append, List.append_assoc]
      refine ((b.seated_giveUp w _).append_left _).trans ?_
      exact List.perm_append_comm_assoc _ _ _
  exact hfold a.waiting a

/-- The finished outline seats what was seated and what waited. -/
theorem seated_finish (stop : Position) :
    (a.finish stop).outline.seated ~
      (a.waiting.flatMap (·.tags)).map (Seat.unresolved, ·) ++ a.seated := by
  have hframes : ∀ b : Assembly, (b.endBodies stop).frames = [] := by
    intro b
    unfold endBodies
    have hlen : ∀ k (b : Assembly), (Nat.repeat (·.leaveBody stop) k b).frames.length =
        b.frames.length - k := by
      intro k
      induction k with
      | zero => exact fun b ↦ rfl
      | succ k ih =>
        intro b
        simp only [Nat.repeat]
        generalize hc : Nat.repeat (·.leaveBody stop) k b = c
        have hk := ih b
        rw [hc] at hk
        unfold leaveBody mapTop
        split
        · rename_i hf
          rw [hf] at hk
          simp [hf] at hk ⊢
          omega
        · rename_i f fs hf
          rw [hf] at hk
          simp only [List.length_cons] at hk
          cases fs <;> simp at hk ⊢ <;> omega
    exact List.length_eq_zero_iff.mp (by rw [hlen, Nat.sub_self])
  refine List.Perm.trans ?_ a.seated_endWaiting
  refine List.Perm.trans ?_ (seated_endBodies _ stop)
  simp only [Outline.seated, finish, seated, hframes, List.flatMap_nil, List.append_nil]
  exact ((List.mergeSort_perm _ _).map _).append_left _

end Assembly

theorem Node.map_held (seat : Seat) (n : Node) : (n.held seat).map (·.2) = n.allTags := by
  rw [held, allTags_eq, nodes_eq, List.flatMap_cons, List.map_append, List.map_map,
    List.map_flatMap, List.flatMap_assoc]
  simp [List.map_flatMap, Function.comp_def]

theorem Outline.map_seated (o : Outline) :
    o.seated.map (·.2) = o.root.allTags ++ o.unresolved := by
  simp [seated, Node.map_held, Function.comp_def]

namespace Assembly

/-- The tags of a finished outline are those of its assembly. -/
theorem tags_finish (a : Assembly) (stop : Position) :
    ((a.finish stop).outline.root.allTags ++ (a.finish stop).outline.unresolved).map Tag.plain ~
      a.tags := by
  rw [← Outline.map_seated, tags]
  refine (((a.seated_finish stop).map (·.2)).map Tag.plain).trans (List.Perm.map _ ?_)
  simp only [List.map_append, List.map_map, Function.comp_def, List.map_id']
  exact List.perm_append_comm

/-- Whatever events an outline is assembled from, its tags are the tags of the comments. -/
theorem perm_tags_replay_finish (source : List Char) (maxBlankLines : Nat) (es : List Event)
    (stop : Position) :
    let o := (((start source maxBlankLines).replay es).finish stop).outline
    (o.root.allTags ++ o.unresolved).map Tag.plain ~ (es.flatMap Event.tags).map Tag.plain := by
  refine (tags_finish _ stop).trans ((tags_replay _ es).trans ?_)
  have h : (start source maxBlankLines).tags = [] := rfl
  rw [h, List.append_nil]

end Assembly

/-! ## Scans -/

namespace Pass

variable {s : Setup} {p q r : Pass} {g : Grammar}

/-- The pass `q` is the pass `p` after events without tags. -/
def Untagged (p q : Pass) : Prop :=
  ∃ es : List Event, es.flatMap Event.tags = [] ∧ q.assembly = p.assembly.replay es ∧
    q.journal = es.reverse ++ p.journal

theorem Untagged.of_eq (ha : q.assembly = p.assembly) (hj : q.journal = p.journal) :
    Untagged p q := ⟨[], rfl, ha, hj⟩

theorem Untagged.trans (h : Untagged p q) (h' : Untagged q r) : Untagged p r := by
  obtain ⟨es, ht, ha, hj⟩ := h
  obtain ⟨fs, ht', ha', hj'⟩ := h'
  refine ⟨es ++ fs, by rw [List.flatMap_append, ht, ht']; rfl, ?_, ?_⟩
  · rw [ha', ha, Assembly.replay_append]
  · rw [hj', hj, List.reverse_append, List.append_assoc]

theorem untagged_leaveBodies (indent : Nat) (cs : List Context) (p : Pass) :
    Untagged p (leaveBodies indent cs p) := by
  fun_induction leaveBodies indent cs p with
  | case1 => exact .of_eq rfl rfl
  | case2 opened level outer p hlt q ih =>
    exact Untagged.trans
      ⟨[.bodyLeft p.lastEnd, .blockClosed outer.length], rfl, rfl, rfl⟩ ih
  | case3 => exact .of_eq rfl rfl

theorem untagged_dedent (p : Pass) (g : Grammar) : Untagged p (p.dedent g) := by
  unfold dedent
  split
  · rw [dropStaleBody_eq]
    exact (untagged_leaveBodies _ _ p).trans (.of_eq rfl rfl)
  · exact .of_eq rfl rfl

theorem flatMap_tags_leaving (stop last : Position) (cs : List Context) :
    (cs.flatMap (Context.leaving stop last)).flatMap Event.tags = [] := by
  rw [List.flatMap_assoc, List.flatMap_eq_nil_iff]
  intro c _
  rcases c with ⟨i, o⟩ | ⟨o, - | indent⟩ | ⟨i, o⟩ | o <;> rfl

theorem untagged_closeBlock (p : Pass) (g : Grammar) (i : Nat) :
    Untagged p (p.closeBlock g i) := by
  have hsend : Untagged p (p.send [.bracketClosed i p.cursor.position]) := ⟨_, rfl, rfl, rfl⟩
  rcases p.closeBlock_cases g i with ⟨-, h⟩ | ⟨-, -, h⟩ | ⟨-, inner, closed, outer, -, -, -, h⟩
  · rw [h]; exact hsend.trans (.of_eq rfl rfl)
  · rw [h]; exact hsend.trans (.of_eq rfl rfl)
  · rw [h, closeThrough_eq]
    refine hsend.trans ⟨_, ?_, rfl, rfl⟩
    simp only [closeEvents, List.flatMap_append, flatMap_tags_leaving]
    split <;> rfl

theorem untagged_openBlock (p : Pass) (g : Grammar) (i : Nat) :
    Untagged p (p.openBlock g i) := by
  cases ho : p.nesting.opening with
  | overflowed first =>
    rw [openBlock_of_overflowed ho]
    exact ⟨[.bracketOpened i p.cursor.position], rfl, rfl, rfl⟩
  | entered =>
    cases hb : p.opensBody g i with
    | false =>
      rw [openBlock_of_block ho i hb]
      exact ⟨[.bracketOpened i p.cursor.position], rfl, rfl, rfl⟩
    | true =>
      rw [openBlock_of_body ho i hb]
      exact ⟨[.bracketOpened i p.cursor.position, .bodyEntered p.cursor.position], rfl, rfl, rfl⟩

theorem untagged_openIndentBody (p : Pass) (opener : List Char) :
    Untagged p (p.openIndentBody opener) := by
  rcases p.openIndentBody_cases opener with ⟨ds, h, -⟩ | ⟨pending, -, -, -, h⟩
  · rw [h]; exact .of_eq rfl rfl
  · rw [h]; exact ⟨[.bodyEntered p.cursor.position], rfl, rfl, rfl⟩

theorem untagged_literal (p : Pass) (g : Grammar) (i : Nat) : Untagged p (p.literal g i) := by
  rw [literal_eq]
  exact .of_eq rfl rfl

/-- No token brings tags. -/
theorem untagged_take (p : Pass) (g : Grammar) (t : Token) : Untagged p (p.take g t) := by
  cases t with
  | newline => rw [take, afterNewline_eq]; exact .of_eq rfl rfl
  | literal i =>
    exact Untagged.trans (q := { p with statementStart := false }) (.of_eq rfl rfl)
      (untagged_literal _ _ _)
  | closer i => exact untagged_closeBlock p g i
  | opener i => exact untagged_openBlock p g i
  | indentation opener => exact untagged_openIndentBody p opener
  | separator text => rw [take, separator, cancelBody_eq]; exact .of_eq rfl rfl
  | anchor r => exact ⟨[.anchor _ _], rfl, rfl, rfl⟩
  | plain => rw [take, cancelBody_eq]; exact .of_eq rfl rfl
  | blank | comment form | regex text | inner => exact .of_eq rfl rfl

theorem untagged_atToken (p : Pass) (g : Grammar) : Untagged p (p.atToken g) := by
  unfold atToken
  split
  · exact Untagged.trans (q := { p with lineStart := false }) (.of_eq rfl rfl)
      (untagged_dedent _ g)
  · exact .of_eq rfl rfl

theorem untagged_skip (p : Pass) (s : Setup) : Untagged p (p.skip s) := by
  obtain ⟨q, hq, hskip⟩ := skip_induction (P := Untagged p) s (.of_eq rfl rfl) fun q r hpq hqr ↦ by
    refine hpq.trans ?_
    cases hqr with
    | literal peek goesOn found => exact (untagged_literal _ _ _).trans (.of_eq rfl rfl)
    | regex peek goesOn string found => exact .of_eq rfl rfl
    | blank peek goesOn string regex blank => exact .of_eq rfl rfl
    | char peek goesOn string regex blank => exact .of_eq rfl rfl
  rw [hskip]
  exact hq.trans (.of_eq rfl rfl)

theorem untagged_readComment (p : Pass) (g : Grammar) (form : CommentForm) :
    Untagged p (p.readComment g form) := by
  cases form with
  | line i =>
    obtain ⟨_, _, _, h, -⟩ := p.readComment_line_eq g i
    rw [h]
    exact .of_eq rfl rfl
  | block i =>
    rw [readComment, blockComment_eq]
    exact .of_eq rfl rfl

/-- The comment that has just been read. -/
def read? (p : Pass) : Option Comment :=
  match p.mode with
  | .tags c => some c
  | .code | .comment _ | .skip => none

/-- The tags of comments, as they are parsed. -/
def parsedTags (registry : Registry) (cs : List Comment) : List Tag :=
  cs.flatMap fun c ↦ (c.tags registry).map (·.tag)

/-- A step sends the tags of the comment that has just been read, and no other. -/
theorem step_sends (h : step s p = some q) :
    ∃ es, es.flatMap Event.tags = parsedTags s.registry p.read?.toList ∧
      q.assembly = p.assembly.replay es ∧ q.journal = es.reverse ++ p.journal := by
  -- a step that places no tags follows no comment
  have huntagged : p.read? = none → Untagged p q → ∃ es,
      es.flatMap Event.tags = parsedTags s.registry p.read?.toList ∧
        q.assembly = p.assembly.replay es ∧ q.journal = es.reverse ++ p.journal := by
    intro hread hq
    rw [hread]
    exact hq
  cases step_eq_some_iff.mp h with
  | comment mode => exact huntagged (by rw [read?, mode]) (untagged_readComment p s.grammar _)
  | tags mode =>
    rename_i comment
    rw [placeTags_eq]
    refine ⟨p.commentEvents s.registry comment, ?_, rfl, rfl⟩
    simp only [read?, mode, commentEvents, parsedTags, Option.toList_some, List.flatMap_singleton]
    split
    · rename_i hempty
      rw [List.isEmpty_iff.mp hempty]
      rfl
    · simp [Event.tags]
  | newline mode peek => exact huntagged (by rw [read?, mode]) (untagged_take p s.grammar .newline)
  | blank mode peek inline blank =>
    exact huntagged (by rw [read?, mode]) (untagged_take p s.grammar .blank)
  | token mode peek blank ahead =>
    refine huntagged (by rw [read?, mode]) ((untagged_atToken p s.grammar).trans ?_)
    exact (untagged_take _ _ _).trans (.of_eq rfl rfl)
  | skip mode peek => exact huntagged (by rw [read?, mode]) (untagged_skip p s)

end Pass

/-- The comments that a scan reads, in order. -/
def Setup.commentsRead (s : Setup) (source : List Char) : List Comment :=
  (visited (Pass.step s) (4 * (source.length + 1)) (Pass.start s source)).filterMap Pass.read?

namespace Pass

variable {s : Setup} {p : Pass}

/-- What grows by a part of its own for each comment that is read grows by these parts in a run. -/
theorem gathered_iterate {β : Type} (gathered : Pass → List β) (part : Comment → List β)
    (hstep : ∀ p q, step s p = some q → gathered q = gathered p ++ p.read?.toList.flatMap part)
    (n : Nat) (p : Pass) (hend : (iterate (step s) n p).read? = none) :
    gathered (iterate (step s) n p) =
      gathered p ++ ((visited (step s) n p).filterMap read?).flatMap part := by
  induction n generalizing p with
  | zero =>
    rw [iterate_zero] at hend
    simp [visited, hend]
  | succ n ih =>
    cases hs : step s p with
    | none =>
      rw [iterate_of_none hs] at hend ⊢
      simp [visited, hs, hend]
    | some q =>
      rw [iterate_of_some hs] at hend ⊢
      rw [ih q hend, hstep p q hs, List.append_assoc]
      congr 1
      simp only [visited, hs]
      cases hr : p.read? <;> simp [hr]

/-- The events of a run bring the tags of the comments that it reads. -/
theorem flatMap_tags_iterate (n : Nat) (p : Pass) (hend : (iterate (step s) n p).read? = none) :
    (iterate (step s) n p).events.flatMap Event.tags =
      p.events.flatMap Event.tags ++
        parsedTags s.registry ((visited (step s) n p).filterMap read?) := by
  refine gathered_iterate (·.events.flatMap Event.tags) _ (fun p q hs ↦ ?_) n p hend
  obtain ⟨es, htags, -, hj⟩ := step_sends hs
  rw [events, events, hj, List.reverse_append, List.reverse_reverse, List.flatMap_append, htags]
  rfl

/-- The outline in the making is the replay of the events so far. -/
theorem assembly_eq_replay {source : List Char} (h : Reaches (step s) (start s source) p) :
    p.assembly = (Assembly.start source s.options.maxBlankLines).replay p.events := by
  refine h.invariant (P := fun p ↦ p.assembly =
    (Assembly.start source s.options.maxBlankLines).replay p.events) ?_ rfl
  intro p q hp hpq
  obtain ⟨es, -, ha, hj⟩ := step_sends hpq
  rw [ha, hp, events, events, hj, List.reverse_append, List.reverse_reverse,
    Assembly.replay_append]

theorem untagged_closeAll (p : Pass) (g : Grammar) : Untagged p (p.closeAll g) := by
  unfold closeAll
  rw [foldl_unwind]
  exact ⟨_, flatMap_tags_leaving _ _ _, rfl, rfl⟩

end Pass

/-- The tags of an outline, attached or not, are the tags that were parsed in the comments that the
scan has read; and this rests on the assembly alone, which keeps the tags of its comments whatever
the order of its events. -/
theorem scan_conserves_tags :
    (∀ (s : Setup) (source : List Char),
      ((s.scan source).outline.root.allTags ++ (s.scan source).outline.unresolved).map Tag.plain ~
        (Pass.parsedTags s.registry (s.commentsRead source)).map Tag.plain) ∧
    ∀ (source : List Char) (maxBlankLines : Nat) (es : List Event) (stop : Position),
      let o := (((Assembly.start source maxBlankLines).replay es).finish stop).outline
      (o.root.allTags ++ o.unresolved).map Tag.plain ~ (es.flatMap Event.tags).map Tag.plain := by
  refine ⟨fun s source ↦ ?_, Assembly.perm_tags_replay_finish⟩
  have hreach := Pass.reaches_run s (Pass.start s source)
  have hread : (Pass.run s (Pass.start s source)).read? = none := by
    have hend := Pass.step_run (Pass.atComment_start s source)
    rcases (Pass.ahead_eq_nil_of_step_eq_none hend).2 with h | h <;> rw [Pass.read?, h]
  have hassembly := Pass.assembly_eq_replay hreach
  have htags := Pass.flatMap_tags_iterate (s := s) (4 * (source.length + 1))
    (Pass.start s source) hread
  obtain ⟨es, hes, ha, -⟩ := Pass.untagged_closeAll (Pass.run s (Pass.start s source)) s.grammar
  have h := Assembly.perm_tags_replay_finish source s.options.maxBlankLines
    ((Pass.run s (Pass.start s source)).events ++ es)
    ((Pass.run s (Pass.start s source)).closeAll s.grammar).cursor.position
  rw [Assembly.replay_append, ← hassembly, ← ha, List.flatMap_append, hes, List.append_nil] at h
  refine h.trans ?_
  rw [show (Pass.run s (Pass.start s source)).events.flatMap Event.tags =
    Pass.parsedTags s.registry (s.commentsRead source) from htags]

end Marginalia
