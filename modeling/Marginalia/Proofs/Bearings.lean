import Marginalia.Proofs.Attachment
import Marginalia.Proofs.Stride

/-!
# Where the findings of a scan lie

What a scan has found lies behind its cursor: the tags that it has placed or given up, the nodes of
its outline, and what it has reported.
-/

namespace Marginalia

namespace Assembly

variable {a : Assembly} {d : Diagnostic}

/-- A diagnostic about one of the given tags, which is not attached. -/
def About (tags : List Tag) (d : Diagnostic) : Prop :=
  d.kind = .unresolvedTag ∧ ∃ t ∈ tags, t.span = d.span

theorem mem_report {tags : List Tag} {why : String} (h : d ∈ (a.report tags why).diagnostics) :
    d ∈ a.diagnostics ∨ About tags d := by
  rcases List.mem_append.mp h with h | h
  · exact .inl h
  · obtain ⟨t, ht, rfl⟩ := List.mem_map.mp h
    exact .inr ⟨rfl, t, ht, rfl⟩

theorem About.of_waiting {w : Waiting} (h : About w.tags d) (hw : w ∈ a.waiting) :
    About (a.waiting.flatMap (·.tags)) d := by
  obtain ⟨hkind, t, ht, hspan⟩ := h
  exact ⟨hkind, t, List.mem_flatMap.mpr ⟨w, hw, ht⟩, hspan⟩

theorem mem_waiting_of_waitingAt? {n : Nat} {w : Waiting} (h : a.waitingAt? n = some w) :
    w ∈ a.waiting := by
  rw [(waiting_of_waitingAt? h).2]
  exact List.mem_cons_self

theorem mem_comment_diagnostics {tags : List Tag} {span : Span} {depth : Nat}
    (h : d ∈ (a.comment tags span depth).diagnostics) :
    d ∈ a.diagnostics ∨ About (a.waiting.flatMap (·.tags)) d := by
  have hfree : ∀ b : Assembly, (b.placeFree tags span).diagnostics = b.diagnostics := by
    intro b
    unfold placeFree
    dsimp only
    split
    · rfl
    · exact mapTop_diagnostics b _
  rw [comment, hfree, awaitAnchor] at h
  dsimp only at h
  have hwaiting : (a.attachEnclosing tags).waitingAt? depth = a.waitingAt? depth := by
    simp [waitingAt?]
  rw [hwaiting] at h
  split at h
  · exact .inl (by simpa [attachEnclosing] using h)
  · cases hw : a.waitingAt? depth with
    | none =>
      rw [hw] at h
      exact .inl (by simpa [attachEnclosing] using h)
    | some old =>
      simp only [hw, fallBack, mapTop_diagnostics] at h
      rcases mem_report h with h | h
      · exact .inl (by simpa [dropWaiting, attachEnclosing] using h)
      · exact .inr (h.of_waiting (mem_waiting_of_waitingAt? hw))

theorem mem_anchor_diagnostics {anchor : Anchor} {depth : Nat}
    (h : d ∈ (a.anchor anchor depth).diagnostics) :
    d ∈ a.diagnostics ∨ About (a.waiting.flatMap (·.tags)) d := by
  unfold Assembly.anchor at h
  cases hw : a.waitingAt? depth with
  | none =>
    rw [hw] at h
    exact .inl (by simpa [addAnchor] using h)
  | some w =>
    simp only [hw] at h
    split at h
    · simp only [addAnchor, fallBack, mapTop_diagnostics] at h
      rcases mem_report h with h | h
      · exact .inl h
      · exact .inr (h.of_waiting (mem_waiting_of_waitingAt? hw))
    · exact .inl (by simpa [addAnchor, dropWaiting] using h)

theorem mem_closeWaiting_diagnostics {depth : Nat} {ws : List Waiting}
    (h : d ∈ (a.closeWaiting depth ws).diagnostics) :
    d ∈ a.diagnostics ∨ About (ws.flatMap (·.tags)) d := by
  induction ws generalizing a with
  | nil => exact .inl h
  | cons w ws ih =>
    unfold closeWaiting at h
    split at h
    · rcases ih h with h | ⟨hkind, t, ht, hspan⟩
      · rcases mem_report h with h | ⟨hkind, t, ht, hspan⟩
        · exact .inl h
        · exact .inr ⟨hkind, t, List.mem_append_left _ ht, hspan⟩
      · exact .inr ⟨hkind, t, List.mem_append_right _ ht, hspan⟩
    · exact .inl h

theorem leaveBody_diagnostics (a : Assembly) (stop : Position) :
    (a.leaveBody stop).diagnostics = a.diagnostics := by
  unfold leaveBody
  split
  · rfl
  · simp

theorem endBodies_diagnostics (a : Assembly) (stop : Position) :
    (a.endBodies stop).diagnostics = a.diagnostics := by
  unfold endBodies
  generalize a.frames.length = n
  induction n with
  | zero => rfl
  | succ n ih => exact (leaveBody_diagnostics _ stop).trans ih

theorem enterBody_diagnostics (a : Assembly) (p : Position) :
    (a.enterBody p).diagnostics = a.diagnostics := by
  unfold enterBody
  split
  · rfl
  split
  · rfl
  split
  · rfl
  · simp

/-- What an event reports is about tags that have waited. -/
theorem mem_apply_diagnostics {e : Event} (h : d ∈ (a.apply e).diagnostics) :
    d ∈ a.diagnostics ∨ About (a.waiting.flatMap (·.tags)) d := by
  cases e with
  | comment tags span depth => exact mem_comment_diagnostics h
  | anchor anchor depth => exact mem_anchor_diagnostics h
  | bracketOpened pair position => exact .inl h
  | bracketClosed pair position => exact .inl h
  | bodyEntered p => exact .inl (a.enterBody_diagnostics p ▸ h)
  | bodyLeft stop => exact .inl (a.leaveBody_diagnostics stop ▸ h)
  | blockClosed depth => exact mem_closeWaiting_diagnostics h

/-- What the end of the text reports is about tags that still wait. -/
theorem mem_finish_diagnostics {stop : Position} (h : d ∈ (a.finish stop).diagnostics) :
    d ∈ a.diagnostics ∨ About (a.waiting.flatMap (·.tags)) d := by
  have hwaiting : ∀ (ws : List Waiting) (b : Assembly),
      d ∈ (ws.foldl (·.giveUp · "no anchor before end of input") b).diagnostics →
        d ∈ b.diagnostics ∨ About (ws.flatMap (·.tags)) d := by
    intro ws
    induction ws with
    | nil => exact fun b hd ↦ .inl hd
    | cons w ws ih =>
      intro b hd
      rcases ih _ hd with hd | ⟨hkind, t, ht, hspan⟩
      · rcases mem_report hd with hd | ⟨hkind, t, ht, hspan⟩
        · exact .inl hd
        · exact .inr ⟨hkind, t, List.mem_append_left _ ht, hspan⟩
      · exact .inr ⟨hkind, t, List.mem_append_right _ ht, hspan⟩
  refine hwaiting a.waiting a ?_
  have hd : d ∈ (a.endWaiting.endBodies stop).diagnostics := List.mem_mergeSort.mp h
  rw [endBodies_diagnostics] at hd
  exact hd

/-- What has been reported is about tags of the assembly. -/
theorem about_replay (source : List Char) (maxBlankLines : Nat) (es : List Event) :
    ∀ d ∈ ((start source maxBlankLines).replay es).diagnostics,
      About ((start source maxBlankLines).replay es).tags d := by
  have hkeep : ∀ (a : Assembly) (e : Event), (∀ d ∈ a.diagnostics, About a.tags d) →
      ∀ d ∈ (a.apply e).diagnostics, About (a.apply e).tags d := by
    intro a e ha d hd
    have hsub : ∀ t ∈ a.tags, t ∈ (a.apply e).tags := by
      intro t ht
      rw [(a.tags_apply e).mem_iff]
      exact List.mem_append_right _ ht
    rcases mem_apply_diagnostics hd with hd | ⟨hkind, t, ht, hspan⟩
    · obtain ⟨hkind, t, ht, hspan⟩ := ha d hd
      exact ⟨hkind, t, hsub t ht, hspan⟩
    · refine ⟨hkind, t.plain, hsub _ ?_, hspan⟩
      exact List.mem_map.mpr ⟨t, List.mem_append_right _ ht, rfl⟩
  have hrun : ∀ (es : List Event) (a : Assembly), (∀ d ∈ a.diagnostics, About a.tags d) →
      ∀ d ∈ (a.replay es).diagnostics, About (a.replay es).tags d := by
    intro es
    induction es with
    | nil => exact fun a ha ↦ ha
    | cons e es ih => exact fun a ha ↦ ih (a.apply e) (hkeep a e ha)
  exact hrun es _ fun d hd ↦ by cases hd

/-- Whatever an assembly reports is about tags of its comments. -/
theorem about_finish (source : List Char) (maxBlankLines : Nat) (es : List Event)
    (stop : Position) :
    ∀ d ∈ (((start source maxBlankLines).replay es).finish stop).diagnostics,
      About (es.flatMap Event.tags) d := by
  intro d hd
  have habout : About ((start source maxBlankLines).replay es).tags d := by
    rcases mem_finish_diagnostics hd with hd | ⟨hkind, t, ht, hspan⟩
    · exact about_replay source maxBlankLines es d hd
    · exact ⟨hkind, t.plain, List.mem_map.mpr ⟨t, List.mem_append_right _ ht, rfl⟩, hspan⟩
  obtain ⟨hkind, t, ht, hspan⟩ := habout
  rw [(tags_replay _ es).mem_iff, List.mem_append] at ht
  rcases ht with ht | ht
  · obtain ⟨u, hu, rfl⟩ := List.mem_map.mp ht
    exact ⟨hkind, u, hu, hspan⟩
  · cases ht

end Assembly

namespace Pass

variable {s : Setup} {source : List Char} {p q : Pass}

theorem tag_start_lt_clock (h : Reaches (step s) (start s source) p) {t : Tag}
    (ht : t ∈ p.assembly.tags) : t.span.start.offset < p.clock := by
  rw [assembly_eq_replay h, (Assembly.tags_replay _ _).mem_iff, List.mem_append] at ht
  rcases ht with ht | ht
  · obtain ⟨u, hu, rfl⟩ := List.mem_map.mp ht
    obtain ⟨e, he, hu⟩ := List.mem_flatMap.mp hu
    have hin := (recorded_of_reaches h).inPlace e (List.mem_reverse.mp he)
    cases e with
    | comment tags span depth => exact (hin.2.2 u hu).2.trans_le hin.1
    | _ => cases hu
  · cases ht

section Rest

variable (h : Reaches (step s) (start s source) p) (hmode : p.mode = .code)

include h hmode

theorem clock_le_of_code : p.clock ≤ p.cursor.position.offset :=
  (reaches_moves h).2.clock_le (settled_of_mode hmode (by simp))

/-- Tags that are seated start behind the cursor. -/
theorem tag_start_lt {x : Seat × Tag} (hx : x ∈ p.assembly.seated) :
    x.2.span.start.offset < p.cursor.position.offset := by
  have hmem : x.2.plain ∈ p.assembly.tags :=
    List.mem_map.mpr ⟨x.2, List.mem_append_left _ (List.mem_map.mpr ⟨x, hx, rfl⟩), rfl⟩
  exact (tag_start_lt_clock h hmem).trans_le (clock_le_of_code h hmode)

theorem unresolved_start_lt :
    ∀ t ∈ p.assembly.unresolved, t.span.start.offset < p.cursor.position.offset := by
  intro t ht
  have hx : (Seat.unresolved, t) ∈ p.assembly.seated :=
    List.mem_append_right _ (List.mem_map.mpr ⟨t, ht, rfl⟩)
  exact tag_start_lt h hmode hx

/-- What the outline reports starts behind the cursor. -/
theorem assembly_diagnostics_lt : ∀ d ∈ p.assembly.diagnostics,
    d.kind = .unresolvedTag ∧ d.span.start.offset < p.cursor.position.offset := by
  intro d hd
  have habout := Assembly.about_replay source s.options.maxBlankLines p.events
  rw [← assembly_eq_replay h] at habout
  obtain ⟨hkind, t, ht, hspan⟩ := habout d hd
  rw [← hspan]
  exact ⟨hkind, (tag_start_lt_clock h ht).trans_le (clock_le_of_code h hmode)⟩

/-- A node that comes later goes behind all children of the root. -/
theorem key_le_of_mem_root :
    ∀ c ∈ p.assembly.root.children, c.key ≤ p.cursor.position.offset := by
  intro c hc
  have hopen := (sound_of_reaches h).nested.isOpen p.assembly.root
    (List.mem_append_right _ (List.mem_singleton_self _))
  have hfits := hopen.2 c hc c c.mem_nodes_self
  have hstart : c.span.start.offset ≤ p.cursor.position.offset :=
    (hfits.ordered.trans (hopen.1.inside c hc).2).trans (clock_le_of_code h hmode)
  unfold Node.key
  split
  · exact hstart
  · rename_i t ha ht
    have hseat : (Seat.node none, t) ∈ p.assembly.seated := by
      refine List.mem_append_left _ (List.mem_append_left _ ?_)
      rw [Node.held_eq]
      refine List.mem_append_right _ (List.mem_flatMap.mpr ⟨c, hc, ?_⟩)
      exact Node.mem_seated_iff.mpr ⟨c, c.mem_nodes_self, ha, List.mem_of_head? ht⟩
    exact Nat.le_of_lt (tag_start_lt h hmode hseat)
  · exact (Nat.min_le_right _ _).trans hstart

end Rest

end Pass

/-! ## The findings of a scan -/

variable (s : Setup) (source : List Char)

/-- What closes at the end of the text sends no other events than bodies that end. -/
theorem Setup.events_eq :
    let p := Pass.run s (Pass.start s source)
    s.events source =
      p.events ++ p.nesting.contexts.flatMap (Context.leaving p.cursor.position p.lastEnd) := by
  rw [events, Pass.closeAll_eq]
  simp [Pass.events, Pass.send, Pass.note]

/-- The findings of a scan are assembled from its events; to what the assembly reports come what the
scan has reported and the brackets that are still open. -/
theorem Setup.scan_eq :
    let p := Pass.run s (Pass.start s source)
    let found := ((Assembly.start source s.options.maxBlankLines).replay (s.events source)).finish
      (Position.start.after source)
    s.scan source =
      { found with
        diagnostics := sortDiagnostics (found.diagnostics ++ (p.diagnostics ++
          p.nesting.contexts.flatMap
            (Context.unwindNotes s.grammar (Position.start.after source) none))) } := by
  have hreach := Pass.reaches_run s (Pass.start s source)
  rw [events_eq, Assembly.replay_append, ← Pass.assembly_eq_replay hreach, ← Pass.position_run s,
    scan, Pass.findings, Pass.closeAll_eq]
  rfl

end Marginalia
