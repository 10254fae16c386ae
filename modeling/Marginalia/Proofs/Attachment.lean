import Marginalia.Proofs.Containment
import Marginalia.Proofs.Settlement

/-!
# Attachment

The tags of a comment for the next anchor are attached by rule. The first later event that settles
them decides: an anchor at their depth takes them unless too many blank lines lie in between,
otherwise they stay in place; where a block closes or the text ends first, they are unresolved.
-/

namespace Marginalia

open scoped List

/-! ## The record of a course -/

namespace Event

/-- An event that is neither a comment nor an anchor. -/
def isQuiet : Event → Bool
  | .comment _ _ _ | .anchor _ _ => false
  | .bracketOpened _ _ | .bracketClosed _ _ | .bodyEntered _ | .bodyLeft _ | .blockClosed _ => true

/-- Comments end and anchors start where a character does, the tags of a comment start inside it
and are not attached yet, and it is over by the clock. -/
def InPlace (source : List Char) (clock : Nat) : Event → Prop
  | .comment tags span _ => span.stop.offset ≤ clock ∧ Text.IsPlace source span.stop.offset ∧
      ∀ t ∈ tags, t.resolved = false ∧ t.span.start.offset < span.stop.offset
  | .anchor a _ => Text.IsPlace source a.span.start.offset
  | .bracketOpened _ _ | .bracketClosed _ _ | .bodyEntered _ | .bodyLeft _ | .blockClosed _ => True

/-- A comment shares no tag with a later comment and ends before a later anchor starts. -/
def Before : Event → Event → Prop
  | .comment tags _ _, .comment tags' _ _ => ∀ t ∈ tags, t ∉ tags'
  | .comment _ span _, .anchor a _ => span.stop.offset ≤ a.span.start.offset
  | _, _ => True

theorem before_of_isQuiet {e f : Event} (h : f.isQuiet = true) : e.Before f := by
  cases f with
  | comment | anchor => cases h
  | bracketOpened | bracketClosed | bodyEntered | bodyLeft | blockClosed => cases e <;> trivial

theorem inPlace_of_isQuiet {e : Event} (h : e.isQuiet = true) (source : List Char) (clock : Nat) :
    e.InPlace source clock := by
  cases e with
  | comment | anchor => cases h
  | bracketOpened | bracketClosed | bodyEntered | bodyLeft | blockClosed => trivial

theorem InPlace.mono {e : Event} {source : List Char} {clock clock' : Nat}
    (h : e.InPlace source clock) (hle : clock ≤ clock') : e.InPlace source clock' := by
  cases e with
  | comment => exact ⟨h.1.trans hle, h.2⟩
  | anchor => exact h
  | bracketOpened | bracketClosed | bodyEntered | bodyLeft | blockClosed => trivial

theorem isQuiet_of_isBracket {e : Event} (h : e.isBracket = true) : e.isQuiet = true := by
  cases e <;> first | rfl | cases h

end Event

namespace Assembly

/-- Quiet events come in order whenever deeper tags wait later. -/
theorem orderly_of_isQuiet {a : Assembly} {es : List Event} (h : ∀ e ∈ es, e.isQuiet = true)
    (hdeeper : a.waiting.Pairwise fun v w ↦ w.depth < v.depth) : a.Orderly es := by
  induction es generalizing a with
  | nil => trivial
  | cons e es ih =>
    have he := h e List.mem_cons_self
    refine ⟨⟨hdeeper, ?_⟩, ih (fun f hf ↦ h f (List.mem_cons_of_mem _ hf)) ?_⟩
    · intro d hd
      cases e with
      | comment | anchor => cases he
      | bracketOpened | bracketClosed | bodyEntered | bodyLeft | blockClosed => cases hd
    · cases e with
      | comment | anchor => cases he
      | bracketOpened | bracketClosed => exact hdeeper
      | bodyEntered p => rw [apply, enterBody_waiting]; exact hdeeper
      | bodyLeft stop => rw [apply, leaveBody_waiting]; exact hdeeper
      | blockClosed d =>
        rw [apply, blockClosed, (a.closeWaiting_fields d a.waiting).1]
        exact hdeeper.sublist (List.dropWhile_sublist _)

end Assembly

namespace Course

variable {source : List Char} {a : Assembly} {c d : Course}

/-- The journal of a course: the assembly is its replay, and its events come in order. -/
structure Recorded (source : List Char) (a : Assembly) (c : Course) : Prop where
  assembly : c.assembly = a.replay c.journal.reverse
  orderly : a.Orderly c.journal.reverse
  inPlace : ∀ e ∈ c.journal, e.InPlace source c.clock
  before : c.journal.Pairwise fun f e ↦ e.Before f

/-- Events that come in order may be recorded. -/
theorem Recorded.send (h : c.Recorded source a) (es : List Event) (horderly : c.assembly.Orderly es)
    {clock : Nat} (hle : c.clock ≤ clock) (hin : ∀ e ∈ es, e.InPlace source clock)
    (hbefore : ∀ e ∈ c.journal, ∀ f ∈ es, e.Before f) (hes : es.Pairwise Event.Before)
    {contexts : List Context} {awaits : Option Nat} :
    { c.send es with contexts, awaits, clock }.Recorded source a where
  assembly := by
    change c.assembly.replay es = a.replay (es.reverse ++ c.journal).reverse
    rw [h.assembly, List.reverse_append, List.reverse_reverse, Assembly.replay_append]
  orderly := by
    change a.Orderly (es.reverse ++ c.journal).reverse
    rw [List.reverse_append, List.reverse_reverse, Assembly.orderly_append, ← h.assembly]
    exact ⟨h.orderly, horderly⟩
  inPlace := by
    intro e he
    rcases List.mem_append.mp he with he | he
    · exact hin e (List.mem_reverse.mp he)
    · exact (h.inPlace e he).mono hle
  before := by
    refine List.pairwise_append.mpr ⟨List.pairwise_reverse.mpr hes, h.before, ?_⟩
    intro f hf e he
    exact hbefore e he f (List.mem_reverse.mp hf)

theorem Recorded.send_quiet (h : c.Recorded source a) (hsound : c.Sound) {es : List Event}
    (hes : ∀ e ∈ es, e.isQuiet = true) {clock : Nat} (hle : c.clock ≤ clock)
    {contexts : List Context} {awaits : Option Nat} :
    { c.send es with contexts, awaits, clock }.Recorded source a := by
  refine h.send es (Assembly.orderly_of_isQuiet hes hsound.deeper) hle ?_ ?_ ?_
  · exact fun e he ↦ Event.inPlace_of_isQuiet (hes e he) source clock
  · exact fun e _ f hf ↦ Event.before_of_isQuiet (hes f hf)
  · exact List.pairwise_of_forall_mem_list fun e _ f hf ↦ Event.before_of_isQuiet (hes f hf)

theorem isQuiet_of_mem_closing {stops : List Position} {depth : Nat} {e : Event}
    (he : e ∈ Event.closing stops depth) : e.isQuiet = true := by
  rw [Event.closing, List.mem_append, List.mem_map, List.mem_singleton] at he
  rcases he with ⟨stop, -, rfl⟩ | rfl <;> rfl

/-- An event at the depth of the scan may be recorded. -/
theorem Recorded.send_here (h : c.Recorded source a) (hsound : c.Sound) (e : Event)
    (hdepth : e.depth? = some c.contexts.length) {clock : Nat} (hle : c.clock ≤ clock)
    (hin : e.InPlace source clock) (hbefore : ∀ f ∈ c.journal, f.Before e)
    {contexts : List Context} {awaits : Option Nat} :
    { c.send [e] with contexts, awaits, clock }.Recorded source a := by
  have hadmits : c.assembly.Admits e := by
    refine ⟨hsound.deeper, ?_⟩
    intro d hd w hw
    rw [hdepth] at hd
    cases hd
    exact (hsound.timely w hw).depth
  refine h.send [e] ⟨hadmits, trivial⟩ hle ?_ ?_ (List.pairwise_singleton _ _)
  · intro f hf
    rw [List.mem_singleton.mp hf]
    exact hin
  · intro f hf g hg
    rw [List.mem_singleton.mp hg]
    exact hbefore f hf

theorem Move.recorded (hsound : c.Sound) (h : c.Recorded source a) (hmove : Move source c d) :
    d.Recorded source a := by
  cases hmove with
  | idle brackets waits later =>
    exact h.send_quiet hsound (fun e he ↦ Event.isQuiet_of_isBracket (brackets e he)) later
  | comment later ordered inside place =>
    refine h.send_here hsound (.comment _ _ _) rfl (later.trans ordered)
      ⟨Nat.le_refl _, place, fun t ht ↦ ⟨(inside t ht).1, (inside t ht).2.2⟩⟩ ?_
    intro e he
    have hin := h.inPlace e he
    cases e with
    | comment tags' span' d' =>
      -- the tags of an earlier comment start before the clock, the new ones after it
      intro t ht hnew
      have h₁ := (hin.2.2 t ht).2
      have h₂ := (inside t hnew).2.1
      have h₃ := hin.1
      omega
    | anchor | bracketOpened | bracketClosed | bodyEntered | bodyLeft | blockClosed => trivial
  | anchor later ordered kinds place =>
    refine h.send_here hsound (.anchor _ _) rfl (later.trans ordered) place ?_
    intro e he
    have hin := h.inPlace e he
    cases e with
    | comment tags' span' d' => exact hin.1.trans later
    | anchor | bracketOpened | bracketClosed | bodyEntered | bodyLeft | blockClosed => trivial
  | openBlock later fresh =>
    exact ⟨h.assembly, h.orderly, fun e he ↦ (h.inPlace e he).mono later, h.before⟩
  | enterBody later waits ready =>
    exact h.send_quiet hsound (fun e he ↦ by rw [List.mem_singleton.mp he]; rfl) later
  | close split each ordered between later waits =>
    exact h.send_quiet hsound (fun e he ↦ isQuiet_of_mem_closing he) later

end Course

/-- The events that the outline of a text is assembled from. -/
def Setup.events (s : Setup) (source : List Char) : List Event :=
  ((Pass.run s (Pass.start s source)).closeAll s.grammar).events

namespace Pass

variable {s : Setup} {source : List Char} {p : Pass}

/-- The course of every pass that a scan reaches is recorded. -/
theorem recorded_of_reaches (h : Reaches (step s) (start s source) p) :
    p.course.Recorded source (.start source s.options.maxBlankLines) := by
  have hstart : (start s source).course.Sound ∧
      (start s source).course.Recorded source (.start source s.options.maxBlankLines) :=
    ⟨Course.sound_start s source, rfl, trivial, fun e he ↦ (by cases he), .nil⟩
  refine ((reaches_moves h).1.invariant (P := fun c ↦ c.Sound ∧
    c.Recorded source (.start source s.options.maxBlankLines)) ?_ hstart).2
  rintro c d ⟨hsound, hrec⟩ hmove
  exact ⟨hmove.sound hsound, hmove.recorded hsound hrec⟩

/-- Closing what is open at the end of the text adds to the record. -/
theorem recorded_closeAll (hreg : p.Regular s.grammar source) (hsound : p.course.Sound)
    (hrec : p.course.Recorded source (.start source s.options.maxBlankLines)) :
    (p.closeAll s.grammar).course.Recorded source (.start source s.options.maxBlankLines) := by
  have heq : (p.closeAll s.grammar).course =
      { p.course.send (p.nesting.contexts.flatMap
          (Context.leaving p.cursor.position p.lastEnd)) with
        contexts := [], awaits := p.course.awaits, clock := p.course.clock } := by
    unfold closeAll
    rw [foldl_unwind]
    rfl
  rw [heq]
  refine hrec.send_quiet hsound ?_ (Nat.le_refl _)
  intro e he
  rw [flatMap_leaving _ _ hreg.contexts, List.mem_map] at he
  obtain ⟨stop, -, rfl⟩ := he
  rfl

end Pass

/-- The outline of a text is assembled from its events, which come in order. -/
theorem scan_record (s : Setup) (source : List Char) :
    (∃ stop, (s.scan source).outline =
      (((Assembly.start source s.options.maxBlankLines).replay (s.events source)).finish stop).outline) ∧
      (Assembly.start source s.options.maxBlankLines).Orderly (s.events source) ∧
      (∀ e ∈ s.events source, ∃ clock, e.InPlace source clock) ∧
      (s.events source).Pairwise Event.Before ∧ (s.scan source).outline.root.anchor = none := by
  generalize hp : Pass.run s (Pass.start s source) = p
  have hreach : Reaches (Pass.step s) (Pass.start s source) p := hp ▸ Pass.reaches_run s _
  have hend : Pass.step s p = none := hp ▸ Pass.step_run (Pass.atComment_start s source)
  have hsettled : p.Settled := by
    intro c
    rcases (Pass.ahead_eq_nil_of_step_eq_none hend).2 with h | h <;> rw [h] <;> simp
  have hreg := (Pass.reaches_moves hreach).2
  have hsound := Pass.sound_of_reaches hreach
  have hrec := Pass.recorded_closeAll hreg hsound (Pass.recorded_of_reaches hreach)
  obtain ⟨hnested, hframes⟩ := Pass.closeAll_nested hreg hsound hsettled
  have hevents : s.events source = (p.closeAll s.grammar).course.journal.reverse := by
    rw [Setup.events, hp]
    rfl
  have hout : (s.scan source).outline =
      ((p.closeAll s.grammar).assembly.finish (p.closeAll s.grammar).cursor.position).outline := by
    rw [← hp]
    rfl
  refine ⟨⟨(p.closeAll s.grammar).cursor.position, ?_⟩, ?_, ?_, ?_, ?_⟩
  · rw [hout, hevents, ← hrec.assembly]
    rfl
  · rw [hevents]
    exact hrec.orderly
  · intro e he
    rw [hevents, List.mem_reverse] at he
    exact ⟨_, hrec.inPlace e he⟩
  · rw [hevents]
    exact List.pairwise_reverse.mpr hrec.before
  · rw [hout, Assembly.finish_root _ _ hframes]
    exact hnested.root_anchor

/-! ## The rule -/

theorem Text.IsPlace.slice? {source : List Char} {m n : Nat} (hm : Text.IsPlace source m)
    (hn : Text.IsPlace source n) (hle : m ≤ n) : ∃ gap, Text.slice? source m n = some gap := by
  obtain ⟨pre, post, rfl, rfl⟩ := hm
  obtain ⟨pre', post', heq, rfl⟩ := hn
  have hpre : pre <+: pre' := by
    rcases List.prefix_or_prefix_of_prefix ⟨post, rfl⟩ ⟨post', heq.symm⟩ with h | ⟨mid, rfl⟩
    · exact h
    · have hmid : mid = [] := by
        rw [Text.byteSize_append] at hle
        have := Text.length_le_byteSize mid
        exact List.length_eq_zero_iff.mp (by omega)
      simp [hmid]
  obtain ⟨mid, rfl⟩ := hpre
  refine ⟨mid, ?_⟩
  rw [heq, List.append_assoc, Text.byteSize_append]
  exact Text.slice?_append pre mid post'

/-- What comments bring is settled comment by comment. -/
theorem mem_settlement_iff {source : List Char} {maxBlankLines : Nat} {es : List Event}
    {x : Seat × Tag} :
    x ∈ settlement source maxBlankLines es ↔
      ∃ pre tags span d later, es = pre ++ .comment tags span d :: later ∧
        x ∈ Waiting.seats source maxBlankLines ⟨tags.filter (·.placement = .nextAnchor), span, d⟩
          (later.find? (·.settles d)) := by
  induction es with
  | nil => simp [settlement]
  | cons e es ih =>
    have hskip : (∃ pre tags span d later, e :: es = pre ++ .comment tags span d :: later ∧
        x ∈ Waiting.seats source maxBlankLines ⟨tags.filter (·.placement = .nextAnchor), span, d⟩
          (later.find? (·.settles d))) ↔
        (∃ tags span d, e = .comment tags span d ∧
          x ∈ Waiting.seats source maxBlankLines ⟨tags.filter (·.placement = .nextAnchor), span, d⟩
            (es.find? (·.settles d))) ∨ x ∈ settlement source maxBlankLines es := by
      rw [ih]
      constructor
      · rintro ⟨pre, tags, span, d, later, heq, hx⟩
        rcases List.cons_eq_append_iff.mp heq with ⟨rfl, heq⟩ | ⟨pre, rfl, rfl⟩
        · cases heq
          exact .inl ⟨tags, span, d, rfl, hx⟩
        · exact .inr ⟨pre, tags, span, d, later, rfl, hx⟩
      · rintro (⟨tags, span, d, rfl, hx⟩ | ⟨pre, tags, span, d, later, rfl, hx⟩)
        · exact ⟨[], tags, span, d, es, rfl, hx⟩
        · exact ⟨e :: pre, tags, span, d, later, rfl, hx⟩
    rw [hskip]
    cases e with
    | comment tags span d =>
      rw [settlement, List.mem_append]
      refine or_congr_left ⟨fun hx ↦ ⟨tags, span, d, rfl, hx⟩, ?_⟩
      rintro ⟨tags', span', d', heq, hx⟩
      cases heq
      exact hx
    | anchor | bracketOpened | bracketClosed | bodyEntered | bodyLeft | blockClosed =>
      simp [settlement]

/-- The tags that are settled are the tags that wait, attached or not. -/
theorem Waiting.mem_of_mem_seats {source : List Char} {maxBlankLines : Nat} {w : Waiting}
    {e : Option Event} {x : Seat × Tag} (h : x ∈ w.seats source maxBlankLines e) :
    ∃ t ∈ w.tags, x.2 = t ∨ x.2 = t.resolve := by
  have hplain : ∀ seat, x ∈ w.tags.map (seat, ·) → ∃ t ∈ w.tags, x.2 = t ∨ x.2 = t.resolve := by
    intro seat hx
    obtain ⟨t, ht, rfl⟩ := List.mem_map.mp hx
    exact ⟨t, ht, .inl rfl⟩
  unfold seats at h
  split at h
  · split at h
    · exact hplain _ h
    · obtain ⟨t, ht, rfl⟩ := List.mem_map.mp h
      exact ⟨t, ht, .inr rfl⟩
  all_goals exact hplain _ h

section Seats

variable {tags : List Tag} {t : Tag} {seat seat' : Seat}

theorem mem_seats_self_iff (ht : t ∈ tags) : (seat, t) ∈ tags.map (seat', ·) ↔ seat = seat' := by
  simp only [List.mem_map, Prod.mk.injEq, exists_eq_right_right, ht, true_and]
  exact eq_comm

theorem mem_seats_resolve_iff (ht : t ∈ tags) :
    (seat, t.resolve) ∈ tags.map (seat', ·.resolve) ↔ seat = seat' := by
  constructor
  · intro h
    obtain ⟨u, -, hu⟩ := List.mem_map.mp h
    exact (congrArg Prod.fst hu).symm
  · rintro rfl
    exact List.mem_map_of_mem (f := fun u : Tag ↦ (seat, u.resolve)) ht

theorem resolve_notMem_seats (hfresh : ∀ u ∈ tags, u.resolved = false) :
    (seat, t.resolve) ∉ tags.map (seat', ·) := by
  intro h
  obtain ⟨u, hu, heq⟩ := List.mem_map.mp h
  have hu := hfresh u hu
  rw [(Prod.mk.inj heq).2] at hu
  cases hu

theorem notMem_seats_resolve (ht : t.resolved = false) :
    (seat, t) ∉ tags.map (seat', ·.resolve) := by
  intro h
  obtain ⟨u, -, heq⟩ := List.mem_map.mp h
  rw [← (Prod.mk.inj heq).2] at ht
  cases ht

end Seats

namespace Waiting

variable {source : List Char} {k d : Nat} {w : Waiting} {t : Tag} {a : Anchor}

theorem seats_of_far (h : k < blankLinesBefore source w.comment a) :
    w.seats source k (some (.anchor a d)) = w.tags.map (Seat.node none, ·) := if_pos h

theorem seats_of_near (h : blankLinesBefore source w.comment a ≤ k) :
    w.seats source k (some (.anchor a d)) = w.tags.map (Seat.node (some a), ·.resolve) :=
  if_neg (Nat.not_lt.mpr h)

/-- Tags are attached by an anchor that is near enough, and by nothing else. -/
theorem mem_seats_anchor_iff (ht : t ∈ w.tags) (hfresh : ∀ u ∈ w.tags, u.resolved = false)
    {e : Option Event} :
    (Seat.node (some a), t.resolve) ∈ w.seats source k e ↔
      ∃ d, e = some (.anchor a d) ∧ blankLinesBefore source w.comment a ≤ k := by
  have hplain : ∀ seat seat' : Seat, (seat, t.resolve) ∉ w.tags.map (seat', ·) :=
    fun _ _ ↦ resolve_notMem_seats hfresh
  rcases e with - | e
  · simp [seats, hplain]
  cases e with
  | anchor b d =>
    by_cases hk : k < blankLinesBefore source w.comment b
    · rw [seats_of_far hk]
      refine iff_of_false (hplain _ _) ?_
      rintro ⟨d', heq, hle⟩
      cases heq
      omega
    · rw [seats_of_near (Nat.le_of_not_lt hk), mem_seats_resolve_iff ht]
      constructor
      · intro heq
        cases heq
        exact ⟨d, rfl, Nat.le_of_not_lt hk⟩
      · rintro ⟨d', heq, -⟩
        cases heq
        rfl
  | comment tags span d => simp [seats, hplain]
  | bracketOpened | bracketClosed | bodyEntered | bodyLeft | blockClosed => simp [seats, hplain]

/-- Tags stay in place where a comment settles them, or an anchor that is too far away. -/
theorem mem_seats_none_iff (ht : t ∈ w.tags) (hfresh : ∀ u ∈ w.tags, u.resolved = false)
    {e : Option Event} :
    (Seat.node none, t) ∈ w.seats source k e ↔
      (∃ tags span d, e = some (.comment tags span d)) ∨
        ∃ a d, e = some (.anchor a d) ∧ k < blankLinesBefore source w.comment a := by
  have hself : ∀ seat seat' : Seat, (seat, t) ∈ w.tags.map (seat', ·) ↔ seat = seat' :=
    fun _ _ ↦ mem_seats_self_iff ht
  rcases e with - | e
  · simp [seats, hself]
  cases e with
  | anchor b d =>
    by_cases hk : k < blankLinesBefore source w.comment b
    · rw [seats_of_far hk]
      exact iff_of_true ((hself _ _).mpr rfl) (.inr ⟨b, d, rfl, hk⟩)
    · rw [seats_of_near (Nat.le_of_not_lt hk)]
      refine iff_of_false (notMem_seats_resolve (hfresh t ht)) ?_
      rintro (⟨_, _, _, heq⟩ | ⟨b', d', heq, hlt⟩)
      · cases heq
      · cases heq
        exact hk hlt
  | comment tags span d => simp [seats, hself]
  | bracketOpened | bracketClosed | bodyEntered | bodyLeft | blockClosed => simp [seats, hself]

/-- Tags are unresolved where neither an anchor nor a comment settles them. -/
theorem mem_seats_unresolved_iff (ht : t ∈ w.tags) (hfresh : ∀ u ∈ w.tags, u.resolved = false)
    {e : Option Event} :
    (Seat.unresolved, t) ∈ w.seats source k e ↔
      (∀ a d, e ≠ some (.anchor a d)) ∧ ∀ tags span d, e ≠ some (.comment tags span d) := by
  have hself : ∀ seat seat' : Seat, (seat, t) ∈ w.tags.map (seat', ·) ↔ seat = seat' :=
    fun _ _ ↦ mem_seats_self_iff ht
  rcases e with - | e
  · simp [seats, hself]
  cases e with
  | anchor b d =>
    by_cases hk : k < blankLinesBefore source w.comment b
    · rw [seats_of_far hk]
      simp [hself]
    · rw [seats_of_near (Nat.le_of_not_lt hk)]
      exact iff_of_false (notMem_seats_resolve (hfresh t ht)) fun h ↦ h.1 b d rfl
  | comment tags span d => simp [seats, hself]
  | bracketOpened | bracketClosed | bodyEntered | bodyLeft | blockClosed => simp [seats, hself]

end Waiting

/-- Events that share a tag, in a list where none shares a tag with a later one, are the same. -/
theorem eq_of_shared_tag {es pre pre' later later' : List Event} {tags tags' : List Tag}
    {span span' : Span} {d d' : Nat} {t : Tag} (hes : es.Pairwise Event.Before)
    (h : es = pre ++ .comment tags span d :: later)
    (h' : es = pre' ++ .comment tags' span' d' :: later') (ht : t ∈ tags) (ht' : t ∈ tags') :
    Event.comment tags span d = .comment tags' span' d' ∧ later = later' := by
  rw [h] at h' hes
  rcases List.append_eq_append_iff.mp h' with ⟨mid, hpre, heq⟩ | ⟨mid, hpre, heq⟩
  · rcases List.cons_eq_append_iff.mp heq with ⟨rfl, heq⟩ | ⟨mid, rfl, rfl⟩
    · cases heq
      exact ⟨rfl, rfl⟩
    · have hbefore := (List.pairwise_cons.mp (List.pairwise_append.mp hes).2.1).1
        (.comment tags' span' d') (by simp)
      exact absurd ht' (hbefore t ht)
  · rcases List.cons_eq_append_iff.mp heq with ⟨rfl, heq⟩ | ⟨mid, rfl, rfl⟩
    · cases heq
      exact ⟨rfl, rfl⟩
    · rw [hpre, List.append_assoc, List.cons_append] at hes
      have hbefore := (List.pairwise_cons.mp (List.pairwise_append.mp hes).2.1).1
        (.comment tags span d) (by simp)
      exact absurd ht (hbefore t ht')

section Rule

variable {s : Setup} {source : List Char} {pre later : List Event} {tags : List Tag} {span : Span}
  {d : Nat} {t : Tag}

/-- The tags that a comment brings are not attached yet. -/
theorem resolved_of_mem_comment (hevents : s.events source = pre ++ .comment tags span d :: later) :
    ∀ u ∈ tags, u.resolved = false := by
  intro u hu
  obtain ⟨-, -, hplace, -, -⟩ := scan_record s source
  obtain ⟨clock, hin⟩ := hplace (.comment tags span d) (by simp [hevents])
  exact (hin.2.2 u hu).1

/-- The tags of a comment for the next anchor sit where the rule puts them, and nowhere else. -/
theorem mem_seated_scan_iff (hevents : s.events source = pre ++ .comment tags span d :: later)
    (ht : t ∈ tags) (hnext : t.placement = .nextAnchor) {x : Seat × Tag}
    (hx : x.2 = t ∨ x.2 = t.resolve) :
    x ∈ (s.scan source).outline.seated ↔
      x ∈ Waiting.seats source s.options.maxBlankLines
        ⟨tags.filter (·.placement = .nextAnchor), span, d⟩ (later.find? (·.settles d)) := by
  obtain ⟨⟨stop, hout⟩, horderly, -, hbefore, -⟩ := scan_record s source
  have hxnext : x.2.placement = .nextAnchor := by
    rcases hx with hx | hx <;> rw [hx] <;> exact hnext
  have hstart : ¬ (Assembly.start source s.options.maxBlankLines).Destined (s.events source) x := by
    rintro (h | ⟨w, hw, -⟩)
    · cases h
    · cases hw
  have hfinish := Assembly.mem_seated_finish_iff horderly hxnext stop
  rw [hout, hfinish, or_iff_right hstart, mem_settlement_iff]
  constructor
  · rintro ⟨pre', tags', span', d', later', heq, hmem⟩
    obtain ⟨u, hu, hxu⟩ := Waiting.mem_of_mem_seats hmem
    have hu := (List.mem_filter.mp hu).1
    -- the tag is not attached when it is parsed, so the two comments share it
    have hsame : u = t := by
      have htf := resolved_of_mem_comment hevents t ht
      have huf := resolved_of_mem_comment heq u hu
      have hplain : u.plain = t.plain := by
        rcases hx with hx | hx <;> rcases hxu with hxu | hxu <;> rw [hx] at hxu <;>
          simpa using (congrArg Tag.plain hxu).symm
      have hself : ∀ v : Tag, v.resolved = false → v.plain = v := by
        rintro ⟨name, arguments, body, span, placement, resolved⟩ hv
        cases hv
        rfl
      rwa [hself u huf, hself t htf] at hplain
    obtain ⟨heq', rfl⟩ := eq_of_shared_tag hbefore hevents heq ht (hsame ▸ hu)
    cases heq'
    exact hmem
  · exact fun hmem ↦ ⟨pre, tags, span, d, later, hevents, hmem⟩

/-- The seats of an outline whose root has no anchor are its nodes. -/
theorem Outline.mem_seated_iff {o : Outline} (hroot : o.root.anchor = none) :
    (∀ a, (Seat.node (some a), t) ∈ o.seated ↔
      ∃ n ∈ o.root.nodes, n.anchor = some a ∧ t ∈ n.tags) ∧
    ((Seat.node none, t) ∈ o.seated ↔
      ∃ n ∈ o.root.children.flatMap Node.nodes, n.anchor = none ∧ t ∈ n.tags) ∧
    ((Seat.unresolved, t) ∈ o.seated ↔ t ∈ o.unresolved) := by
  have hseat : ∀ a, (Seat.node a, t) ∈ o.seated ↔
      ∃ n ∈ o.root.children.flatMap Node.nodes, n.anchor = a ∧ t ∈ n.tags := by
    intro a
    simp only [seated, Node.held_eq, List.mem_append, List.mem_map, List.mem_flatMap,
      Prod.mk.injEq, reduceCtorEq, false_and, and_false, exists_false, false_or, or_false,
      Node.mem_seated_iff]
    constructor
    · rintro ⟨c, hc, n, hn, h⟩
      exact ⟨n, ⟨c, hc, hn⟩, h⟩
    · rintro ⟨n, ⟨c, hc, hn⟩, h⟩
      exact ⟨c, hc, n, hn, h⟩
  refine ⟨?_, hseat none, ?_⟩
  · intro a
    rw [hseat, Node.nodes_eq]
    simp only [List.mem_cons, exists_eq_or_imp, hroot, reduceCtorEq, false_and, false_or]
  · have hnode : ∀ n : Node, (Seat.unresolved, t) ∉ n.seated := by
      intro n
      rw [← Node.nodes_flatMap_tags]
      simp
    simp [seated, Node.held_eq, hnode]

/-- An anchor that settles tags is at their depth, and the text between their comment and the anchor
says how many blank lines come before it. -/
theorem gap_of_settler (hevents : s.events source = pre ++ .comment tags span d :: later)
    {a : Anchor} {d' : Nat} (hsettler : later.find? (·.settles d) = some (.anchor a d')) :
    d' = d ∧ ∀ P : Nat → Prop, P (blankLinesBefore source span a) ↔
      ∃ gap, Text.slice? source span.stop.offset a.span.start.offset = some gap ∧
        P (blankLines gap) := by
  obtain ⟨-, -, hplace, hbefore, -⟩ := scan_record s source
  have hmem : Event.anchor a d' ∈ later := List.mem_of_find?_eq_some hsettler
  have hdepth : Event.settles d (.anchor a d') = true := List.find?_some hsettler
  obtain ⟨_, hcomment⟩ := hplace (.comment tags span d) (by simp [hevents])
  obtain ⟨_, hanchor⟩ := hplace (.anchor a d') (by simp [hevents, hmem])
  rw [hevents, List.pairwise_append, List.pairwise_cons] at hbefore
  obtain ⟨gap, hgap⟩ := hcomment.2.1.slice? hanchor (hbefore.2.1.1 _ hmem)
  refine ⟨of_decide_eq_true hdepth, fun P ↦ ?_⟩
  rw [blankLinesBefore, hgap]
  simp

/-- Tags are attached to an anchor exactly when it settles them and is near enough. -/
theorem attached_iff_settled (hevents : s.events source = pre ++ .comment tags span d :: later)
    (ht : t ∈ tags) (hnext : t.placement = .nextAnchor) (a : Anchor) :
    (∃ n ∈ (s.scan source).outline.root.nodes, n.anchor = some a ∧ t.resolve ∈ n.tags) ↔
      later.find? (·.settles d) = some (.anchor a d) ∧
        ∃ gap, Text.slice? source span.stop.offset a.span.start.offset = some gap ∧
          blankLines gap ≤ s.options.maxBlankLines := by
  obtain ⟨-, -, -, -, hroot⟩ := scan_record s source
  have hfresh := resolved_of_mem_comment hevents
  rw [← (Outline.mem_seated_iff hroot).1, mem_seated_scan_iff hevents ht hnext (.inr rfl),
    Waiting.mem_seats_anchor_iff (List.mem_filter.mpr ⟨ht, decide_eq_true hnext⟩)
      fun u hu ↦ hfresh u (List.mem_filter.mp hu).1]
  constructor
  · rintro ⟨d', he, hle⟩
    obtain ⟨rfl, hgap⟩ := gap_of_settler hevents he
    exact ⟨he, (hgap (· ≤ s.options.maxBlankLines)).mp hle⟩
  · rintro ⟨he, hgap⟩
    exact ⟨d, he, ((gap_of_settler hevents he).2 (· ≤ s.options.maxBlankLines)).mpr hgap⟩

/-- Tags stay in place exactly when a comment settles them, or an anchor that is too far away. -/
theorem left_in_place_iff_settled
    (hevents : s.events source = pre ++ .comment tags span d :: later) (ht : t ∈ tags)
    (hnext : t.placement = .nextAnchor) :
    (∃ n ∈ (s.scan source).outline.root.children.flatMap Node.nodes,
        n.anchor = none ∧ t ∈ n.tags) ↔
      (∃ tags' span', later.find? (·.settles d) = some (.comment tags' span' d)) ∨
      ∃ a, later.find? (·.settles d) = some (.anchor a d) ∧
        ∃ gap, Text.slice? source span.stop.offset a.span.start.offset = some gap ∧
          s.options.maxBlankLines < blankLines gap := by
  obtain ⟨-, -, -, -, hroot⟩ := scan_record s source
  have hfresh := resolved_of_mem_comment hevents
  rw [← (Outline.mem_seated_iff hroot).2.1, mem_seated_scan_iff hevents ht hnext (.inl rfl),
    Waiting.mem_seats_none_iff (List.mem_filter.mpr ⟨ht, decide_eq_true hnext⟩)
      fun u hu ↦ hfresh u (List.mem_filter.mp hu).1]
  refine or_congr ⟨?_, ?_⟩ ⟨?_, ?_⟩
  · rintro ⟨tags', span', d', he⟩
    have hd : Event.settles d (.comment tags' span' d') = true := List.find?_some he
    simp only [Event.settles, Bool.and_eq_true, decide_eq_true_eq] at hd
    exact ⟨tags', span', hd.1 ▸ he⟩
  · rintro ⟨tags', span', he⟩
    exact ⟨tags', span', d, he⟩
  · rintro ⟨a, d', he, hlt⟩
    obtain ⟨rfl, hgap⟩ := gap_of_settler hevents he
    exact ⟨a, he, (hgap (s.options.maxBlankLines < ·)).mp hlt⟩
  · rintro ⟨a, he, hgap⟩
    exact ⟨a, d, he, ((gap_of_settler hevents he).2 (s.options.maxBlankLines < ·)).mpr hgap⟩

/-- Tags are unresolved exactly when a block around them closes first, or the text ends. -/
theorem given_up_iff_settled (hevents : s.events source = pre ++ .comment tags span d :: later)
    (ht : t ∈ tags) (hnext : t.placement = .nextAnchor) :
    t ∈ (s.scan source).outline.unresolved ↔
      (∃ d', later.find? (·.settles d) = some (.blockClosed d')) ∨
        later.find? (·.settles d) = none := by
  obtain ⟨-, -, -, -, hroot⟩ := scan_record s source
  have hfresh := resolved_of_mem_comment hevents
  rw [← (Outline.mem_seated_iff hroot).2.2, mem_seated_scan_iff hevents ht hnext (.inl rfl),
    Waiting.mem_seats_unresolved_iff (List.mem_filter.mpr ⟨ht, decide_eq_true hnext⟩)
      fun u hu ↦ hfresh u (List.mem_filter.mp hu).1]
  constructor
  · rintro ⟨hanchors, hcomments⟩
    cases hsettler : later.find? (·.settles d) with
    | none => exact .inr rfl
    | some e =>
      have hd := List.find?_some hsettler
      cases e with
      | comment tags' span' d' => exact absurd hsettler (hcomments _ _ _)
      | anchor a d' => exact absurd hsettler (hanchors _ _)
      | blockClosed d' => exact .inl ⟨d', rfl⟩
      | bracketOpened | bracketClosed | bodyEntered | bodyLeft => cases hd
  · rintro (⟨d', he⟩ | he) <;> rw [he] <;> simp

end Rule

/-- The tags of a comment for the next anchor are attached to an anchor exactly when it is the first
later event that settles them and no more blank lines lie in between than may. They stay in place on
no anchor exactly when a later comment supersedes them or too many blank lines lie in between, and
are unresolved exactly when a block around them closes or the text ends first. -/
theorem scan_attaches_by_rule (s : Setup) (source : List Char) (pre later : List Event)
    (tags : List Tag) (span : Span) (d : Nat) (t : Tag)
    (hevents : s.events source = pre ++ .comment tags span d :: later) (ht : t ∈ tags)
    (hnext : t.placement = .nextAnchor) :
    let o := (s.scan source).outline
    let settler := later.find? (·.settles d)
    t.resolved = false ∧
    (∀ a, (∃ n ∈ o.root.nodes, n.anchor = some a ∧ t.resolve ∈ n.tags) ↔
      settler = some (.anchor a d) ∧
        ∃ gap, Text.slice? source span.stop.offset a.span.start.offset = some gap ∧
          blankLines gap ≤ s.options.maxBlankLines) ∧
    ((∃ n ∈ o.root.children.flatMap Node.nodes, n.anchor = none ∧ t ∈ n.tags) ↔
      (∃ tags' span', settler = some (.comment tags' span' d)) ∨
      ∃ a, settler = some (.anchor a d) ∧
        ∃ gap, Text.slice? source span.stop.offset a.span.start.offset = some gap ∧
          s.options.maxBlankLines < blankLines gap) ∧
    (t ∈ o.unresolved ↔ (∃ d', settler = some (.blockClosed d')) ∨ settler = none) := by
  intro o settler
  exact ⟨resolved_of_mem_comment hevents t ht, attached_iff_settled hevents ht hnext,
    left_in_place_iff_settled hevents ht hnext, given_up_iff_settled hevents ht hnext⟩

/-- One blank line does not keep an anchor from the tags in front of it. -/
theorem scan_attaches_over_blank_line :
    let s : Setup := { grammar := .go, registry := .empty }
    let source := "//@a\n\nfunc f".toList
    let span : Span := ⟨⟨0, 1, 1⟩, ⟨4, 1, 5⟩⟩
    let t : Tag :=
      { name := "a", arguments := [], body := "", span := ⟨⟨2, 1, 3⟩, ⟨4, 1, 5⟩⟩,
        placement := .nextAnchor }
    let a : Anchor := ⟨.functionDecl, "f", ⟨⟨6, 3, 1⟩, ⟨12, 3, 7⟩⟩⟩
    s.events source = [.comment [t] span 0, .anchor a 0] ∧
      ∃ n ∈ (s.scan source).outline.root.nodes, n.anchor = some a ∧ t.resolve ∈ n.tags := by
  intro s source span t a
  have hevents : s.events source = [.comment [t] span 0, .anchor a 0] := by decide +kernel
  obtain ⟨-, hattached, -, -⟩ := scan_attaches_by_rule s source [] [.anchor a 0] [t] span 0 t hevents
    (by simp) rfl
  exact ⟨hevents, (hattached a).mpr ⟨rfl, "\n\n".toList, by decide +kernel, by decide +kernel⟩⟩

end Marginalia
