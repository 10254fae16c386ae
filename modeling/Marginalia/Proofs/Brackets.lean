import Marginalia.Proofs.Bearings
import Marginalia.Proofs.StableSort
import Marginalia.Proofs.Turns

/-!
# Brackets

What a scan reports of the nesting of brackets depends on the brackets alone: it is what a plain
machine over pairs and positions reports, which knows neither anchors nor bodies. The machine has
nothing to report exactly when the brackets are balanced and not nested too deep.
-/

namespace Marginalia

/-- A bracket, by its pair and its position. -/
inductive Bracket where
  | opened (pair : Nat) (position : Position)
  | closed (pair : Nat) (position : Position)
deriving DecidableEq, Repr

/-- The bracket of an event. -/
def Event.bracket? : Event → Option Bracket
  | .bracketOpened i p => some (.opened i p)
  | .bracketClosed i p => some (.closed i p)
  | .comment _ _ _ | .anchor _ _ | .bodyEntered _ | .bodyLeft _ | .blockClosed _ => none

theorem Event.bracket?_eq_none {e : Event} (h : e.isBracket = false) : e.bracket? = none := by
  cases e <;> first | rfl | cases h

namespace Diagnostic

/-- A bracket is closed by a bracket further out. -/
def implicit (opened stop : Position) (opener closer : List Char) : Diagnostic where
  kind := .unbalancedBlock
  span := ⟨opened, stop⟩
  message := s!"`{String.ofList opener}` implicitly closed by `{String.ofList closer}`"

/-- A bracket is closed by the end of the text. -/
def unterminated (opened stop : Position) (opener : List Char) : Diagnostic where
  kind := .unterminatedBlock
  span := ⟨opened, stop⟩
  message := s!"`{String.ofList opener}` never closed; closed at end of input"

end Diagnostic

/-! ## The machine -/

/-- A machine that matches brackets. -/
structure BracketMachine where
  /-- The pairs and positions of the open brackets, innermost first. -/
  entries : List (Nat × Position) := []
  /-- The number of brackets that opened past the limit. -/
  overflow : Nat := 0
  reports : List Diagnostic := []

namespace BracketMachine

variable (g : Grammar) (limit : Nat)

/-- One bracket. Past the limit brackets are counted, and the first of them is reported. A closer
closes the innermost bracket of its pair and reports those inside it; without one, it is stray. -/
def step (m : BracketMachine) : Bracket → BracketMachine
  | .opened i p =>
    if 0 < m.overflow ∨ limit ≤ m.entries.length then
      { m with
        overflow := m.overflow + 1
        reports := m.reports ++ if m.overflow + 1 = 1 then [.tooDeep limit p] else [] }
    else { m with entries := (i, p) :: m.entries }
  | .closed i p =>
    if 0 < m.overflow then { m with overflow := m.overflow - 1 }
    else
      match m.entries.dropWhile (·.1 ≠ i) with
      | [] => { m with reports := m.reports ++ [.stray p (g.pair i).closer] }
      | _ :: outer =>
        { m with
          entries := outer
          reports := m.reports ++ (m.entries.takeWhile (·.1 ≠ i)).map fun e ↦
            .implicit e.2 p (g.pair e.1).opener (g.pair i).closer }

/-- Brackets one after the other. -/
def run (w : List Bracket) (m : BracketMachine) : BracketMachine := w.foldl (step g limit) m

/-- What is reported when the text ends. -/
def finish (stop : Position) (m : BracketMachine) : List Diagnostic :=
  m.reports ++ m.entries.map fun e ↦ .unterminated e.2 stop (g.pair e.1).opener

end BracketMachine

/-! ## Balanced brackets -/

/-- Brackets that match in pairs and are nested at most `depth` levels deep. -/
inductive Balanced : (depth : Nat) → List Bracket → Prop
  | nil (depth : Nat) : Balanced depth []
  | pair {depth i : Nat} {p q : Position} {inner after : List Bracket}
      (inside : Balanced depth inner) (behind : Balanced (depth + 1) after) :
      Balanced (depth + 1) (.opened i p :: (inner ++ .closed i q :: after))

/-- Brackets that close the given open ones, from the innermost outwards, and otherwise match. -/
inductive Closes (limit : Nat) : List (Nat × Position) → List Bracket → Prop
  | none {w : List Bracket} (rest : Balanced limit w) : Closes limit [] w
  | one {i : Nat} {p q : Position} {outer : List (Nat × Position)} {inner after : List Bracket}
      (inside : Balanced (limit - (outer.length + 1)) inner) (behind : Closes limit outer after) :
      Closes limit ((i, p) :: outer) (inner ++ .closed i q :: after)

namespace BracketMachine

variable {g : Grammar} {limit : Nat} {m : BracketMachine} {w : List Bracket}

@[simp] theorem run_nil (m : BracketMachine) : m.run g limit [] = m := rfl

@[simp] theorem run_cons (m : BracketMachine) (b : Bracket) (w : List Bracket) :
    m.run g limit (b :: w) = (m.step g limit b).run g limit w := rfl

theorem run_append (m : BracketMachine) (w v : List Bracket) :
    m.run g limit (w ++ v) = (m.run g limit w).run g limit v := List.foldl_append

theorem step_opened {i : Nat} {p : Position} (hover : m.overflow = 0)
    (hroom : m.entries.length < limit) :
    m.step g limit (.opened i p) = { m with entries := (i, p) :: m.entries } :=
  if_neg (by omega)

theorem step_stray {i : Nat} {p : Position} (hover : m.overflow = 0)
    (hnone : ∀ e ∈ m.entries, e.1 ≠ i) :
    m.step g limit (.closed i p) =
      { m with reports := m.reports ++ [.stray p (g.pair i).closer] } := by
  have hdrop : m.entries.dropWhile (·.1 ≠ i) = [] :=
    List.dropWhile_eq_nil_iff.mpr fun e he ↦ decide_eq_true (hnone e he)
  rw [step, if_neg (by omega), hdrop]

/-- A closer finds its bracket behind those of other pairs. -/
theorem step_through {i : Nat} {p q : Position} {inner outer : List (Nat × Position)}
    (hover : m.overflow = 0) (hentries : m.entries = inner ++ (i, p) :: outer)
    (hinner : ∀ e ∈ inner, e.1 ≠ i) :
    m.step g limit (.closed i q) =
      { m with
        entries := outer
        reports := m.reports ++ inner.map fun e ↦
          .implicit e.2 q (g.pair e.1).opener (g.pair i).closer } := by
  have hpass : ∀ e ∈ inner, decide (e.1 ≠ i) = true := fun e he ↦ decide_eq_true (hinner e he)
  have hdrop : m.entries.dropWhile (·.1 ≠ i) = (i, p) :: outer := by
    rw [hentries, List.dropWhile_append_of_pos hpass, List.dropWhile_cons_of_neg (by simp)]
  have htake : m.entries.takeWhile (·.1 ≠ i) = inner := by
    rw [hentries, List.takeWhile_append_of_pos hpass, List.takeWhile_cons_of_neg (by simp),
      List.append_nil]
  rw [step, if_neg (by omega), hdrop, htake]

theorem step_closed {i : Nat} {p q : Position} {outer : List (Nat × Position)}
    (hover : m.overflow = 0) (hentries : m.entries = (i, p) :: outer) :
    m.step g limit (.closed i q) = { m with entries := outer } := by
  rw [step_through hover (show m.entries = [] ++ (i, p) :: outer from hentries) (by simp)]
  simp

/-- Balanced brackets for which there is room leave the machine as it was. -/
theorem run_of_balanced {depth : Nat} (h : Balanced depth w) (m : BracketMachine)
    (hover : m.overflow = 0) (hroom : m.entries.length + depth ≤ limit) :
    m.run g limit w = m := by
  induction h generalizing m with
  | nil => rfl
  | @pair depth i p q inner after inside behind ihinside ihbehind =>
    have hinside := ihinside { m with entries := (i, p) :: m.entries } hover
      (by simp only [List.length_cons]; omega)
    have hclosed : step g limit { m with entries := (i, p) :: m.entries } (.closed i q) = m :=
      step_closed hover rfl
    rw [run_cons, step_opened hover (by omega), run_append, hinside, run_cons, hclosed]
    exact ihbehind m hover hroom

/-- The machine never takes back what it has reported. -/
theorem reports_prefix_step (m : BracketMachine) (b : Bracket) :
    m.reports <+: (m.step g limit b).reports := by
  cases b with
  | opened i p =>
    simp only [step]
    split
    · exact List.prefix_append _ _
    · exact List.prefix_refl _
  | closed i p =>
    simp only [step]
    split
    · exact List.prefix_refl _
    split
    · exact List.prefix_append _ _
    · exact List.prefix_append _ _

theorem reports_prefix_run (m : BracketMachine) (w : List Bracket) :
    m.reports <+: (m.run g limit w).reports := by
  induction w generalizing m with
  | nil => exact List.prefix_refl _
  | cons b w ih => exact (m.reports_prefix_step b).trans (ih _)

/-- A bracket that is not reported is in its place: it opens where there is room, or closes the
innermost open one. -/
theorem step_of_silent {b : Bracket} (hover : m.overflow = 0)
    (hsilent : (m.step g limit b).reports = m.reports) :
    (∃ i p, b = .opened i p ∧ m.entries.length < limit) ∨
      ∃ i p q outer, b = .closed i q ∧ m.entries = (i, p) :: outer := by
  cases b with
  | opened i p =>
    refine .inl ⟨i, p, rfl, ?_⟩
    by_contra hfull
    simp [step, hover, Nat.le_of_not_lt hfull] at hsilent
  | closed i q =>
    right
    simp only [step, hover, Nat.lt_irrefl, if_false] at hsilent
    cases hentries : m.entries with
    | nil => simp [hentries] at hsilent
    | cons e outer =>
      have he : e.1 = i := by
        by_contra he
        split at hsilent <;> simp [hentries, he] at hsilent
      exact ⟨i, e.2, q, outer, rfl, by rw [← he]⟩

end BracketMachine

/-- A matched pair in front of brackets that close what is open changes nothing about that. -/
theorem Closes.wrap {limit i : Nat} {p q : Position} {outer : List (Nat × Position)}
    {inner after : List Bracket} (hroom : outer.length < limit)
    (inside : Balanced (limit - (outer.length + 1)) inner) (behind : Closes limit outer after) :
    Closes limit outer (.opened i p :: (inner ++ .closed i q :: after)) := by
  have hdepth : limit - outer.length = limit - (outer.length + 1) + 1 := by omega
  cases behind with
  | none rest =>
    refine .none ?_
    rw [List.length_nil, Nat.sub_zero] at hdepth
    rw [hdepth] at rest ⊢
    exact .pair inside rest
  | @one j p' q' outer' inner' after' inside' behind' =>
    rw [List.length_cons] at hdepth inside
    have hpair : Balanced (limit - (outer'.length + 1))
        (.opened i p :: (inner ++ .closed i q :: inner')) := by
      rw [hdepth] at inside' ⊢
      exact .pair inside inside'
    have hclose := Closes.one (i := j) (p := p') (q := q') hpair behind'
    simpa using hclose

namespace BracketMachine

variable {g : Grammar} {limit : Nat} {m : BracketMachine} {w : List Bracket}

/-- Brackets of which nothing is reported, and that leave nothing open, close what is open. -/
theorem closes_of_silent (m : BracketMachine) (hover : m.overflow = 0)
    (hroom : m.entries.length ≤ limit) (hsilent : (m.run g limit w).reports = m.reports)
    (hempty : (m.run g limit w).entries = []) : Closes limit m.entries w := by
  induction w generalizing m with
  | nil =>
    rw [show m.entries = [] from hempty]
    exact .none (.nil limit)
  | cons b w ih =>
    rw [run_cons] at hsilent hempty
    have hstep : (m.step g limit b).reports = m.reports := by
      refine List.IsPrefix.eq_of_length_le (m.reports_prefix_step b) ?_ |>.symm
      rw [← hsilent]
      exact (reports_prefix_run _ w).length_le
    have hrest : ((m.step g limit b).run g limit w).reports = (m.step g limit b).reports :=
      hsilent.trans hstep.symm
    rcases step_of_silent hover hstep with
      ⟨i, p, rfl, hless⟩ | ⟨i, p, q, outer, rfl, hentries⟩
    · rw [step_opened hover hless] at hrest hempty
      have hclose := ih { m with entries := (i, p) :: m.entries } hover hless hrest hempty
      cases hclose with
      | one inside behind => exact .wrap hless inside behind
    · rw [step_closed hover hentries] at hrest hempty
      rw [hentries, List.length_cons] at hroom
      rw [hentries]
      change Closes limit ((i, p) :: outer) ([] ++ .closed i q :: w)
      exact .one (.nil _)
        (ih { m with entries := outer } hover (Nat.le_of_succ_le hroom) hrest hempty)

/-- The machine has nothing to report exactly when the brackets are balanced and not nested too
deep. -/
theorem finish_eq_nil_iff (g : Grammar) (limit : Nat) (stop : Position) (w : List Bracket) :
    (run g limit w {}).finish g stop = [] ↔ Balanced limit w := by
  constructor
  · intro h
    obtain ⟨hreports, hentries⟩ := List.append_eq_nil_iff.mp h
    have hclose := closes_of_silent {} rfl (Nat.zero_le _) hreports (List.map_eq_nil_iff.mp hentries)
    cases hclose with
    | none rest => exact rest
  · intro h
    rw [run_of_balanced h {} rfl (Nat.le_of_eq (Nat.zero_add _))]
    rfl

end BracketMachine

/-! ## Contexts as entries -/

theorem Grammar.isBodyPair_iff {g : Grammar} {i : Nat} :
    g.isBodyPair i = true ↔ g.body = .braces (g.pair i).opener := by
  unfold isBodyPair
  split <;> simp_all [eq_comm]

/-- Pairs with different openers are told apart by them. -/
theorem Grammar.eq_of_opener_eq {g : Grammar} (h : (g.blocks.map (·.opener)).Nodup) {i j : Nat}
    (hi : i < g.blocks.length) (hj : j < g.blocks.length)
    (heq : (g.pair i).opener = (g.pair j).opener) : i = j := by
  refine (List.getElem?_inj (by simpa using hi) h).mp ?_
  simpa [pair, List.getD_eq_getElem?_getD, hi, hj] using heq

namespace Context

variable {g : Grammar} {i : Nat} {c : Context} {e : Nat × Position}

/-- An open context is an entry of the machine, whether it is a body or not. -/
def IsEntry (g : Grammar) (c : Context) (e : Nat × Position) : Prop :=
  e.1 < g.blocks.length ∧ (c = .block e.1 e.2 ∨ c = .body e.2 none ∧ g.isBodyPair e.1 = true)

/-- Where openers differ, the pair of a body is the only one that closes it. -/
theorem IsEntry.closes_iff (h : c.IsEntry g e) (hopeners : (g.blocks.map (·.opener)).Nodup)
    (hi : i < g.blocks.length) : Pass.closes g i c = true ↔ e.1 = i := by
  obtain ⟨he, rfl | ⟨rfl, hbody⟩⟩ := h
  · exact decide_eq_true_iff
  · refine ⟨fun hclose ↦ ?_, fun heq ↦ heq ▸ hbody⟩
    have hclose : g.isBodyPair i = true := hclose
    rw [Grammar.isBodyPair_iff] at hbody hclose
    rw [hbody, BodyStyle.braces.injEq] at hclose
    exact Grammar.eq_of_opener_eq hopeners he hi hclose

theorem IsEntry.opener?_eq (h : c.IsEntry g e) :
    c.opener? g = some (g.pair e.1).opener ∧ c.opened = e.2 := by
  obtain ⟨-, rfl | ⟨rfl, hbody⟩⟩ := h
  · exact ⟨rfl, rfl⟩
  · exact ⟨by simp only [opener?, Grammar.isBodyPair_iff.mp hbody], rfl⟩

theorem IsEntry.unwindNotes_some (h : c.IsEntry g e) (stop : Position) (closer : List Char) :
    c.unwindNotes g stop (some closer) = [.implicit e.2 stop (g.pair e.1).opener closer] := by
  obtain ⟨hopener, hopened⟩ := h.opener?_eq
  unfold unwindNotes
  rw [hopener, hopened]
  rfl

theorem IsEntry.unwindNotes_none (h : c.IsEntry g e) (stop : Position) :
    c.unwindNotes g stop none = [.unterminated e.2 stop (g.pair e.1).opener] := by
  obtain ⟨hopener, hopened⟩ := h.opener?_eq
  unfold unwindNotes
  rw [hopener, hopened]
  rfl

/-- Where no context is closed by a bracket, no entry is of its pair. -/
theorem forall_ne_of_closes (hopeners : (g.blocks.map (·.opener)).Nodup)
    (hi : i < g.blocks.length) {cs : List Context} {es : List (Nat × Position)}
    (h : List.Forall₂ (IsEntry g) cs es) (hcs : ∀ c ∈ cs, Pass.closes g i c = false) :
    ∀ e ∈ es, e.1 ≠ i := by
  induction h with
  | nil => simp
  | cons hce _ ih =>
    rw [List.forall_mem_cons] at hcs ⊢
    refine ⟨fun heq ↦ ?_, ih hcs.2⟩
    have hclose := (hce.closes_iff hopeners hi).mpr heq
    rw [hcs.1] at hclose
    cases hclose

/-- The entries of contexts that are split are split. -/
theorem exists_entries_append {inner outer : List Context} {es : List (Nat × Position)}
    (h : List.Forall₂ (IsEntry g) (inner ++ c :: outer) es) :
    ∃ inner' e outer', es = inner' ++ e :: outer' ∧ List.Forall₂ (IsEntry g) inner inner' ∧
      c.IsEntry g e ∧ List.Forall₂ (IsEntry g) outer outer' := by
  induction inner generalizing es with
  | nil =>
    cases h with
    | cons hce hrest => exact ⟨[], _, _, rfl, .nil, hce, hrest⟩
  | cons d inner ih =>
    cases h with
    | cons hd hrest =>
      obtain ⟨inner', e, outer', rfl, hinner, hce, houter⟩ := ih hrest
      exact ⟨_ :: inner', e, outer', rfl, .cons hd hinner, hce, houter⟩

/-- Contexts that are entries report one thing each. -/
theorem flatMap_eq_map {f : Context → List Diagnostic} {n : Nat × Position → Diagnostic}
    (hf : ∀ c e, c.IsEntry g e → f c = [n e]) {cs : List Context} {es : List (Nat × Position)}
    (h : List.Forall₂ (IsEntry g) cs es) : cs.flatMap f = es.map n := by
  induction h with
  | nil => rfl
  | cons hce _ ih =>
    rw [List.flatMap_cons, List.map_cons, hf _ _ hce, ih]
    rfl

end Context

/-! ## The machine follows the scan -/

namespace Track

open BracketMachine

variable {g : Grammar} {source : List Char} {limit : Nat} {t u : Track} {m : BracketMachine}

/-- The brackets of a track. -/
def brackets (t : Track) : List Bracket := t.journal.reverse.filterMap Event.bracket?

/-- The machine is where the track is: its entries are the open contexts, it has counted the same
overflow, and it has reported the same. -/
structure Mirrors (g : Grammar) (limit : Nat) (t : Track) (m : BracketMachine) : Prop where
  limit : t.nesting.limit = limit
  overflow : m.overflow = t.nesting.overflow
  entries : List.Forall₂ (Context.IsEntry g) t.nesting.contexts m.entries
  reports : t.diagnostics.filter (·.kind.isStructural) = m.reports

theorem Mirrors.length_eq (h : t.Mirrors g limit m) :
    t.nesting.contexts.length = m.entries.length := h.entries.length_eq

/-- What is reported of brackets is added to what the machine has reported. -/
theorem Mirrors.reports_append (h : t.Mirrors g limit m) {ds : List Diagnostic}
    (hds : ∀ d ∈ ds, d.kind.isStructural = true) :
    (t.diagnostics ++ ds).filter (·.kind.isStructural) = m.reports ++ ds := by
  rw [List.filter_append, h.reports, List.filter_eq_self.mpr hds]

theorem Mirrors.opened (h : t.Mirrors g limit m) {i : Nat} {position : Position} {c : Context}
    (hpair : i < g.blocks.length) (hentered : t.nesting.opening = .entered)
    (hcontext : c = .block i position ∨ c = .body position none ∧ g.isBodyPair i = true) :
    ((t.within (c :: t.nesting.contexts)).send (.bracketOpened i position)).Mirrors g limit
      (m.step g limit (.opened i position)) := by
  obtain ⟨hover, hroom⟩ := Nesting.opening_eq_entered_iff.mp hentered
  rw [h.limit, h.length_eq] at hroom
  rw [step_opened (h.overflow.trans hover) hroom]
  exact ⟨h.limit, h.overflow, .cons ⟨hpair, hcontext⟩ h.entries, h.reports⟩

theorem Mirrors.openedDeep (h : t.Mirrors g limit m) {i : Nat} {position : Position} {first : Bool}
    (hover : t.nesting.opening = .overflowed first) :
    Mirrors g limit
      { (t.send (.bracketOpened i position)).note
          (if first then [.tooDeep t.nesting.limit position] else []) with
        nesting := { t.nesting with overflow := t.nesting.overflow + 1 } }
      (m.step g limit (.opened i position)) := by
  unfold Nesting.opening Nesting.depth at hover
  split at hover
  · rename_i hfull
    cases hover
    rw [h.limit, ← h.overflow, h.length_eq] at hfull
    simp only [step, if_pos hfull]
    refine ⟨h.limit, congrArg (· + 1) h.overflow, h.entries, ?_⟩
    simp only [note, send, h.limit, decide_eq_true_eq, h.overflow, Nat.add_eq_right]
    refine h.reports_append ?_
    intro d hd
    split at hd
    · rw [List.mem_singleton.mp hd]
      rfl
    · cases hd
  · cases hover

theorem Mirrors.closedDeep (h : t.Mirrors g limit m) {i : Nat} {position : Position}
    (hover : 0 < t.nesting.overflow) :
    Mirrors g limit { t.send (.bracketClosed i position) with nesting := t.nesting.absorb }
      (m.step g limit (.closed i position)) := by
  simp only [step, h.overflow, if_pos hover]
  exact ⟨h.limit, rfl, h.entries, h.reports⟩

theorem Mirrors.closedStray (h : t.Mirrors g limit m) {i : Nat} {position : Position}
    (hopeners : (g.blocks.map (·.opener)).Nodup) (hpair : i < g.blocks.length)
    (hover : t.nesting.overflow = 0)
    (hnone : ∀ c ∈ t.nesting.contexts, Pass.closes g i c = false) :
    ((t.send (.bracketClosed i position)).note [.stray position (g.pair i).closer]).Mirrors g limit
      (m.step g limit (.closed i position)) := by
  rw [step_stray (h.overflow.trans hover)
    (Context.forall_ne_of_closes hopeners hpair h.entries hnone)]
  refine ⟨h.limit, h.overflow, h.entries, ?_⟩
  exact h.reports_append fun d hd ↦ by rw [List.mem_singleton.mp hd]; rfl

theorem Mirrors.closed (h : t.Mirrors g limit m) {i : Nat} {position : Position}
    {inner outer : List Context} {c : Context}
    (hopeners : (g.blocks.map (·.opener)).Nodup) (hpair : i < g.blocks.length)
    (hover : t.nesting.overflow = 0) (hsplit : t.nesting.contexts = inner ++ c :: outer)
    (hcloses : Pass.closes g i c = true) (hinner : ∀ d ∈ inner, Pass.closes g i d = false) :
    (((t.within outer).send (.bracketClosed i position)).note
      (inner.flatMap (Context.unwindNotes g position (some (g.pair i).closer)))).Mirrors g limit
      (m.step g limit (.closed i position)) := by
  have hentries := h.entries
  rw [hsplit] at hentries
  obtain ⟨inner', ⟨j, p⟩, outer', heq, hinner', hc, houter⟩ :=
    Context.exists_entries_append hentries
  obtain rfl : j = i := (hc.closes_iff hopeners hpair).mp hcloses
  rw [step_through (h.overflow.trans hover) heq
      (Context.forall_ne_of_closes hopeners hpair hinner' hinner),
    Context.flatMap_eq_map (fun c e hce ↦ hce.unwindNotes_some position (g.pair j).closer) hinner']
  refine ⟨h.limit, h.overflow, houter, h.reports_append ?_⟩
  intro d hd
  obtain ⟨e, -, rfl⟩ := List.mem_map.mp hd
  rfl

theorem brackets_send (t : Track) {e : Event} {b : Bracket} (h : e.bracket? = some b) :
    (t.send e).brackets = t.brackets ++ [b] := by
  simp [brackets, send, h]

/-- Each turn is a step of the machine, or none. -/
theorem Turn.mirrors (hg : g.indents = false) (hopeners : (g.blocks.map (·.opener)).Nodup)
    (h : t.Mirrors g limit m) (hturn : Turn g source t u) :
    ∃ w, u.brackets = t.brackets ++ w ∧ u.Mirrors g limit (m.run g limit w) := by
  have hbraces : g.indents = true → False := by simp [hg]
  cases hturn with
  | @quiet es ds events reports =>
    refine ⟨[], ?_, h.limit, h.overflow, h.entries, ?_⟩
    · have hnone : es.filterMap Event.bracket? = [] :=
        List.filterMap_eq_nil_iff.mpr fun e he ↦ Event.bracket?_eq_none (events e he).2
      simp [brackets, hnone]
    · have hnone : ds.filter (·.kind.isStructural) = [] :=
        List.filter_eq_nil_iff.mpr fun d hd ↦ by simp [(reports d hd).2]
      simp only [note, List.filter_append, hnone, List.append_nil]
      exact h.reports
  | opened pair place entered context =>
    exact ⟨[_], brackets_send _ rfl, h.opened pair entered context⟩
  | openedDeep pair place overflowed =>
    exact ⟨[_], brackets_send _ rfl, h.openedDeep overflowed⟩
  | closedDeep pair place overflows => exact ⟨[_], brackets_send _ rfl, h.closedDeep overflows⟩
  | closedStray pair place after overflow none =>
    exact ⟨[_], brackets_send _ rfl, h.closedStray hopeners pair overflow none⟩
  | closed pair place overflow split closes innermost =>
    exact ⟨[_], brackets_send _ rfl, h.closed hopeners pair overflow split closes innermost⟩
  | indented indents => exact (hbraces indents).elim
  | indentedDeep indents => exact (hbraces indents).elim
  | left indents => exact (hbraces indents).elim

/-- A sequence of turns is a run of the machine. -/
theorem Turns.mirrors (hg : g.indents = false) (hopeners : (g.blocks.map (·.opener)).Nodup)
    (h : t.Mirrors g limit m) (hturns : Turns g source t u) :
    ∃ w, u.brackets = t.brackets ++ w ∧ u.Mirrors g limit (m.run g limit w) := by
  induction hturns with
  | refl => exact ⟨[], (List.append_nil _).symm, h⟩
  | tail _ hturn ih =>
    obtain ⟨w, hw, hmirrors⟩ := ih
    obtain ⟨v, hv, hmirrors'⟩ := hturn.mirrors hg hopeners hmirrors
    refine ⟨w ++ v, by rw [hv, hw, List.append_assoc], ?_⟩
    rwa [run_append]

end Track

/-- The brackets of a text, in the order in which a scan opens and closes them. -/
def Setup.brackets (s : Setup) (source : List Char) : List Bracket :=
  (s.events source).filterMap Event.bracket?

/-- The machine is where the scan is when the text is used up. -/
theorem Pass.mirrors_run (s : Setup) (source : List Char) (hg : s.grammar.indents = false)
    (hopeners : (s.grammar.blocks.map (·.opener)).Nodup) :
    (run s (start s source)).track.Mirrors s.grammar s.options.maxDepth
      (BracketMachine.run s.grammar s.options.maxDepth (s.brackets source) {}) := by
  generalize hp : run s (start s source) = p
  have hreach : Reaches (step s) (start s source) p := hp ▸ reaches_run s _
  have hstart : (start s source).track.Mirrors s.grammar s.options.maxDepth {} :=
    ⟨rfl, rfl, .nil, rfl⟩
  obtain ⟨w, hw, hmirrors⟩ := (reaches_turns hreach).1.mirrors hg hopeners hstart
  have hnone : (p.nesting.contexts.flatMap (Context.leaving p.cursor.position
      p.lastEnd)).filterMap Event.bracket? = [] := by
    refine List.filterMap_eq_nil_iff.mpr fun e he ↦ Event.bracket?_eq_none ?_
    exact (leaving_in (reaches_moves hreach).2.cursor.position_in (reaches_turns hreach).2.lastEnd
      _ e he).2
  have hbrackets : s.brackets source = w := by
    rw [Setup.brackets, Setup.events_eq, hp, List.filterMap_append, hnone, List.append_nil]
    exact hw
  rwa [hbrackets]

/-- What a scan reports of the nesting of brackets is what the machine reports, and nothing is
reported exactly when the brackets are balanced and not nested deeper than allowed. -/
theorem scan_reports_brackets (s : Setup) (source : List Char)
    (hbody : ∃ opener, s.grammar.body = .braces opener)
    (hopeners : (s.grammar.blocks.map (·.opener)).Nodup) :
    (s.scan source).diagnostics.filter (·.kind.isStructural) =
        sortDiagnostics
          ((BracketMachine.run s.grammar s.options.maxDepth (s.brackets source) {}).finish s.grammar
            (Position.start.after source)) ∧
      ((∀ d ∈ (s.scan source).diagnostics, d.kind.isStructural = false) ↔
        Balanced s.options.maxDepth (s.brackets source)) := by
  have hg : s.grammar.indents = false := by
    obtain ⟨opener, hbody⟩ := hbody
    rw [Grammar.indents, hbody]
  have hmirrors := Pass.mirrors_run s source hg hopeners
  have hunresolved : ∀ d ∈ (((Assembly.start source s.options.maxBlankLines).replay
      (s.events source)).finish (Position.start.after source)).diagnostics,
      ¬ d.kind.isStructural = true := by
    intro d hd
    rw [(Assembly.about_finish _ _ _ _ d hd).1]
    simp [DiagnosticKind.isStructural]
  have hreports : (s.scan source).diagnostics.filter (·.kind.isStructural) =
      sortDiagnostics
        ((BracketMachine.run s.grammar s.options.maxDepth (s.brackets source) {}).finish s.grammar
          (Position.start.after source)) := by
    have hopen : (Pass.run s (Pass.start s source)).nesting.contexts.flatMap
        (Context.unwindNotes s.grammar (Position.start.after source) none) = _ :=
      Context.flatMap_eq_map (fun c e hce ↦ hce.unwindNotes_none _) hmirrors.entries
    rw [s.scan_eq source]
    refine (filter_sortBy _ _).trans (congrArg sortDiagnostics ?_)
    rw [List.filter_append, List.filter_eq_nil_iff.mpr hunresolved, List.nil_append, hopen]
    refine hmirrors.reports_append ?_
    intro d hd
    obtain ⟨e, -, rfl⟩ := List.mem_map.mp hd
    rfl
  refine ⟨hreports, ?_⟩
  rw [← BracketMachine.finish_eq_nil_iff s.grammar _ (Position.start.after source)]
  have hnil : ∀ ds : List Diagnostic, sortDiagnostics ds = [] ↔ ds = [] := by
    intro ds
    rw [sortDiagnostics, ← List.length_eq_zero_iff, List.length_mergeSort,
      List.length_eq_zero_iff]
  rw [← hnil, ← hreports, List.filter_eq_nil_iff]
  simp

/-- The brace closes itself and the parenthesis left open inside it; the square bracket stays open. -/
theorem scan_reports_brackets_mismatched :
    let s : Setup := { grammar := .javascript, registry := .empty }
    let source := "\x7b(\x7d[".toList
    s.brackets source = [.opened 0 ⟨0, 1, 1⟩, .opened 1 ⟨1, 1, 2⟩, .closed 0 ⟨2, 1, 3⟩,
        .opened 2 ⟨3, 1, 4⟩] ∧
      (s.scan source).diagnostics.filter (·.kind.isStructural) =
        sortDiagnostics
          ((BracketMachine.run s.grammar 256 (s.brackets source) {}).finish s.grammar
            (Position.start.after source)) := by
  intro s source
  exact ⟨by decide +kernel, (scan_reports_brackets s source ⟨_, rfl⟩ (by decide)).1⟩

end Marginalia
