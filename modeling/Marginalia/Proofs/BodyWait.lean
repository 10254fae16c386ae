import Marginalia.Proofs.Enclosure
import Marginalia.Proofs.Stride
import Marginalia.Proofs.Tokens

/-!
# The wait for a body

Where bodies stand in braces, an anchor waits for the brace at its depth. A scan keeps one wait at a
time. It lasts over all that stands deeper, except for another anchor, whose wait takes its place:
so the brace opens the body of the anchor just if no other anchor has been recognised in between.
-/

namespace Marginalia

/-- The pass after some steps of a scan. -/
def Setup.pass (s : Setup) (source : List Char) (k : Nat) : Pass :=
  iterate (Pass.step s) k (Pass.start s source)

namespace Pass

variable {s : Setup} {g : Grammar} {p q : Pass} {t : Token} {b : PendingBody} {depth : Nat}

/-- The anchor whose header is at the cursor. -/
def anchorAhead (p : Pass) (r : Recognition) : Anchor :=
  ⟨r.kind, String.ofList r.name,
    (p.cursor.consume (r.headerLength p.cursor.ahead)).spanFrom p.cursor.position⟩

/-- A pass that is no less deep than a given depth, and at that depth reads no token that settles
what becomes of an anchor there. -/
def Spares (g : Grammar) (depth : Nat) (p : Pass) : Prop :=
  depth ≤ p.nesting.depth ∧ (p.nesting.depth = depth → ∀ t ∈ p.reads g, t.settles g = false)

instance : Decidable (p.Spares g depth) := inferInstanceAs (Decidable (_ ∧ _))

/-- A pass that does not read the header of an anchor. -/
def PassesNoAnchor (g : Grammar) (p : Pass) : Prop := ∀ t ∈ p.reads g, t.isAnchor = false

instance : Decidable (p.PassesNoAnchor g) :=
  inferInstanceAs (Decidable (∀ t ∈ p.reads g, t.isAnchor = false))

/-! ## Steps -/

theorem awaitsBody_of_pending (h : p.pendingBody = some b) :
    p.awaitsBody = decide (b.depth = p.nesting.depth) := by
  simp [awaitsBody, h]

theorem awaitsBody_of_deeper (h : ∀ b, p.pendingBody = some b → p.nesting.depth < b.depth) :
    p.awaitsBody = false := by
  cases hb : p.pendingBody with
  | none => simp [awaitsBody, hb]
  | some b =>
    rw [awaitsBody_of_pending hb, decide_eq_false_iff_not]
    exact Nat.ne_of_gt (h b hb)

/-- An anchor goes on waiting over a token that settles nothing at its depth. -/
theorem pendingAfter_of_spared (hlines : g.newlineTerminates = false) (hb : p.pendingBody = some b)
    (hspared : p.nesting.depth = b.depth → t.settles g = false) (hanchor : t.isAnchor = false)
    (hbraces : ∀ opener, t ≠ .indentation opener) (hdeep : b.depth ≤ depth) :
    p.pendingAfter g depth t = some b := by
  have hawaits := awaitsBody_of_pending hb
  have hkept : t.settles g = true → p.awaitsBody = false := by
    intro ht
    rw [hawaits, decide_eq_false_iff_not]
    intro heq
    rw [hspared heq.symm] at ht
    cases ht
  cases t with
  | newline => simp [pendingAfter, hlines, hb]
  | closer i => simp [pendingAfter, hb, Option.filter, hdeep]
  | opener i =>
    have hopens : p.opensBody g i = false := by
      cases hpair : g.isBodyPair i with
      | false => simp [opensBody, hpair]
      | true => simp [opensBody, hkept hpair]
    simp [pendingAfter, hopens, hb]
  | indentation opener => exact absurd rfl (hbraces opener)
  | separator text => simp [pendingAfter, hkept rfl, hb]
  | plain => simp [pendingAfter, hkept rfl, hb]
  | anchor r => cases hanchor
  | blank => exact hb
  | comment form => exact hb
  | literal i => exact hb
  | regex text => exact hb
  | inner => exact hb

/-- A token leaves the wait for a body as it is, ends it, or is an anchor that waits itself. -/
theorem pendingAfter_cases (p : Pass) (g : Grammar) (depth : Nat) (t : Token) :
    p.pendingAfter g depth t = p.pendingBody ∨ p.pendingAfter g depth t = none ∨
      t.isAnchor = true ∧
        p.pendingAfter g depth t = some ⟨p.nesting.depth, p.cursor.lineIndent⟩ := by
  have hif : ∀ c : Bool, (if c then none else p.pendingBody) = p.pendingBody ∨
      (if c then none else p.pendingBody) = none := by
    intro c
    cases c
    · exact .inl rfl
    · exact .inr rfl
  cases t with
  | newline => exact (hif _).imp_right .inl
  | opener i => exact (hif _).imp_right .inl
  | separator text => exact (hif _).imp_right .inl
  | plain => exact (hif _).imp_right .inl
  | closer i =>
    cases hb : p.pendingBody with
    | none => exact .inl (by rw [pendingAfter, hb]; rfl)
    | some b =>
      by_cases hle : b.depth ≤ depth
      · exact .inl (by simp [pendingAfter, hb, Option.filter, hle])
      · exact .inr (.inl (by simp [pendingAfter, hb, Option.filter, hle]))
  | indentation opener => exact .inr (.inl rfl)
  | anchor r => exact .inr (.inr ⟨rfl, rfl⟩)
  | blank => exact .inl rfl
  | comment form => exact .inl rfl
  | literal i => exact .inl rfl
  | regex text => exact .inl rfl
  | inner => exact .inl rfl

/-- An anchor goes on waiting over a step that spares its depth and reads no other anchor. -/
theorem waits_step (hbraces : s.grammar.indents = false)
    (hlines : s.grammar.newlineTerminates = false)
    (hpending : ∀ b, p.pendingBody = some b → b.depth ≤ p.nesting.depth)
    (hb : p.pendingBody = some b) (hspares : p.Spares s.grammar b.depth)
    (hanchor : p.PassesNoAnchor s.grammar) (h : step s p = some q)
    (hdeep : b.depth ≤ q.nesting.depth) :
    q.pendingBody = some b ∧ q.course.latest? = p.course.latest? := by
  cases hreads : p.reads s.grammar with
  | none =>
    obtain ⟨hwait, hlatest⟩ := step_of_silent hlines hreads h
    exact ⟨hwait.trans hb, hlatest⟩
  | some t =>
    obtain ⟨hwait, hlatest⟩ := step_of_token hbraces hpending hreads h
    have ht := hanchor t hreads
    refine ⟨hwait.trans ?_, hlatest ht⟩
    refine pendingAfter_of_spared hlines hb (fun heq ↦ hspares.2 heq t hreads) ht ?_ hdeep
    rintro opener rfl
    exact reads_ne_indentation hbraces opener hreads

/-- While the depth of an anchor that has lost its wait is spared, all anchors that wait are
deeper. -/
theorem lost_step (hbraces : s.grammar.indents = false)
    (hlines : s.grammar.newlineTerminates = false)
    (hpending : ∀ b, p.pendingBody = some b → b.depth ≤ p.nesting.depth)
    (hlost : ∀ b, p.pendingBody = some b → depth < b.depth) (hspares : p.Spares s.grammar depth)
    (h : step s p = some q) : ∀ b, q.pendingBody = some b → depth < b.depth := by
  cases hreads : p.reads s.grammar with
  | none =>
    rw [(step_of_silent hlines hreads h).1]
    exact hlost
  | some t =>
    intro b hb
    rw [(step_of_token hbraces hpending hreads h).1] at hb
    rcases p.pendingAfter_cases s.grammar q.nesting.depth t with heq | heq | ⟨ht, heq⟩
    · exact hlost b (heq ▸ hb)
    · rw [heq] at hb
      cases hb
    · rw [heq] at hb
      cases hb
      refine Nat.lt_of_le_of_ne hspares.1 fun hdepth ↦ ?_
      have hsettles := hspares.2 hdepth.symm t hreads
      cases t with
      | anchor r => cases hsettles
      | _ => cases ht

/-- An anchor that is read waits for its body, and is the latest one. -/
theorem step_of_anchor {r : Recognition} (hbraces : s.grammar.indents = false)
    (hreads : p.reads s.grammar = some (.anchor r)) (h : step s p = some q) :
    q.pendingBody = some ⟨p.nesting.depth, p.cursor.lineIndent⟩ ∧
      q.course.latest? = some (p.anchorAhead r) := by
  rcases step_of_reads hreads with ⟨ht | ht, -⟩ | hstep
  · cases ht
  · cases ht
  · rw [h, atToken_of_braces hbraces] at hstep
    cases hstep
    exact ⟨rfl, rfl⟩

/-! ## Braces -/

/-- A brace opens a body if an anchor waits for it at this depth, and a block otherwise. -/
theorem step_of_opener {i : Nat} (hbraces : s.grammar.indents = false)
    (hreads : p.reads s.grammar = some (.opener i)) (hroom : p.nesting.opening = .entered) :
    ∃ q, step s p = some q ∧ q.clock = q.cursor.position.offset ∧
      (p.opensBody s.grammar i = true →
        q.nesting.contexts = .body p.cursor.position none :: p.nesting.contexts ∧
          q.assembly = p.assembly.enterBody p.cursor.position) ∧
      (p.opensBody s.grammar i = false →
        q.nesting.contexts = .block i p.cursor.position :: p.nesting.contexts) := by
  have hmode := (reads_eq_some_iff.mp hreads).1
  rcases step_of_reads hreads with ⟨ht | ht, -⟩ | hstep
  · cases ht
  · cases ht
  rw [atToken_of_braces hbraces, take] at hstep
  refine ⟨_, hstep, ?_, ?_, ?_⟩
  · have hopened := openBlock_mode_cursor { p with lineStart := false } s.grammar i
    exact clock_markEnd (settled_of_mode (hopened.1.trans hmode) (by simp))
  · intro hbody
    rw [openBlock_of_body (p := { p with lineStart := false }) hroom i hbody]
    exact ⟨rfl, rfl⟩
  · intro hblock
    rw [openBlock_of_block (p := { p with lineStart := false }) hroom i hblock]
    rfl

/-- The body of the latest anchor opens at a brace at the depth where it waits, and is its own from
then on. -/
theorem opens_body {i : Nat} {source : List Char} {x : Anchor}
    (hreach : Reaches (step s) (start s source) p) (hgrammar : s.grammar.Lined)
    (hbraces : s.grammar.indents = false) (hpair : s.grammar.isBodyPair i = true)
    (hreads : p.reads s.grammar = some (.opener i)) (hroom : p.nesting.opening = .entered)
    (hwait : p.pendingBody = some b) (hdepth : b.depth = p.nesting.depth)
    (hlatest : p.course.latest? = some x) :
    ∃ q, step s p = some q ∧
      q.nesting.contexts = .body p.cursor.position none :: p.nesting.contexts ∧
      q.assembly.top.anchor = some x ∧ p.cursor.position.offset < q.clock ∧
      q.assembly.Owned p.cursor.position x := by
  have hsound := sound_of_reaches hreach
  have hawaits : p.course.awaits = some p.course.contexts.length := by
    rw [course, hwait]
    exact congrArg some hdepth
  obtain ⟨-, slot, n, y, hpoised, hy, -⟩ := hsound.poised _ hawaits (Nat.le_refl _)
  replace hpoised : p.assembly.Poised slot n y := hpoised
  have hxy : y = x := Option.some.inj (hy.symm.trans hlatest)
  subst hxy
  have hopens : p.opensBody s.grammar i = true := by
    have hcan : p.assembly.canEnterBody = true := hsound.canEnterBody hawaits
    simp [opensBody, hpair, awaitsBody_of_pending hwait, hdepth, hcan]
  obtain ⟨q, hstep, hclock, hbody, -⟩ := step_of_opener hbraces hreads hroom
  obtain ⟨hcontexts, hassembly⟩ := hbody hopens
  have hq : Reaches (step s) (start s source) q := hreach.trans (.head hstep (.refl q))
  refine ⟨q, hstep, hcontexts, ?_, ?_, ?_⟩
  · rw [hassembly, hpoised.enterBody_eq]
    exact hpoised.anchored
  · rw [hclock]
    exact (tracked_of_reaches hgrammar hq).opened (.body p.cursor.position none)
      (by rw [hcontexts]; exact List.mem_cons_self)
  · rw [hassembly, hpoised.enterBody_eq, Assembly.Owned, List.forall_mem_cons]
    refine ⟨fun _ ↦ hpoised.anchored, fun f hf hstop ↦ ?_⟩
    -- all other bodies have opened before the brace
    have hmem : f.node.span.stop ∈ p.assembly.openings := by
      rw [← Assembly.openings_mapTop (a := p.assembly)
        (f := fun t ↦ { t with children := t.children.eraseIdx slot }) rfl]
      exact List.mem_map_of_mem hf
    rw [show p.assembly.openings = _ from hsound.bodies] at hmem
    obtain ⟨c, hc, hopened⟩ := List.mem_map.mp hmem
    have hlt := (tracked_of_reaches hgrammar hreach).opened c (List.mem_filter.mp hc).1
    rw [hopened, hstop] at hlt
    exact absurd hlt (Nat.lt_irrefl _)

/-- An anchor that is read while a body is open stands below the owner of the body. -/
theorem encloses_scan {source : List Char} {o : Position} {x : Anchor} {r : Recognition}
    (hreach : Reaches (step s) (start s source) p) (hbraces : s.grammar.indents = false)
    (howned : p.assembly.Owned o x) (hopen : .body o none ∈ p.nesting.contexts)
    (hreads : p.reads s.grammar = some (.anchor r)) :
    (s.scan source).outline.root.Encloses x (p.anchorAhead r) := by
  rcases step_of_reads hreads with ⟨ht | ht, -⟩ | hstep
  · cases ht
  · cases ht
  rw [atToken_of_braces hbraces] at hstep
  generalize hq : Pass.markEnd _ = q at hstep
  have hassembly : q.assembly = p.assembly.anchor (p.anchorAhead r) p.nesting.depth := by
    rw [← hq]
    rfl
  have hcontexts : q.nesting.contexts = p.nesting.contexts := by
    rw [← hq]
    rfl
  have hreach' : Reaches (step s) (start s source) q := hreach.trans (.head hstep (.refl q))
  have howned' : q.assembly.Owned o x := by
    rw [hassembly]
    exact howned.anchor _ _
  have hmem : o ∈ q.assembly.openings := by
    rw [show q.assembly.openings = _ from (sound_of_reaches hreach').bodies]
    refine List.mem_map.mpr ⟨.body o none, List.mem_filter.mpr ⟨?_, rfl⟩, rfl⟩
    rw [show q.course.contexts = p.nesting.contexts from hcontexts]
    exact hopen
  obtain ⟨f, hf, hstop⟩ := List.mem_map.mp hmem
  have hbelow : p.anchorAhead r ∈ q.assembly.top.anchorsBelow := by
    rw [hassembly]
    exact p.assembly.mem_anchorsBelow_anchor _ _
  refine (grows_scan hreach').encloses _ _ (Assembly.tree_encloses ?_ (howned' f hf hstop) hbelow)
  exact List.mem_append_left _ (List.mem_map_of_mem hf)

end Pass

namespace Setup

variable {s : Setup} {source : List Char} {q : Pass} {i j k : Nat} {r : Recognition}

/-! ## Runs -/

theorem reaches_pass (s : Setup) (source : List Char) (k : Nat) :
    Reaches (Pass.step s) (Pass.start s source) (s.pass source k) :=
  reaches_iterate k _

theorem pass_succ (h : Pass.step s (s.pass source k) = some q) : s.pass source (k + 1) = q := by
  rw [pass, iterate_succ_eq, ← pass, h]
  rfl

theorem pass_succ_of_none (h : Pass.step s (s.pass source k) = none) :
    s.pass source (k + 1) = s.pass source k := by
  rw [pass, iterate_succ_eq, ← pass, h]
  rfl

theorem reaches_pass_of_le (s : Setup) (source : List Char) (h : j ≤ k) :
    Reaches (Pass.step s) (s.pass source j) (s.pass source k) := by
  induction k, h using Nat.le_induction with
  | base => exact .refl _
  | succ k _ ih =>
    cases hs : Pass.step s (s.pass source k) with
    | none => rwa [pass_succ_of_none hs]
    | some q => rw [pass_succ hs]; exact ih.trans (.head hs (.refl q))

theorem pending_pass (s : Setup) (source : List Char) (k : Nat) :
    ∀ b, (s.pass source k).pendingBody = some b → b.depth ≤ (s.pass source k).nesting.depth :=
  (Pass.reaches_moves (s.reaches_pass source k)).2.pending

/-- An anchor goes on waiting, and stays the latest one, as long as its depth is spared and no other
anchor is read. -/
theorem waits_pass (hbraces : s.grammar.indents = false)
    (hlines : s.grammar.newlineTerminates = false)
    (hanchor : (s.pass source i).reads s.grammar = some (.anchor r)) (hik : i < k)
    (hspares : ∀ m, i < m → m < k →
      (s.pass source m).Spares s.grammar (s.pass source i).nesting.depth)
    (hpasses : ∀ m, i < m → m < k → (s.pass source m).PassesNoAnchor s.grammar)
    (hdeep : (s.pass source i).nesting.depth ≤ (s.pass source k).nesting.depth) :
    (s.pass source k).pendingBody =
        some ⟨(s.pass source i).nesting.depth, (s.pass source i).cursor.lineIndent⟩ ∧
      (s.pass source k).course.latest? = some ((s.pass source i).anchorAhead r) := by
  induction k, hik using Nat.le_induction with
  | base =>
    obtain ⟨q, hq⟩ : ∃ q, Pass.step s (s.pass source i) = some q := by
      rcases Pass.step_of_reads hanchor with ⟨-, hstep⟩ | hstep <;> exact ⟨_, hstep⟩
    rw [pass_succ hq]
    exact Pass.step_of_anchor hbraces hanchor hq
  | succ k hik ih =>
    have hspare := hspares k hik (Nat.lt_succ_self k)
    obtain ⟨hwait, hlatest⟩ := ih (fun m him hmk ↦ hspares m him (hmk.trans (Nat.lt_succ_self k)))
      (fun m him hmk ↦ hpasses m him (hmk.trans (Nat.lt_succ_self k))) hspare.1
    cases hs : Pass.step s (s.pass source k) with
    | none =>
      rw [pass_succ_of_none hs]
      exact ⟨hwait, hlatest⟩
    | some q =>
      rw [pass_succ hs] at hdeep ⊢
      obtain ⟨hwait', hlatest'⟩ := Pass.waits_step hbraces hlines (s.pending_pass source k) hwait
        hspare (hpasses k hik (Nat.lt_succ_self k)) hs hdeep
      exact ⟨hwait', hlatest'.trans hlatest⟩

/-- Once another anchor has been read, the first one no longer waits. -/
theorem lost_pass {depth : Nat} (hbraces : s.grammar.indents = false)
    (hlines : s.grammar.newlineTerminates = false)
    (hanchor : (s.pass source j).reads s.grammar = some (.anchor r)) (hjk : j < k)
    (hspares : ∀ m, j ≤ m → m < k → (s.pass source m).Spares s.grammar depth) :
    ∀ b, (s.pass source k).pendingBody = some b → depth < b.depth := by
  induction k, hjk using Nat.le_induction with
  | base =>
    obtain ⟨q, hq⟩ : ∃ q, Pass.step s (s.pass source j) = some q := by
      rcases Pass.step_of_reads hanchor with ⟨-, hstep⟩ | hstep <;> exact ⟨_, hstep⟩
    have hspare := hspares j (Nat.le_refl j) (Nat.lt_succ_self j)
    intro b hb
    rw [pass_succ hq, (Pass.step_of_anchor hbraces hanchor hq).1] at hb
    cases hb
    refine Nat.lt_of_le_of_ne hspare.1 fun hdepth ↦ ?_
    cases hspare.2 hdepth.symm _ hanchor
  | succ k hjk ih =>
    have hlost := ih fun m hjm hmk ↦ hspares m hjm (hmk.trans (Nat.lt_succ_self k))
    cases hs : Pass.step s (s.pass source k) with
    | none =>
      rw [pass_succ_of_none hs]
      exact hlost
    | some q =>
      rw [pass_succ hs]
      exact Pass.lost_step hbraces hlines (s.pending_pass source k) hlost
        (hspares k (Nat.le_of_lt hjk) (Nat.lt_succ_self k)) hs

end Setup

/-- Take an anchor of a text in JavaScript and the first brace at its depth after it, with no less
depth in between and, at that depth, no separator, no other statement and no other anchor. If no
anchor is read in between at all, the brace opens the body of the anchor: its node is entered, and
all anchors that are read while the body is open stand below it in the outline. If an anchor is read
deeper in between, the brace opens a block. -/
theorem brace_opens_body_of_anchor (s : Setup) (hs : s.grammar = .javascript) (source : List Char)
    {i j : Nat} {r : Recognition} (hij : i < j)
    (hanchor : (s.pass source i).reads s.grammar = some (.anchor r))
    (hbrace : (s.pass source j).reads s.grammar = some (.opener 0))
    (hdepth : (s.pass source j).nesting.depth = (s.pass source i).nesting.depth)
    (hbetween : ∀ k, i < k → k < j →
      (s.pass source k).Spares s.grammar (s.pass source i).nesting.depth)
    (hroom : (s.pass source j).nesting.opening = .entered) :
    let x := (s.pass source i).anchorAhead r
    let o := (s.pass source j).cursor.position
    ((∀ k, i < k → k < j → (s.pass source k).PassesNoAnchor s.grammar) →
      (s.pass source (j + 1)).nesting.contexts =
          .body o none :: (s.pass source j).nesting.contexts ∧
        (s.pass source (j + 1)).assembly.top.anchor = some x ∧
        ∀ k r', j < k → .body o none ∈ (s.pass source k).nesting.contexts →
          (s.pass source k).reads s.grammar = some (.anchor r') →
          (s.scan source).outline.root.Encloses x ((s.pass source k).anchorAhead r')) ∧
    ((∃ k, i < k ∧ k < j ∧ ¬ (s.pass source k).PassesNoAnchor s.grammar) →
      (s.pass source (j + 1)).nesting.contexts =
        .block 0 o :: (s.pass source j).nesting.contexts) := by
  intro x o
  have hbraces : s.grammar.indents = false := by rw [hs]; rfl
  have hlines : s.grammar.newlineTerminates = false := by rw [hs]; rfl
  have hpair : s.grammar.isBodyPair 0 = true := by rw [hs]; rfl
  have hgrammar : s.grammar.Lined := by rw [hs]; exact Grammar.lined_javascript
  have hreach := s.reaches_pass source j
  refine ⟨fun hpasses ↦ ?_, ?_⟩
  · obtain ⟨hwait, hlatest⟩ := Setup.waits_pass hbraces hlines hanchor hij hbetween hpasses
      (Nat.le_of_eq hdepth.symm)
    obtain ⟨q, hstep, hcontexts, htop, hclock, howned⟩ :=
      Pass.opens_body hreach hgrammar hbraces hpair hbrace hroom hwait hdepth.symm hlatest
    rw [Setup.pass_succ hstep]
    refine ⟨hcontexts, htop, fun k r' hjk hopen hreads ↦ ?_⟩
    have hafter : Reaches (Pass.step s) q (s.pass source k) := by
      rw [← Setup.pass_succ hstep]
      exact s.reaches_pass_of_le source hjk
    have hq := (Pass.reaches_moves (hreach.trans (.head hstep (.refl q)))).2
    exact Pass.encloses_scan (s.reaches_pass source k) hbraces
      (Pass.owned_of_reaches hq hafter hclock howned) hopen hreads
  · rintro ⟨k, hik, hkj, hk⟩
    obtain ⟨r', hr'⟩ : ∃ r', (s.pass source k).reads s.grammar = some (.anchor r') := by
      simp only [Pass.PassesNoAnchor, not_forall] at hk
      obtain ⟨t, ht, hanchor'⟩ := hk
      cases t with
      | anchor r' => exact ⟨r', ht⟩
      | _ => exact absurd rfl hanchor'
    have hlost := Setup.lost_pass hbraces hlines hr' hkj
      fun m hkm hmj ↦ hbetween m (hik.trans_le hkm) hmj
    obtain ⟨q, hstep, -, -, hblock⟩ := Pass.step_of_opener hbraces hbrace hroom
    rw [Setup.pass_succ hstep]
    refine hblock ?_
    rw [← hdepth] at hlost
    simp [Pass.opensBody, Pass.awaitsBody_of_deeper hlost]

/-- The body of a function whose parameter is a pattern holds the class in it. -/
theorem brace_opens_body_after_pattern :
    let s : Setup := { grammar := .javascript, registry := .empty }
    let source := "function f(\x7ba, b\x7d) \x7b\n  class C \x7b\x7d\n\x7d\n".toList
    let f : Recognition := ⟨.functionDecl, ['f'], source.drop 10⟩
    let c : Recognition := ⟨.classDecl, ['C'], source.drop 30⟩
    (s.pass source 0).reads s.grammar = some (.anchor f) ∧
      (s.pass source 12).reads s.grammar = some (.opener 0) ∧
      (s.pass source 16).reads s.grammar = some (.anchor c) ∧
      (s.pass source 13).nesting.contexts =
        .body (s.pass source 12).cursor.position none :: (s.pass source 12).nesting.contexts ∧
      (s.pass source 13).assembly.top.anchor = some ((s.pass source 0).anchorAhead f) ∧
      (s.scan source).outline.root.Encloses ((s.pass source 0).anchorAhead f)
        ((s.pass source 16).anchorAhead c) := by
  intro s source f c
  have hjs : s.grammar = .javascript := rfl
  obtain ⟨hanchor, hbrace, hclass, hdepth, hroom, hopen, hspares, hpasses⟩ :
      (s.pass source 0).reads s.grammar = some (.anchor f) ∧
        (s.pass source 12).reads s.grammar = some (.opener 0) ∧
        (s.pass source 16).reads s.grammar = some (.anchor c) ∧
        (s.pass source 12).nesting.depth = (s.pass source 0).nesting.depth ∧
        (s.pass source 12).nesting.opening = .entered ∧
        .body (s.pass source 12).cursor.position none ∈ (s.pass source 16).nesting.contexts ∧
        (∀ k < 12, 0 < k → (s.pass source k).Spares s.grammar (s.pass source 0).nesting.depth) ∧
        ∀ k < 12, 0 < k → (s.pass source k).PassesNoAnchor s.grammar := by
    decide +kernel
  -- from here on nothing is to be computed
  clear_value s source f c
  obtain ⟨hcontexts, htop, hbelow⟩ := (brace_opens_body_of_anchor s hjs source (by decide) hanchor
    hbrace hdepth (fun k hk hlt ↦ hspares k hlt hk) hroom).1
    fun k hk hlt ↦ hpasses k hlt hk
  exact ⟨hanchor, hbrace, hclass, hcontexts, htop, hbelow 16 c (by decide) hopen hclass⟩

/-- A function in a parameter takes the wait of the function around it, whose body is then a block:
what is declared in it stands beside it. -/
theorem brace_opens_block_after_inner_anchor :
    let s : Setup := { grammar := .javascript, registry := .empty }
    let source :=
      ("function f(a = function () \x7b function g() \x7b\x7d \x7d) \x7b\n" ++
        "  function h() \x7b\x7d\n\x7d\n").toList
    let f : Recognition := ⟨.functionDecl, ['f'], source.drop 10⟩
    let h : Recognition := ⟨.functionDecl, ['h'], source.drop 62⟩
    ((s.pass source 0).reads s.grammar = some (.anchor f) ∧
      (s.pass source 19).reads s.grammar = some (.opener 0) ∧
      (s.pass source 19).nesting.depth = (s.pass source 0).nesting.depth ∧
      (∀ k < 19, 0 < k → (s.pass source k).Spares s.grammar (s.pass source 0).nesting.depth) ∧
      (s.pass source 19).nesting.opening = .entered ∧
      (s.pass source 23).reads s.grammar = some (.anchor h)) ∧
    (s.pass source 20).nesting.contexts = [.block 0 (s.pass source 19).cursor.position] ∧
      ¬ (s.scan source).outline.root.Encloses ((s.pass source 0).anchorAhead f)
        ((s.pass source 23).anchorAhead h) := by
  intro s source f h
  decide +kernel

end Marginalia
