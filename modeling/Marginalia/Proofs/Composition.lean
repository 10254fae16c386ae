import Marginalia.Proofs.Bearings
import Marginalia.Proofs.Boundary
import Marginalia.Proofs.Continuation
import Marginalia.Proofs.StableSort
import Marginalia.Proofs.Turns

/-!
# Composition

A scan that comes to rest between two texts, with nothing open and nothing that waits, finds what
the scans of the two texts find: first what is in the first text, then what is in the second one,
further on.
-/

namespace Marginalia

/-- The findings of a text and, after them, the findings of a text that comes after it. -/
def Findings.append (before : List Char) (a b : Findings) : Findings where
  outline :=
    { root :=
        { a.outline.root.graft before b.outline.root with
          span := ⟨a.outline.root.span.start, b.outline.root.span.stop.shift before⟩ }
      unresolved := a.outline.unresolved ++ b.outline.unresolved.map (·.shift before) }
  diagnostics := a.diagnostics ++ b.diagnostics.map (·.shift before)

/-- A pass that looks for code, with nothing open and nothing that waits. -/
structure Pass.Rests (p : Pass) : Prop where
  mode : p.mode = .code
  contexts : p.nesting.contexts = []
  overflow : p.nesting.overflow = 0
  waiting : p.assembly.waiting = []
  pendingBody : p.pendingBody = none

namespace Pass

variable {s : Setup} {g : Grammar} {text more : List Char} {k p q : Pass}

/-! ## Findings at rest -/

theorem findings_of_rests (h : p.Rests) (hframes : p.assembly.frames = []) (g : Grammar) :
    p.findings g =
      { outline :=
          { root := { p.assembly.root with span := ⟨.start, p.cursor.position⟩ }
            unresolved := sortTags p.assembly.unresolved }
        diagnostics :=
          sortDiagnostics (sortDiagnostics p.assembly.diagnostics ++ p.diagnostics) } := by
  have hclose : p.closeAll g =
      { p with nesting := { p.nesting with contexts := [], overflow := 0 } } := by
    rw [closeAll, h.contexts]
    rfl
  unfold findings
  rw [hclose]
  dsimp only
  unfold Assembly.finish Assembly.endWaiting
  rw [h.waiting]
  simp only [List.foldl_nil, Assembly.endBodies, hframes, List.length_nil, Nat.repeat]

/-- Text that comes after a rest only shows in what is reported of literals. -/
theorem findings_extend (h : p.Rests) (hframes : p.assembly.frames = [])
    (hkind : ∀ d ∈ p.assembly.diagnostics, d.kind = .unresolvedTag) (g : Grammar) :
    (p.extend text more).findings g =
      { p.findings g with
        diagnostics := (p.findings g).diagnostics.map (·.followedBy text more) } := by
  have hrests : (p.extend text more).Rests := { h with }
  have hsame : (sortDiagnostics p.assembly.diagnostics).map (·.followedBy text more) =
      sortDiagnostics p.assembly.diagnostics := by
    refine List.map_congr_left (fun d hd ↦ ?_) |>.trans (List.map_id _)
    refine Diagnostic.followedBy_of_kind_ne ?_
    rw [hkind d (List.mem_mergeSort.mp hd)]
    simp
  have hkey : ∀ d : Diagnostic, (d.followedBy text more).span.start.offset =
      id d.span.start.offset := by
    intro d
    rw [Diagnostic.followedBy_span]
    rfl
  rw [findings_of_rests hrests hframes, findings_of_rests h hframes,
    map_sortDiagnostics strictMono_id hkey,
    List.map_append, hsame]
  rfl

/-! ## Findings of scans that go on -/

theorem shift_start (d : Diagnostic) :
    (d.shift text).span.start.offset = d.span.start.offset + Text.byteSize text := rfl

/-- A pass that goes on from a rest finds what it has found so far, and what the other pass finds. -/
theorem Follows.findings (hk : Ground g text k) (hrests : k.Rests)
    (hframes : k.assembly.frames = [])
    (hunresolved : ∀ t ∈ k.assembly.unresolved, t.span.start.offset < Text.byteSize text)
    (hreported : ∀ d ∈ k.assembly.diagnostics, d.span.start.offset < Text.byteSize text)
    (hnotes : ∀ d ∈ k.diagnostics, d.span.start.offset < Text.byteSize text)
    (h : Follows text k p q) (husual : ∀ c ∈ p.nesting.contexts, c.Usual g) :
    q.findings g = (k.findings g).append text (p.findings g) := by
  have hclose := h.closeAll hk husual
  obtain ⟨last, hassembly, -⟩ := hclose.assembly
  have hstop : (q.closeAll g).cursor.position = (p.closeAll g).cursor.position.shift text := by
    rw [hclose.cursor]
    rfl
  rw [findings_of_rests hrests hframes]
  unfold Pass.findings
  dsimp only
  rw [hassembly, hclose.diagnostics, hstop]
  generalize (p.closeAll g).assembly = a
  generalize (p.closeAll g).cursor.position = stop
  generalize (p.closeAll g).diagnostics = ds
  have hafter : ∀ (es : List Diagnostic), ∀ d ∈ es.map (·.shift text),
      Text.byteSize text ≤ d.span.start.offset := by
    intro es d hd
    obtain ⟨e, -, rfl⟩ := List.mem_map.mp hd
    exact Nat.le_add_left _ _
  have hafterTags : ∀ (ts : List Tag), ∀ t ∈ ts.map (·.shift text),
      Text.byteSize text ≤ t.span.start.offset := by
    intro ts t ht
    obtain ⟨u, -, rfl⟩ := List.mem_map.mp ht
    exact Nat.le_add_left _ _
  obtain ⟨last', hbodies⟩ := Assembly.graft_endBodies k.assembly text last a.endWaiting stop
  unfold Assembly.finish
  rw [Assembly.graft_endWaiting, hbodies]
  generalize a.endWaiting.endBodies stop = b
  have hmove : StrictMono (· + Text.byteSize text) := fun m n h ↦ Nat.add_lt_add_right h _
  have htags : sortTags (k.assembly.unresolved ++ b.unresolved.map (·.shift text)) =
      sortTags k.assembly.unresolved ++ (sortTags b.unresolved).map (·.shift text) := by
    rw [map_sortTags hmove fun t ↦ rfl]
    exact sortBy_append hunresolved (hafterTags _)
  have hdiagnostics : sortDiagnostics
        (sortDiagnostics (k.assembly.diagnostics ++ b.diagnostics.map (·.shift text)) ++
          (k.diagnostics ++ ds.map (·.shift text))) =
      sortDiagnostics (sortDiagnostics k.assembly.diagnostics ++ k.diagnostics) ++
        (sortDiagnostics (sortDiagnostics b.diagnostics ++ ds)).map (·.shift text) := by
    rw [map_sortDiagnostics hmove shift_start, List.map_append,
      map_sortDiagnostics hmove shift_start]
    exact sortBy_append_sortBy hreported (hafter _) hnotes (hafter _)
  unfold Findings.append
  dsimp only [Assembly.graft]
  rw [htags, hdiagnostics]
  rfl

/-! ## Scans from a rest -/

/-- A pass whose offset is the size of a text has that text behind it. -/
theorem cursor_of_offset (h : Reaches (step s) (start s (text ++ more)) k)
    (hoffset : k.cursor.position.offset = Text.byteSize text) :
    k.cursor.behind = text.reverse ∧ k.cursor.ahead = more := by
  obtain ⟨htext, hposition⟩ := (reaches_moves h).2.cursor
  have hsize : Text.byteSize k.cursor.behind.reverse = Text.byteSize text := by
    rw [← hoffset, hposition, Position.after_offset]
    exact (Nat.zero_add _).symm
  have hempty : ∀ s t : List Char, Text.byteSize s = Text.byteSize (s ++ t) → t = [] := by
    intro s t hst
    have := Text.length_le_byteSize t
    rw [Text.byteSize_append] at hst
    exact List.length_eq_zero_iff.mp (by omega)
  rcases List.append_eq_append_iff.mp htext with ⟨t, ht, hahead⟩ | ⟨t, ht, hahead⟩
  · obtain rfl := hempty _ t (by rw [hsize, ht])
    rw [List.append_nil] at ht
    exact ⟨by rw [ht, List.reverse_reverse], hahead⟩
  · obtain rfl := hempty _ t (by rw [← hsize, ht])
    rw [List.append_nil] at ht
    exact ⟨by rw [← ht, List.reverse_reverse], hahead.symm⟩

/-- From a rest, a scan goes on as from the start of what is ahead, once it is ready for a
statement. -/
theorem follows_start (hline : text = [] ∨ Text.EndsLine text)
    (h : Reaches (step s) (start s (text ++ more)) k)
    (hoffset : k.cursor.position.offset = Text.byteSize text) (hrests : k.Rests) :
    Follows text k (start s more) { k with statementStart := true } := by
  obtain ⟨hbehind, hahead⟩ := cursor_of_offset h hoffset
  obtain ⟨-, hposition⟩ := (reaches_moves h).2.cursor
  rw [hbehind, List.reverse_reverse, Position.start_after hline] at hposition
  have hframes := frames_of_contexts h hrests.contexts
  have hsource := Assembly.replay_source (.start (text ++ more) s.options.maxBlankLines) k.events
  rw [← assembly_eq_replay h] at hsource
  refine ⟨?_, ?_, ⟨k.assembly.lastAnchor, ?_, fun hp ↦ by cases hp⟩, hrests.mode, rfl,
    hrests.pendingBody, (List.append_nil _).symm⟩
  · change k.cursor = _
    rw [show k.cursor = ⟨k.cursor.position, k.cursor.behind, k.cursor.ahead⟩ from rfl, hbehind,
      hahead, hposition]
    rfl
  · change k.nesting = _
    rw [show k.nesting = ⟨k.nesting.contexts, k.nesting.limit, k.nesting.overflow⟩ from rfl,
      hrests.contexts, hrests.overflow, limit_of_reaches h]
    rfl
  · have hstart := Assembly.graft_start hsource.1 hframes hrests.waiting
    rw [hsource.2] at hstart
    exact hstart.symm

/-- A scan that goes on from a rest is ready for a statement, or will be after the newline that comes
next. -/
theorem exists_end_of_rests (g : Grammar) (hg : s.grammar.Lined)
    (hline : text = [] ∨ Text.EndsLine text) (h : Reaches (step s) (start s (text ++ more)) k)
    (hoffset : k.cursor.position.offset = Text.byteSize text) (hrests : k.Rests) {n : Nat}
    (hend : step s (iterate (step s) (n + 1) { k with statementStart := true }) = none) :
    ∃ r, Reaches (step s) k r ∧ step s r = none ∧
      r.findings g = (iterate (step s) (n + 1) { k with statementStart := true }).findings g := by
  obtain ⟨hbehind, hahead⟩ := cursor_of_offset h hoffset
  have hstart : k.cursor.AtLineStart := by
    intro d hd
    rw [hbehind, List.head?_reverse] at hd
    rcases hline with rfl | hline
    · cases hd
    · rw [hline] at hd
      exact (Option.some.inj hd).symm
  have hready : ({ k with statementStart := true } : Pass).Rests := { hrests with }
  have hframes := frames_of_contexts h hrests.contexts
  by_cases hnil : k.cursor.ahead = []
  · have hnone : ∀ b, step s { k with statementStart := b } = none :=
      fun b ↦ step_eq_none hrests.mode hnil
    rw [iterate_of_none (hnone true), findings_of_rests hready hframes]
    exact ⟨k, .refl k, hnone k.statementStart, findings_of_rests hrests hframes g⟩
  by_cases hnl : k.cursor.ahead.head? = some '\n'
  · obtain ⟨rest, hrest⟩ := List.head?_eq_some_iff.mp hnl
    have hstep : ∀ b, step s { k with statementStart := b } =
        some { k.consume 1 with lineStart := true, statementStart := true } := by
      intro b
      rw [step_newline (p := { k with statementStart := b }) hrests.mode hrest, afterNewline_eq]
      simp [inStatements, Nesting.top?, consume, hrests.contexts, hrests.pendingBody]
    rw [iterate_of_some (hstep true)] at hend ⊢
    exact ⟨_, .head (hstep k.statementStart) (reaches_iterate n _), hend, rfl⟩
  · have hfresh := (tracked_of_reaches hg h).fresh
    rw [Fresh, hrests.mode] at hfresh
    have hsame : { k with statementStart := true } = k := by
      rw [← hfresh hstart hnil hnl hrests.contexts hrests.pendingBody]
    rw [hsame] at hend ⊢
    exact ⟨_, reaches_iterate _ _, hend, rfl⟩

/-- From a rest, a scan finds what the scan of the text ahead finds. -/
theorem scan_of_rests (hg : s.grammar.Lined) (hline : text = [] ∨ Text.EndsLine text)
    (hoperand : s.grammar.regexLiterals = true →
      ∀ c, text.reverse.find? (!Text.isBlank ·) = some c → c ∈ Grammar.operandLeads)
    (h : Reaches (step s) (start s (text ++ more)) k)
    (hoffset : k.cursor.position.offset = Text.byteSize text) (hrests : k.Rests) :
    s.scan (text ++ more) = (k.findings s.grammar).append text (s.scan more) := by
  have hframes := frames_of_contexts h hrests.contexts
  have hroot := key_le_of_mem_root h hrests.mode
  have hunresolved := unresolved_start_lt h hrests.mode
  have hreported := fun d hd ↦ (assembly_diagnostics_lt h hrests.mode d hd).2
  have hnotes := (tracked_of_reaches hg h).notes
  rw [hoffset] at hroot hunresolved hreported hnotes
  have hk : Ground s.grammar text k := ⟨hg, hline, hroot, hoperand⟩
  -- the scan of the text ahead and the scan that goes on step together
  have husual : ∀ p, Reaches (step s) (start s more) p → ∀ c ∈ p.nesting.contexts,
      c.Usual s.grammar := fun p hp ↦ (reaches_moves hp).2.contexts
  have hstep : ∀ p q, Reaches (step s) (start s more) p → Follows text k p q →
      Option.Rel (Follows text k) (step s p) (step s q) :=
    fun p q hp hpq ↦ hpq.step hk (husual p hp)
  obtain ⟨n, hn⟩ : ∃ n, 4 * (more.length + 1) = n + 1 := ⟨4 * more.length + 3, by omega⟩
  have hrun := iterate_rel hstep (n + 1) (follows_start hline h hoffset hrests)
  have hreach : Reaches (step s) (start s more) (iterate (step s) (n + 1) (start s more)) :=
    reaches_iterate _ _
  have hscan : s.scan more = (iterate (step s) (n + 1) (start s more)).findings s.grammar := by
    rw [← hn]
    rfl
  have hend : step s (iterate (step s) (n + 1) { k with statementStart := true }) = none := by
    have hnone : step s (iterate (step s) (n + 1) (start s more)) = none := by
      rw [← hn]
      exact step_run (atComment_start s more)
    have hrel := hstep _ _ hreach hrun
    rw [hnone] at hrel
    cases hq : step s (iterate (step s) (n + 1) { k with statementStart := true }) with
    | none => rfl
    | some q => rw [hq] at hrel; cases hrel
  obtain ⟨r, hr, hnone, hfindings⟩ := exists_end_of_rests s.grammar hg hline h hoffset
    hrests hend
  have hwhole : s.scan (text ++ more) = r.findings s.grammar := by
    rw [← run_eq_of_reaches (atComment_start s _) (h.trans hr) hnone]
    rfl
  rw [hwhole, hfindings, hscan]
  exact hrun.findings hk hrests hframes hunresolved hreported hnotes (husual _ hreach)

/-- A rest between two texts has found what the scan of the first text finds, but for what shows
that the second one follows. -/
theorem findings_of_boundary (hg : s.grammar.Lined) (hline : text = [] ∨ Text.EndsLine text)
    (h : Reaches (step s) (start s (text ++ more)) k)
    (hoffset : k.cursor.position.offset = Text.byteSize text) (hrests : k.Rests) :
    k.findings s.grammar =
      { s.scan text with
        diagnostics := (s.scan text).diagnostics.map (·.followedBy text more) } := by
  obtain ⟨-, hahead⟩ := cursor_of_offset h hoffset
  obtain ⟨p, hp, rfl, hnil⟩ := exists_reaches_of_extend hg hline h hahead hrests.mode
    hrests.contexts hrests.pendingBody
  have hrests' : p.Rests := { hrests with }
  have hend : step s p = none := step_eq_none hrests'.mode hnil
  have hscan : s.scan text = p.findings s.grammar := by
    rw [← run_eq_of_reaches (atComment_start s text) hp hend]
    rfl
  rw [hscan]
  exact findings_extend hrests' (frames_of_contexts hp hrests'.contexts)
    (fun d hd ↦ (assembly_diagnostics_lt hp hrests'.mode d hd).1) _

end Pass

/-- Where a scan comes to rest between two texts, its findings are those of the first text, followed
by those of the second one further on. One thing shows that the second text comes after the first: a
string literal whose last newline is escaped, at the end of the first text, ends with its line when
another newline comes next. -/
theorem scan_append_of_rests (s : Setup) (before after : List Char) (p : Pass)
    (hg : s.grammar = .javascript ∨ s.grammar = .go)
    (hline : before = [] ∨ Text.EndsLine before)
    (hreach : Reaches (Pass.step s) (Pass.start s (before ++ after)) p)
    (hoffset : p.cursor.position.offset = Text.byteSize before) (hrests : p.Rests)
    (hoperand : s.grammar = .javascript →
      ∀ c, before.reverse.find? (!Text.isBlank ·) = some c → c ∈ Grammar.operandLeads) :
    s.scan (before ++ after) =
      Findings.append before
        { s.scan before with
          diagnostics := (s.scan before).diagnostics.map (·.followedBy before after) }
        (s.scan after) ∧
    (s.scan (before ++ after)).outline.root.span =
      ⟨.start, Position.start.after (before ++ after)⟩ := by
  have hlined : s.grammar.Lined := by
    rcases hg with h | h <;> rw [h]
    · exact Grammar.lined_javascript
    · exact Grammar.lined_go
  have hregex : s.grammar.regexLiterals = true →
      ∀ c, before.reverse.find? (!Text.isBlank ·) = some c → c ∈ Grammar.operandLeads := by
    intro hregex
    refine hoperand (hg.resolve_right fun h ↦ ?_)
    rw [h] at hregex
    cases hregex
  refine ⟨?_, Pass.scan_root_span s _⟩
  rw [Pass.scan_of_rests hlined hline hregex hreach hoffset hrests,
    Pass.findings_of_boundary hlined hline hreach hoffset hrests]

/-- Two functions on two lines are found one after the other. -/
theorem scan_append_two_functions :
    let s : Setup := { grammar := .go, registry := .empty }
    let before := "func f() \x7b\x7d\n".toList
    let after := "func g".toList
    let p := iterate (Pass.step s) 7 (Pass.start s (before ++ after))
    p.cursor.position.offset = Text.byteSize before ∧ p.Rests ∧
      s.scan (before ++ after) =
        Findings.append before
          { s.scan before with
            diagnostics := (s.scan before).diagnostics.map (·.followedBy before after) }
          (s.scan after) := by
  intro s before after p
  have hoffset : p.cursor.position.offset = Text.byteSize before := by decide +kernel
  have hrests : p.Rests := by constructor <;> decide +kernel
  exact ⟨hoffset, hrests, (scan_append_of_rests s before after p (.inr rfl)
    (.inr (by rw [Text.EndsLine]; decide)) (reaches_iterate 7 _) hoffset hrests
    (fun h ↦ absurd h (by decide))).1⟩

/-- A literal whose last newline is escaped reaches the end of the first text, and the end of a line
in both. -/
theorem scan_append_ne_at_escaped_newline :
    let s : Setup := { grammar := .go, registry := .empty }
    let before := "\"\\\n".toList
    let after := "\n".toList
    let p := iterate (Pass.step s) 1 (Pass.start s (before ++ after))
    Text.EndsLine before ∧ Reaches (Pass.step s) (Pass.start s (before ++ after)) p ∧
      p.cursor.position.offset = Text.byteSize before ∧ p.Rests ∧
      (s.scan (before ++ after)).diagnostics ≠
        (s.scan before).diagnostics ++ (s.scan after).diagnostics.map (·.shift before) := by
  intro s before after p
  refine ⟨by rw [Text.EndsLine]; decide, reaches_iterate 1 _, by decide +kernel, ?_, by decide +kernel⟩
  constructor <;> decide +kernel

end Marginalia
