import Marginalia.Proofs.Boundary
import Marginalia.Proofs.DepthLimit
import Marginalia.Proofs.Loops

/-!
# Scans that mend nothing

What a scan reads of a text depends on what comes after it in two places only: where a literal has
no closer in the text, and where a run of line comments lasts up to the last line. The first is
reported. So a scan that reports nothing of the kind takes the same steps when more text comes after
it, up to such a run of comments, and ends the text with a newline that it reads in code.
-/

namespace Marginalia

/-- A grammar whose tokens lie within lines, as do its comments and the headers of its anchors. -/
structure Grammar.Plain (g : Grammar) : Prop extends g.InLines where
  blockComments_eq : g.blockComments = []
  methodShorthand : g.methodShorthand = false

theorem Grammar.plain_python : Grammar.python.Plain := ⟨Grammar.inLines_python, rfl, rfl⟩

/-! ## Tokens within lines -/

namespace Cursor

variable {c : Cursor} {t : List Char}

/-- A token within a line leaves the end of the line. -/
theorem endsLine_consume (hends : Text.EndsLine c.ahead) (ht : c.startsWith t = true)
    (hline : '\n' ∉ t) : Text.EndsLine (c.consume t.length).ahead := by
  obtain ⟨-, rest, hrest⟩ := startsWith_iff.mp ht
  rw [consume_ahead, ← hrest, List.drop_left]
  refine hends.of_suffix ⟨t, hrest⟩ ?_
  rintro rfl
  rw [List.append_nil] at hrest
  exact hline (hrest ▸ hends.mem)

theorem endsLine_bump {d : Char} (hends : Text.EndsLine c.ahead) (hpeek : c.peek? = some d)
    (hd : d ≠ '\n') : Text.EndsLine (c.consume 1).ahead := by
  obtain ⟨ds, hds⟩ := List.head?_eq_some_iff.mp hpeek
  rw [hds] at hends
  rw [consume_ahead, hds, List.drop_one, List.tail_cons]
  exact hends.tail hd

end Cursor

namespace Grammar

open Text (EndsLine)

variable {g : Grammar} {text : List Char} {r : Recognition}

theorem endsLine_nameAt (hg : g.InLines) {kind : AnchorKind} {named : List Char}
    (hn : EndsLine named) (ht : EndsLine text) (h : g.nameAt kind named text = some r) :
    EndsLine r.rest := by
  unfold nameAt at h
  split at h
  · rename_i i hi
    cases h
    exact (drop_ident_append hg.stops hn hi []).2
  · split at h
    · cases h
      exact ht
    · cases h

theorem endsLine_followingIdent? (hg : g.InLines) {kind : AnchorKind} (ht : EndsLine text)
    (h : g.followingIdent? kind text = some r) : EndsLine r.rest := by
  rw [followingIdent?_eq] at h
  refine endsLine_nameAt hg ?_ ht h
  unfold afterStar
  split
  · rename_i rest
    exact endsLine_dropInline (ht.tail (by decide))
  · exact ht

theorem endsLine_afterReceiver? (hg : g.InLines) {kind : AnchorKind} (ht : EndsLine text)
    (h : g.afterReceiver? kind text = some r) : EndsLine r.rest := by
  unfold afterReceiver? at h
  split at h
  · rename_i inner
    obtain ⟨rest, hrest, h⟩ := Option.bind_eq_some_iff.mp h
    obtain ⟨i, hi, h⟩ := Option.bind_eq_some_iff.mp h
    cases h
    have hends := (local_closeParens? 1 (ht.tail (by decide))).2 rest hrest
    exact (drop_ident_append hg.stops (endsLine_dropInline hends) hi []).2
  · exact endsLine_followingIdent? hg ht h

theorem endsLine_keywordAnchor? (hg : g.InLines) (ht : EndsLine text)
    (h : g.keywordAnchor? text = some r) : EndsLine r.rest := by
  obtain ⟨rule, hrule, h⟩ := List.exists_of_findSome?_eq_some h
  obtain ⟨rest, hrest, h⟩ := Option.bind_eq_some_iff.mp h
  obtain ⟨hkeyword, hnaming⟩ := hg.anchorRules rule hrule
  have hends := endsLine_dropInline ((local_keyword? g hkeyword ht).2 rest hrest)
  unfold ruleName? at h
  split at h
  · exact endsLine_followingIdent? hg hends h
  · exact endsLine_afterReceiver? hg hends h
  · rename_i hquoted
    exact absurd hquoted hnaming

theorem endsLine_assignedAnchor? (hg : g.InLines) {rule : AssignmentRule}
    (hrule : g.assignment = some rule) (ht : EndsLine text)
    (h : g.assignedAnchor? rule text = some r) : EndsLine r.rest := by
  obtain ⟨⟨name, qualified, rest⟩, hpath, h⟩ := Option.bind_eq_some_iff.mp h
  obtain ⟨value, hvalue, h⟩ := Option.bind_eq_some_iff.mp h
  obtain ⟨kind, -, h⟩ := Option.bind_eq_some_iff.mp h
  cases h
  have hends := (dottedPath?_append hg text.length false ht []).2 name qualified rest hpath
  exact (local_operator? (hg.assignment rule hrule).1 (endsLine_dropInline hends)).2 value hvalue

/-- The header of an anchor leaves the end of its line. -/
theorem endsLine_recognise? (hg : g.Plain) {enclosing : Option AnchorKind} (ht : EndsLine text)
    (h : g.recognise? text enclosing = some r) : EndsLine r.rest := by
  obtain ⟨found, hfound, rfl⟩ := Option.map_eq_some_iff.mp h
  have hbody := (skipModifiers_append hg.toInLines.stops ht []).2
  have hends : EndsLine found.rest := by
    rcases Option.or_eq_some_iff.mp hfound with hkey | ⟨-, hrest⟩
    · exact endsLine_keywordAnchor? hg.toInLines hbody hkey
    rcases Option.or_eq_some_iff.mp hrest with hassigned | ⟨-, hmethod⟩
    · obtain ⟨rule, hrule, hassigned⟩ := Option.bind_eq_some_iff.mp hassigned
      exact endsLine_assignedAnchor? hg.toInLines hrule hbody hassigned
    · rw [hg.methodShorthand] at hmethod
      cases hmethod
  split
  · exact hends
  · exact hends

end Grammar

/-! ## Literals with a closer -/

namespace StringDelimiter

variable {d : StringDelimiter} {s : List Char}

/-- A literal with its closer in a text does not see what comes after. -/
theorem tail_append_of_closed (hcloser : '\n' ∉ d.closer) (hs : Text.EndsLine s)
    (h : (d.tail s).2 = .closed) (more : List Char) : d.tail (s ++ more) = d.tail s := by
  fun_induction StringDelimiter.tail d s with
  | case1 => cases h
  | case2 c hescape => cases h
  | case3 c hescape c' cs n stop htail ih =>
    rw [htail] at ih
    have hcs : cs ≠ [] := by
      rintro rfl
      cases htail
      cases h
    have hends : Text.EndsLine cs :=
      hs.of_suffix ((List.suffix_cons c' cs).trans (List.suffix_cons c _)) hcs
    simp only [List.cons_append, tail_of_escape hescape, ih hends h]
  | case4 c cs hescape hclose =>
    rw [List.cons_append, tail_of_not_escape hescape, if_pos]
    rw [← List.cons_append, hs.isPrefixOf_append hcloser]
    exact hclose
  | case5 c cs hescape hclose hline => cases h
  | case6 c cs hescape hclose hline n stop htail ih =>
    rw [htail] at ih
    have hcs : cs ≠ [] := by
      rintro rfl
      cases htail
      cases h
    have hclose' : ¬(!d.closer.isEmpty && d.closer.isPrefixOf (c :: (cs ++ more))) = true := by
      rwa [← List.cons_append, hs.isPrefixOf_append hcloser]
    rw [List.cons_append, tail_of_not_escape hescape, if_neg hclose', if_neg hline,
      ih (hs.of_suffix (List.suffix_cons c cs) hcs) h]

/-- A literal with its closer leaves the end of a line. -/
theorem endsLine_drop_tail (hcloser : '\n' ∉ d.closer) (hs : Text.EndsLine s)
    (h : (d.tail s).2 = .closed) : Text.EndsLine (s.drop (d.tail s).1) := by
  refine hs.of_suffix (List.drop_suffix _ _) fun hnil ↦ ?_
  have hstops := (d.tail_spec s).2
  rw [h] at hstops
  obtain ⟨hne, hsuffix⟩ := hstops
  rw [List.take_of_length_le (List.drop_eq_nil_iff.mp hnil)] at hsuffix
  exact hcloser (hs.of_suffix hsuffix hne).mem

end StringDelimiter

namespace Pass

variable {s : Setup} {g : Grammar} {text more : List Char} {p q : Pass}

/-- A pass that has not mended the structure of the code. -/
def Unmended (p : Pass) : Prop := ∀ d ∈ p.diagnostics, d.kind.isRecovery = false

instance (p : Pass) : Decidable p.Unmended :=
  inferInstanceAs (Decidable (∀ d ∈ p.diagnostics, d.kind.isRecovery = false))

theorem Unmended.of_prefix (h : q.Unmended) (hpq : p.diagnostics <+: q.diagnostics) : p.Unmended :=
  fun d hd ↦ h d (hpq.subset hd)

/-- A literal without its closer is reported. -/
theorem tail_of_unmended {i : Nat} (h : (p.literal g i).Unmended) :
    ((g.delimiter i).tail (p.cursor.ahead.drop (g.delimiter i).opener.length)).2 = .closed := by
  rw [literal_eq] at h
  have hnotes : ∀ d ∈ p.literalNotes (g.delimiter i), d.kind.isRecovery = false :=
    fun d hd ↦ h d (List.mem_append_right _ hd)
  unfold literalNotes at hnotes
  cases hstop : ((g.delimiter i).tail (p.cursor.ahead.drop (g.delimiter i).opener.length)).2 with
  | closed => rfl
  | endOfLine =>
    rw [hstop] at hnotes
    cases hnotes _ (List.mem_singleton_self _)
  | endOfInput =>
    rw [hstop] at hnotes
    cases hnotes _ (List.mem_singleton_self _)

/-- A literal that is not reported leaves the end of a line. -/
theorem endsLine_literal {i : Nat} (hopener : p.cursor.startsWith (g.delimiter i).opener = true)
    (hline : '\n' ∉ (g.delimiter i).opener) (hcloser : '\n' ∉ (g.delimiter i).closer)
    (hends : Text.EndsLine p.cursor.ahead) (h : (p.literal g i).Unmended) :
    Text.EndsLine (p.literal g i).cursor.ahead := by
  have hrest := Cursor.endsLine_consume hends hopener hline
  rw [Cursor.consume_ahead] at hrest
  rw [literal_eq]
  simp only [note, consume, literalLength, Cursor.consume_ahead, ← List.drop_drop]
  exact StringDelimiter.endsLine_drop_tail hcloser hrest (tail_of_unmended h)

/-- A literal that is not reported stays in its text whatever comes after. -/
theorem literalLength_extend_le (text more : List Char) {i : Nat} {d : StringDelimiter}
    (hi : g.delimiter i = d) (hopener : p.cursor.startsWith d.opener = true)
    (hline : '\n' ∉ d.opener) (hcloser : '\n' ∉ d.closer) (hends : Text.EndsLine p.cursor.ahead)
    (h : (p.literal g i).Unmended) :
    (p.extend text more).literalLength d ≤ p.cursor.ahead.length := by
  subst hi
  have hrest := Cursor.endsLine_consume hends hopener hline
  have hle := (Cursor.length_pos_of_startsWith hopener).2
  have hclosed := tail_of_unmended h
  rw [Cursor.consume_ahead] at hrest
  have hdrop : (p.extend text more).cursor.ahead.drop (g.delimiter i).opener.length =
      p.cursor.ahead.drop (g.delimiter i).opener.length ++ more := List.drop_append_of_le_length hle
  have hlen := ((g.delimiter i).tail_spec
    (p.cursor.ahead.drop (g.delimiter i).opener.length)).1
  rw [literalLength, hdrop, StringDelimiter.tail_append_of_closed hcloser hrest hclosed]
  rw [List.length_drop] at hlen
  omega

/-! ## Code -/

/-- A token that is not reported leaves the end of a line. -/
theorem Ahead.endsLine_take {t : Token} (ht : p.Ahead g t) (hg : g.Plain)
    (hends : Text.EndsLine p.cursor.ahead)
    (hblank : ∀ c, p.cursor.peek? = some c → Text.isBlank c = false)
    (h : (p.take g t).Unmended) : Text.EndsLine (p.take g t).cursor.ahead := by
  cases ht with
  | comment found => exact hends
  | literal comment found =>
    obtain ⟨hline, hcloser, -⟩ := hg.delimiter _
    exact endsLine_literal (p := { p with statementStart := false })
      (Grammar.startsWith_of_stringStart? found) hline hcloser hends h
  | regex comment string found =>
    obtain ⟨hregex, hline⟩ := regexLiteral?_spec found
    exact Cursor.endsLine_consume hends hregex hline
  | closer comment string regex found =>
    rw [take_cursor]
    exact Cursor.endsLine_consume hends (Grammar.startsWith_of_blockClose? found) (hg.pair _).2
  | opener comment string regex closer found =>
    rw [take_cursor]
    exact Cursor.endsLine_consume hends (Grammar.startsWith_of_blockOpen? found) (hg.pair _).1
  | indentation unmarked found =>
    obtain ⟨hne, hlength⟩ := Grammar.ahead_ne_nil_of_bodyOpener? (bodyOpener?_eq_some found).2
    obtain ⟨c, hc⟩ := Cursor.exists_peek?_of_ne_nil hne
    rw [take_cursor, tokenLength, hlength]
    refine Cursor.endsLine_bump hends hc ?_
    rintro rfl
    exact absurd (hblank _ hc) (by decide)
  | separator unmarked body found =>
    rw [take_cursor]
    exact Cursor.endsLine_consume hends (Grammar.startsWith_of_statementEnd? found)
      (hg.statementEnds _ (List.mem_of_find?_eq_some found))
  | anchor unmarked body separator starts found =>
    rename_i r
    obtain ⟨header, hheader, -⟩ := Grammar.reads_recognise? found
    have hahead : p.cursor.ahead = header ++ r.rest := hheader
    have hrest : (p.take g (.anchor r)).cursor.ahead = r.rest := by
      rw [take_cursor, tokenLength, Cursor.consume_ahead, Recognition.headerLength, hahead,
        List.length_append, Nat.add_sub_cancel, List.drop_left]
    exact hrest ▸ Grammar.endsLine_recognise? hg hends found
  | plain unmarked body separator starts header =>
    rw [take_cursor, tokenLength, Cursor.consume_zero]
    exact hends
  | inner unmarked body separator goesOn => exact hends

/-- A pass whose text ends with a newline is before the end of a line, or has read its last newline
in code. -/
def Landed (p : Pass) : Prop :=
  Text.EndsLine p.cursor.ahead ∧ (p.mode = .skip → p.cursor.ahead.head? ≠ some '\n') ∨
    p.cursor.ahead = [] ∧ p.mode = .code ∧ p.lineStart = true

theorem landed_code (hg : g.Plain) (hmode : p.mode = .code) (hends : Text.EndsLine p.cursor.ahead)
    (h : (p.code g).Unmended) : (p.code g).Landed := by
  revert h
  unfold code
  split
  · rename_i hpeek
    exact absurd (List.head?_eq_none_iff.mp hpeek) hends.ne_nil
  rename_i c hpeek
  split
  · intro _
    rw [afterNewline_eq]
    by_cases hnil : (p.consume 1).cursor.ahead = []
    · exact .inr ⟨hnil, hmode, rfl⟩
    · refine .inl ⟨hends.of_suffix (List.drop_suffix 1 _) hnil, fun hskip ↦ ?_⟩
      cases hmode.symm.trans hskip
  rename_i hnl
  split
  · intro _
    refine .inl ⟨Cursor.endsLine_bump hends hpeek hnl, fun hskip ↦ ?_⟩
    cases hmode.symm.trans hskip
  · rename_i hblank
    have hahead := (p.atToken g).ahead_tokenAhead g
    rw [token_eq_take]
    generalize (p.atToken g).tokenAhead g = t at hahead
    intro h
    refine .inl ⟨hahead.endsLine_take hg (by rwa [atToken_cursor]) (fun d hd ↦ ?_) h,
      fun hskip ↦ ?_⟩
    · rw [atToken_cursor, hpeek] at hd
      cases hd
      simpa using hblank
    · -- only what consumes nothing leads to code to skip
      have hskip : ((p.atToken g).take g t).mode = .skip := hskip
      have hstay : ((p.atToken g).take g t).cursor = p.cursor := by
        rw [take_mode, atToken_mode, hmode] at hskip
        rw [take_cursor, atToken_cursor]
        cases t with
        | plain | inner => exact Cursor.consume_zero _
        | _ => cases hskip
      have hhead : ((p.atToken g).take g t).markEnd.cursor.ahead.head? = some c :=
        (congrArg (·.ahead.head?) hstay).trans hpeek
      rw [hhead]
      exact fun hc ↦ hnl (Option.some.inj hc)

/-- Code that is not reported is read in the same way whatever comes after. -/
theorem extend_code_of_unmended (hg : g.Plain) (hends : Text.EndsLine p.cursor.ahead)
    (htext : p.cursor.ahead <:+ text) (hmore : more ≠ [])
    (hplace : p.cursor.position.offset ≤ Text.byteSize p.assembly.source)
    (h : (p.code g).Unmended) : (p.extend text more).code g = (p.code g).extend text more := by
  refine extend_code hg.toInLines hends htext hmore hplace ?_ ?_
  · intro hmethods
    rw [hg.methodShorthand] at hmethods
    cases hmethods
  intro hblank hcomment i hstring
  obtain ⟨c, hc⟩ := Cursor.exists_peek?_of_ne_nil hends.ne_nil
  have hahead : (p.atToken g).Ahead g (.literal i) := by
    refine .literal ?_ ?_
    · rwa [atToken_cursor]
    · rwa [atToken_cursor]
  rw [code_of_ahead hc (hblank c hc) hahead] at h
  obtain ⟨hline, hcloser, -⟩ := hg.delimiter i
  have hopener := Grammar.startsWith_of_stringStart? hstring
  have hlength := literalLength_extend_le (p := { p.atToken g with statementStart := false }) text
    more rfl (by rwa [atToken_cursor]) hline hcloser (by rwa [atToken_cursor]) h
  unfold literalLength extend at hlength ⊢
  simpa only [atToken_cursor] using hlength

/-! ## Skipped code -/

theorem diagnostics_prefix_of_skipStep (h : skipStep s p = some q) :
    p.diagnostics <+: q.diagnostics := by
  cases skipStep_eq_some_iff.mp h with
  | literal peek goesOn found =>
    rw [literal_eq]
    exact List.prefix_append _ _
  | regex | blank | char => exact List.prefix_refl _

theorem endsLine_skipStep (hg : s.grammar.InLines) (hends : Text.EndsLine p.cursor.ahead)
    (h : skipStep s p = some q) (hq : q.Unmended) : Text.EndsLine q.cursor.ahead := by
  have hbump : ∀ {c}, p.cursor.peek? = some c → p.skipEnds s c = false →
      Text.EndsLine (p.cursor.consume 1).ahead := by
    intro c hpeek hskip
    refine Cursor.endsLine_bump hends hpeek ?_
    rintro rfl
    simp [skipEnds] at hskip
  cases skipStep_eq_some_iff.mp h with
  | literal peek goesOn found =>
    obtain ⟨hline, hcloser, -⟩ := hg.delimiter _
    exact endsLine_literal (Grammar.startsWith_of_stringStart? found) hline hcloser hends hq
  | regex peek goesOn string found =>
    obtain ⟨hregex, hline⟩ := regexLiteral?_spec found
    exact Cursor.endsLine_consume hends hregex hline
  | blank peek goesOn string regex blank => exact hbump peek goesOn
  | char peek goesOn string regex blank => exact hbump peek goesOn

/-- A token of skipped code that is not reported is the same whatever comes after, and leaves the
end of a line. -/
theorem extend_skipStep_of_unmended (hg : s.grammar.InLines) (hends : Text.EndsLine p.cursor.ahead)
    (htext : p.cursor.ahead <:+ text) (hmore : more ≠ []) (h : skipStep s p = some q)
    (hq : q.Unmended) :
    skipStep s (p.extend text more) = some (q.extend text more) ∧
      Text.EndsLine q.cursor.ahead ∧ q.cursor.ahead <:+ text := by
  refine ⟨?_, endsLine_skipStep hg hends h hq, ?_⟩
  · rw [extend_skipStep hg hends htext hmore, h, Option.map_some]
    intro d hd hskip i hi
    obtain ⟨hline, hcloser, -⟩ := hg.delimiter i
    cases (skipStep_eq_some_iff.mpr (.literal hd hskip hi)).symm.trans h
    exact literalLength_extend_le text more rfl (Grammar.startsWith_of_stringStart? hi) hline
      hcloser hends hq
  · obtain ⟨-, k, -, hcursor⟩ := skipStep_consumes h
    rw [hcursor, Cursor.consume_ahead]
    exact (List.drop_suffix k _).trans htext

/-- Skipped code that is not reported is skipped in the same way whatever comes after, and ends
before the end of a line. -/
theorem extend_skip_of_unmended (hg : s.grammar.InLines) (hends : Text.EndsLine p.cursor.ahead)
    (hhead : p.cursor.ahead.head? ≠ some '\n') (htext : p.cursor.ahead <:+ text) (hmore : more ≠ [])
    (h : (p.skip s).Unmended) :
    (p.extend text more).skip s = (p.skip s).extend text more ∧
      Text.EndsLine (p.skip s).cursor.ahead := by
  obtain ⟨c, hc⟩ := Cursor.exists_peek?_of_ne_nil hends.ne_nil
  have hpos : 1 ≤ p.cursor.ahead.length := List.length_pos_iff.mpr hends.ne_nil
  have hstart : Text.EndsLine (p.consume 1).markEnd.cursor.ahead := by
    refine Cursor.endsLine_bump hends hc ?_
    rintro rfl
    exact hhead hc
  have hstart' : ((p.extend text more).consume 1).markEnd =
      (p.consume 1).markEnd.extend text more := by
    rw [extend_consume hpos]
    rfl
  obtain ⟨hreach, hend⟩ :=
    (descends_skipStep s).runsTo_iterate (a := (p.consume 1).markEnd) (Nat.le_refl _)
  have hsuffix : (p.consume 1).markEnd.cursor.ahead <:+ text := (List.drop_suffix 1 _).trans htext
  unfold skip at h ⊢
  dsimp only at h ⊢
  rw [hstart']
  generalize (p.consume 1).markEnd = a at hstart hsuffix hreach hend h ⊢
  generalize iterate (skipStep s) a.cursor.ahead.length a = e at hreach hend h ⊢
  have hquiet : ∀ q, Reaches (skipStep s) q e → q.Unmended := by
    intro q hqe
    have hprefix : q.diagnostics <+: e.diagnostics :=
      hqe.invariant (P := fun r ↦ q.diagnostics <+: r.diagnostics)
        (fun r r' hr hstep ↦ hr.trans (diagnostics_prefix_of_skipStep hstep)) (List.prefix_refl _)
    exact Unmended.of_prefix (q := e) h hprefix
  have hstep : ∀ q r, Text.EndsLine q.cursor.ahead ∧ q.cursor.ahead <:+ text → ¬False →
      skipStep s q = some r → Reaches (skipStep s) r e →
      skipStep s (q.extend text more) = some (r.extend text more) ∧
        Text.EndsLine r.cursor.ahead ∧ r.cursor.ahead <:+ text := by
    rintro q r ⟨hq, hqtext⟩ - hqr hre
    exact extend_skipStep_of_unmended hg hq hqtext hmore hqr (hquiet r hre)
  obtain ⟨b, hab, hab', ⟨hb, hbtext⟩, rfl | hfalse⟩ :=
    hreach.push (skipStep s) (extend text more) _ (fun _ ↦ False) hstep ⟨hstart, hsuffix⟩
  · have hend' : skipStep s (b.extend text more) = none := by
      rw [extend_skipStep hg hb hbtext hmore, hend, Option.map_none]
      intro d hd hskip i hi
      cases (skipStep_eq_some_iff.mpr (.literal hd hskip hi)).symm.trans hend
    refine ⟨?_, hb⟩
    rw [(descends_skipStep s).iterate_eq (Nat.le_refl _) ⟨hab', hend'⟩]
    rfl
  · exact hfalse.elim

end Pass

/-! ## Comments -/

namespace Cursor

variable {text more marker : List Char} {c : Cursor}

/-- The first line of a run of line comments. -/
def firstCommentLine (c : Cursor) (marker : List Char) : List CommentLine × Cursor :=
  let (line, c) := (c.consume marker.length).commentLine marker
  ([line], c)

theorem runsTo_lineComments (c : Cursor) (marker : List Char) :
    RunsTo (nextCommentLine? marker) (c.firstCommentLine marker) (c.lineComments marker) :=
  (descends_nextCommentLine? marker).runsTo_iterate (Nat.le_refl _)

theorem lineComments_eq_of_runsTo {e : List CommentLine × Cursor}
    (h : RunsTo (nextCommentLine? marker) (c.firstCommentLine marker) e) :
    c.lineComments marker = e :=
  (descends_nextCommentLine? marker).iterate_eq (Nat.le_refl _) h

/-- A line comment ends before its newline. -/
theorem commentLine_ahead (c : Cursor) (marker : List Char) :
    (c.commentLine marker).2.ahead = c.ahead.dropWhile (· ≠ '\n') := by
  have hsplit : c.restOfLine ++ c.ahead.dropWhile (· ≠ '\n') = c.ahead :=
    List.takeWhile_append_dropWhile
  have hdrop : (c.restOfLine ++ c.ahead.dropWhile (· ≠ '\n')).drop c.restOfLine.length =
      c.ahead.dropWhile (· ≠ '\n') := List.drop_left
  rw [hsplit] at hdrop
  exact hdrop

theorem endsLine_commentLine (hends : Text.EndsLine c.ahead) (marker : List Char) :
    Text.EndsLine (c.commentLine marker).2.ahead := by
  rw [commentLine_ahead]
  exact hends.dropWhile (by simp)

theorem endsLine_nextCommentLine? {st st' : List CommentLine × Cursor} (hmarker : marker ≠ [])
    (hline : '\n' ∉ marker) (hends : Text.EndsLine st.2.ahead)
    (h : nextCommentLine? marker st = some st') : Text.EndsLine st'.2.ahead := by
  unfold nextCommentLine? at h
  split at h
  · rename_i rest hahead
    dsimp only at h
    split at h
    · rename_i hprefix
      cases h
      generalize (rest.takeWhile Text.isInlineBlank).length = blanks at hprefix ⊢
      have hdrop : (st.2.consume (1 + blanks)).ahead = rest.drop blanks := by
        rw [consume_ahead, hahead, Nat.add_comm, List.drop_succ_cons]
      have hprefix := List.isPrefixOf_iff_prefix.mp hprefix
      have hstarts : (st.2.consume (1 + blanks)).startsWith marker = true :=
        startsWith_iff.mpr ⟨hmarker, hdrop ▸ hprefix⟩
      have hrest : Text.EndsLine (st.2.consume (1 + blanks)).ahead :=
        hends.of_suffix (List.drop_suffix _ _)
          fun hnil ↦ hmarker (List.prefix_nil.mp (by rwa [← hnil, hdrop]))
      refine endsLine_commentLine ?_ marker
      rw [← consume_consume]
      exact endsLine_consume hrest hstarts hline
    · cases h
  · cases h

/-- A run of line comments is read line by line in the same way whatever comes after, and ends
before the end of a line. -/
theorem reaches_extend_lineComments (hmarker : c.startsWith marker = true) (hline : '\n' ∉ marker)
    (hends : Text.EndsLine c.ahead) (more : List Char) :
    Reaches (nextCommentLine? marker) ((c.extend more).firstCommentLine marker)
        ((c.lineComments marker).1, (c.lineComments marker).2.extend more) ∧
      Text.EndsLine (c.lineComments marker).2.ahead := by
  have hne := (startsWith_iff.mp hmarker).1
  have hafter := endsLine_consume hends hmarker hline
  have hfirst : (c.extend more).firstCommentLine marker =
      ((c.firstCommentLine marker).1, (c.firstCommentLine marker).2.extend more) := by
    unfold firstCommentLine
    rw [extend_consume (length_pos_of_startsWith hmarker).2, extend_commentLine hafter]
  have hstep : ∀ st st' : List CommentLine × Cursor, Text.EndsLine st.2.ahead → ¬False →
      nextCommentLine? marker st = some st' →
      Reaches (nextCommentLine? marker) st' (c.lineComments marker) →
      nextCommentLine? marker (st.1, st.2.extend more) = some (st'.1, st'.2.extend more) ∧
        Text.EndsLine st'.2.ahead := by
    intro st st' hst _ hnext _
    refine ⟨?_, endsLine_nextCommentLine? hne hline hst hnext⟩
    rw [extend_nextCommentLine? hline hst, hnext, Option.map_some]
    intro hlast
    rw [show st = (st.1, st.2) from rfl, nextCommentLine?_of_newline hlast,
      if_neg (by simp [hne])] at hnext
    cases hnext
  obtain ⟨b, -, hreach, hb, rfl | hfalse⟩ := (runsTo_lineComments c marker).1.push
    (nextCommentLine? marker) (fun st ↦ (st.1, st.2.extend more)) _ (fun _ ↦ False) hstep
    (endsLine_commentLine hafter marker)
  · exact ⟨hfirst ▸ hreach, hb⟩
  · exact hfalse.elim

/-- A run of line comments that ends before the last line is the same whatever comes after. -/
theorem extend_lineComments_of_ne (hmarker : c.startsWith marker = true) (hline : '\n' ∉ marker)
    (hends : Text.EndsLine c.ahead) (hlast : (c.lineComments marker).2.ahead ≠ ['\n']) :
    (c.extend more).lineComments marker =
      ((c.lineComments marker).1, (c.lineComments marker).2.extend more) := by
  obtain ⟨hreach, hend⟩ := reaches_extend_lineComments hmarker hline hends more
  refine lineComments_eq_of_runsTo ⟨hreach, ?_⟩
  rw [extend_nextCommentLine? hline hend hlast, (runsTo_lineComments c marker).2, Option.map_none]

end Cursor

/-! ## Steps -/

theorem Grammar.Plain.exists_line {g : Grammar} (hg : g.Plain) {c : Cursor} {form : CommentForm}
    (h : g.commentStart? c = some form) : ∃ i, form = .line i := by
  unfold commentStart? at h
  rw [hg.blockComments_eq] at h
  obtain ⟨i, -, rfl⟩ := Option.map_eq_some_iff.mp h
  exact ⟨i, rfl⟩

namespace Pass

variable {s : Setup} {g : Grammar} {text more : List Char} {p q e : Pass}

/-- A run of line comments that ends before the last line is read in the same way whatever comes
after, and ends before the end of a line. -/
theorem extend_readComment_of_ne (hg : g.Plain) {i : Nat}
    (hform : g.commentStart? p.cursor = some (.line i)) (hends : Text.EndsLine p.cursor.ahead)
    (hlast : (p.readComment g (.line i)).cursor.ahead ≠ ['\n']) :
    (p.extend text more).readComment g (.line i) =
        (p.readComment g (.line i)).extend text more ∧
      Text.EndsLine (p.readComment g (.line i)).cursor.ahead := by
  have hopener := Grammar.startsWith_of_commentStart? hform
  have hline := hg.lineComment i
  rw [readComment_line_cursor] at hlast ⊢
  exact ⟨extend_lineComment (Cursor.extend_lineComments_of_ne hopener hline hends hlast),
    (Cursor.reaches_extend_lineComments hopener hline hends []).2⟩

/-- A pass before a comment that lasts up to the last line of its text, so that a comment on the
next line would be part of it. -/
def BeforeLastComment (g : Grammar) (p : Pass) : Prop :=
  ∃ form, p.mode = .comment form ∧ (p.readComment g form).cursor.ahead = ['\n']

/-- A step that is not reported is the same whatever comes after, unless it reads a comment that
lasts up to the last line. -/
theorem extend_step (hg : s.grammar.Plain) (hmore : more ≠ [])
    (hp : Reaches (step s) (start s text) p) (hlanded : p.Landed) (hstep : step s p = some q)
    (hq : q.Unmended) (hlast : ¬p.BeforeLastComment s.grammar) :
    step s (p.extend text more) = some (q.extend text more) ∧ q.Landed := by
  have hreg := (reaches_moves hp).2
  have htext : p.cursor.ahead <:+ text := ⟨_, hreg.cursor.1⟩
  obtain ⟨hends, hhead⟩ : Text.EndsLine p.cursor.ahead ∧
      (p.mode = .skip → p.cursor.ahead.head? ≠ some '\n') := by
    refine hlanded.resolve_right ?_
    rintro ⟨hnil, hmode, -⟩
    cases (step_eq_none hmode hnil).symm.trans hstep
  have hne : (p.extend text more).cursor.ahead ≠ [] :=
    List.append_ne_nil_of_left_ne_nil hends.ne_nil more
  cases hmode : p.mode with
  | comment form =>
    have hform := atComment_of_reaches hp form hmode
    obtain ⟨i, rfl⟩ := hg.exists_line hform
    cases (step_comment hmode).symm.trans hstep
    obtain ⟨hread, hend⟩ := extend_readComment_of_ne hg hform hends fun h ↦ hlast ⟨_, hmode, h⟩
    refine ⟨?_, .inl ⟨hend, fun hskip ↦ ?_⟩⟩
    · rw [step_comment (p := p.extend text more) hmode, hread]
    · obtain ⟨-, c, hc⟩ := readComment_progress hform
      cases hc.symm.trans hskip
  | tags c =>
    cases (step_tags hmode).symm.trans hstep
    refine ⟨?_, .inl ⟨?_, fun hskip ↦ ?_⟩⟩
    · rw [step_tags (p := p.extend text more) hmode,
        extend_placeTags s.registry (hreg.comment c hmode).2.2.2]
    · rw [placeTags_eq]
      exact hends
    · rw [placeTags_eq] at hskip
      cases hskip
  | code =>
    cases (step_code hmode hends.ne_nil).symm.trans hstep
    refine ⟨?_, landed_code hg hmode hends hq⟩
    rw [step_code (p := p.extend text more) hmode hne,
      extend_code_of_unmended hg hends htext hmore (offset_le_of_reaches hp) hq]
  | skip =>
    cases (step_skip hmode hends.ne_nil).symm.trans hstep
    obtain ⟨hskip, hend⟩ :=
      extend_skip_of_unmended hg.toInLines hends (hhead hmode) htext hmore hq
    refine ⟨?_, .inl ⟨hend, fun hmode' ↦ ?_⟩⟩
    · rw [step_skip (p := p.extend text more) hmode hne, hskip]
    · rw [skip_mode] at hmode'
      cases hmode'

/-- A scan that reports nothing of the kind goes the same way when more text comes after, up to its
end or up to a comment that lasts up to the last line. -/
theorem exists_reaches_extend (hg : s.grammar.Plain) (hline : text = [] ∨ Text.EndsLine text)
    (hmore : more ≠ []) (h : Reaches (step s) (start s text) e) (he : e.Unmended) :
    ∃ p, Reaches (step s) (start s text) p ∧ p.Landed ∧
      Reaches (step s) (start s (text ++ more)) (p.extend text more) ∧
      (p = e ∨ p.BeforeLastComment s.grammar) := by
  have hstart : (start s text).Landed := by
    rcases hline with rfl | hline
    · exact .inr ⟨rfl, rfl, rfl⟩
    · exact .inl ⟨hline, fun hskip ↦ by cases hskip⟩
  have hstep : ∀ p q, Reaches (step s) (start s text) p ∧ p.Landed →
      ¬p.BeforeLastComment s.grammar → step s p = some q → Reaches (step s) q e →
      step s (p.extend text more) = some (q.extend text more) ∧
        Reaches (step s) (start s text) q ∧ q.Landed := by
    rintro p q ⟨hp, hlanded⟩ hlast hpq hqe
    have hq : Reaches (step s) (start s text) q := hp.trans (.head hpq (.refl q))
    have hunmended := he.of_prefix (diagnostics_prefix_of_reaches hq hqe)
    obtain ⟨hstep, hqlanded⟩ := extend_step hg hmore hp hlanded hpq hunmended hlast
    exact ⟨hstep, hq, hqlanded⟩
  obtain ⟨p, -, hlong, ⟨hp, hlanded⟩, hend⟩ :=
    h.push (step s) (extend text more) _ _ hstep ⟨.refl _, hstart⟩
  exact ⟨p, hp, hlanded, hlong, hend⟩

end Pass

end Marginalia
