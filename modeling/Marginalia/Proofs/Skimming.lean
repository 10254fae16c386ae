import Marginalia.Proofs.Brackets
import Marginalia.Proofs.Spares
import Marginalia.Proofs.TagBlind
import Marginalia.Proofs.TagReports
import Marginalia.Proofs.Tokens
import Mathlib.Data.Bool.AllAny

/-!
# What a scan mends does not depend on what it skips

A skim finds comments, literals and brackets, and goes over everything else one character at a time;
it knows no statements, so it has nothing to skip. Where a grammar has no header, separator or blank
that a bracket, a quote or a comment could start in, every step of a scan is followed by a skim. It
takes one step for what it finds itself, one for each character of a header, and none where the scan
only makes up its mind. Both end where the text does. So two scans report the same of what they
mend, whatever they skip: it is what the skim reports.
-/

namespace Marginalia

/-- Something that is found at a cursor wherever it stands. -/
inductive Landmark where
  | comment (form : CommentForm)
  | literal (delimiter : Nat)
  | regex (text : List Char)
  | closer (pair : Nat)
  | opener (pair : Nat)
deriving DecidableEq, Repr

namespace Grammar

variable {g : Grammar} {c : Cursor} {d : Char}

/-- The landmark at a cursor. -/
def landmark? (g : Grammar) (c : Cursor) : Option Landmark :=
  if let some form := g.commentStart? c then some (.comment form)
  else if let some i := g.stringStart? c then some (.literal i)
  else if let some text := g.regexLiteral? c then some (.regex text)
  else if let some i := g.blockClose? c then some (.closer i)
  else (g.blockOpen? c).map .opener

/-- The texts that landmarks start with. -/
def landmarkOpeners (g : Grammar) : List (List Char) :=
  g.blockComments.map (·.1) ++ g.lineComments ++ g.strings.map (·.opener) ++
    g.blocks.map (·.closer) ++ g.blocks.map (·.opener)

/-- The characters that landmarks start with. -/
def leads (g : Grammar) : List Char :=
  g.landmarkOpeners.filterMap List.head? ++ if g.regexLiterals then ['/'] else []

theorem startsWith_eq_false (h : ∀ d ∈ g.leads, c.peek? ≠ some d) {t : List Char}
    (ht : t ∈ g.landmarkOpeners) : c.startsWith t = false := by
  refine Bool.eq_false_iff.mpr fun hstarts ↦ ?_
  obtain ⟨hne, rest, hrest⟩ := Cursor.startsWith_iff.mp hstarts
  obtain ⟨d, t, rfl⟩ := List.exists_cons_of_ne_nil hne
  refine h d (List.mem_append_left _ (List.mem_filterMap.mpr ⟨_, ht, rfl⟩)) ?_
  rw [Cursor.peek?, ← hrest]
  rfl

/-- A landmark starts with one of the characters that landmarks start with. -/
theorem landmark?_eq_none (h : ∀ d ∈ g.leads, c.peek? ≠ some d) : g.landmark? c = none := by
  have hstarts : ∀ t ∈ g.landmarkOpeners, c.startsWith t = false :=
    fun t ht ↦ startsWith_eq_false h ht
  simp only [landmarkOpeners, List.forall_mem_append, List.forall_mem_map] at hstarts
  obtain ⟨⟨⟨⟨hblock, hline⟩, hstring⟩, hcloser⟩, hopener⟩ := hstarts
  have hcomment : g.commentStart? c = none := by
    rw [commentStart?, List.findIdx?_eq_none_iff.mpr hblock]
    exact Option.map_eq_none_iff.mpr (List.findIdx?_eq_none_iff.mpr hline)
  have hliteral : g.stringStart? c = none := by
    have hnil : g.strings.zipIdx.filter (c.startsWith ·.1.opener) = [] :=
      List.filter_eq_nil_iff.mpr fun x hx ↦
        Bool.eq_false_iff.mp (hstring x.1 (List.fst_mem_of_mem_zipIdx hx))
    rw [stringStart?, hnil]
    rfl
  have hregex : g.regexLiteral? c = none := by
    unfold regexLiteral?
    split
    · rename_i hregex
      simp only [Bool.and_eq_true, decide_eq_true_eq] at hregex
      exact absurd hregex.1.2 (h '/' (List.mem_append_right _ (by simp [hregex.1.1])))
    · rfl
  rw [landmark?, hcomment, hliteral, hregex, blockClose?, List.findIdx?_eq_none_iff.mpr hcloser,
    blockOpen?, List.findIdx?_eq_none_iff.mpr hopener]
  rfl

theorem atEnd_of_landmark? {m : Landmark} (h : g.landmark? c = some m) : c.atEnd = false := by
  refine Bool.eq_false_iff.mpr fun hend ↦ ?_
  have hpeek : c.peek? = none := List.head?_eq_none_iff.mpr (by simpa [Cursor.atEnd] using hend)
  rw [landmark?_eq_none (by simp [hpeek])] at h
  cases h

/-- No landmark starts inside of a header, a separator or a blank, and the bodies of anchors are the
brackets of one pair. -/
structure Legible (g : Grammar) : Prop where
  braces : g.indents = false
  bodyPair : ∀ i j, g.isBodyPair i = true → g.isBodyPair j = true → i = j
  headers : ∀ d ∈ g.leads, g.Bars d
  separators : ∀ d ∈ g.leads, ∀ t ∈ g.statementEnds, d ∉ t

end Grammar

/-! ## Tokens and landmarks -/

namespace Token

/-- The landmark that a token is. -/
def landmark? : Token → Option Landmark
  | comment form => some (.comment form)
  | literal i => some (.literal i)
  | regex text => some (.regex text)
  | closer i => some (.closer i)
  | opener i => some (.opener i)
  | newline | blank | indentation _ | separator _ | anchor _ | plain | inner => none

end Token

namespace Pass

variable {s : Setup} {g : Grammar} {p q k : Pass} {t : Token}

/-- The landmark at a cursor comes before all else that a token could be. -/
theorem Ahead.landmark?_eq (h : p.Ahead g t) : t.landmark? = g.landmark? p.cursor := by
  have hnone : g.Unmarked p.cursor → g.landmark? p.cursor = none := by
    rintro ⟨comment, string, regex, closer, opener⟩
    rw [Grammar.landmark?, comment, string, regex, closer, opener]
    rfl
  unfold Grammar.landmark? at hnone ⊢
  cases h with
  | comment found => rw [found]; rfl
  | literal comment found => rw [comment, found]; rfl
  | regex comment string found => rw [comment, string, found]; rfl
  | closer comment string regex found => rw [comment, string, regex, found]; rfl
  | opener comment string regex closer found => rw [comment, string, regex, closer, found]; rfl
  | indentation unmarked | separator unmarked | anchor unmarked | plain unmarked
  | inner unmarked => exact (hnone unmarked).symm

theorem landmark?_of_isBlank (hg : g.Legible) {c : Char} (hc : p.cursor.peek? = some c)
    (hblank : Text.isBlank c = true) : g.landmark? p.cursor = none := by
  refine Grammar.landmark?_eq_none fun d hd hpeek ↦ ?_
  obtain rfl := Option.some.inj (hc.symm.trans hpeek)
  rw [(hg.headers _ hd).anyBlank] at hblank
  cases hblank

/-- A token is the landmark at the cursor of the pass that reads it, if there is one. -/
theorem landmark?_of_reads (hg : g.Legible) (h : p.reads g = some t) :
    t.landmark? = g.landmark? p.cursor := by
  obtain ⟨-, c, hc, ⟨rfl, rfl⟩ | ⟨-, hblank, rfl⟩ | ⟨-, ahead⟩⟩ := reads_eq_some_iff.mp h
  · exact (landmark?_of_isBlank hg hc rfl).symm
  · exact (landmark?_of_isBlank hg hc hblank).symm
  · rw [ahead.landmark?_eq, atToken_cursor]

/-! ## Skims -/

/-- Deal with a landmark. -/
def readLandmark (p : Pass) (g : Grammar) : Landmark → Pass
  | .comment form => p.readComment g form
  | .literal i => p.literal g i
  | .regex text => p.consume text.length
  | .closer i => p.closeBlock g i
  | .opener i => p.openBlock g i

/-- Read the landmark at the cursor, or go over one character; none when the text is used up. -/
def skimStep (g : Grammar) (p : Pass) : Option Pass :=
  if p.cursor.atEnd then none
  else
    match g.landmark? p.cursor with
    | some m => some (p.readLandmark g m)
    | none => some (p.consume 1)

end Pass

/-- What brackets and reports see of a context: the brackets that close it, and what is reported when
it is closed without one. -/
def Context.face (g : Grammar) (c : Context) :
    (Nat → Bool) × (Position → Option (List Char) → List Diagnostic) :=
  (fun i ↦ Pass.closes g i c, fun stop closer ↦ c.unwindNotes g stop closer)

/-- From its face, a body is the bracket that opened it. -/
theorem Context.face_body {g : Grammar} (hg : g.Legible) {i : Nat} (hi : g.isBodyPair i = true)
    (opened : Position) : (body opened none).face g = (block i opened).face g := by
  have hcloses : ∀ j, Pass.closes g j (body opened none) = Pass.closes g j (block i opened) := by
    intro j
    have hiff : g.isBodyPair j = true ↔ i = j :=
      ⟨fun hj ↦ hg.bodyPair i j hi hj, fun hj ↦ hj ▸ hi⟩
    exact Bool.eq_iff_iff.mpr (hiff.trans decide_eq_true_iff.symm)
  have hopener : (body opened none).opener? g = (block i opened).opener? g := by
    simp only [opener?, Grammar.isBodyPair_iff.mp hi]
  unfold face unwindNotes
  rw [hopener]
  exact Prod.ext (funext hcloses) rfl

namespace Pass

variable {s : Setup} {g : Grammar} {p q k : Pass} {t : Token}

/-- Two passes that a skim does not tell apart: they stand at the same place among the same brackets,
and have reported the same of what they mend. -/
structure Level (g : Grammar) (p k : Pass) : Prop where
  cursor : p.cursor = k.cursor
  limit : p.nesting.limit = k.nesting.limit
  overflow : p.nesting.overflow = k.nesting.overflow
  contexts : p.nesting.contexts.map (Context.face g) = k.nesting.contexts.map (Context.face g)
  notes : p.diagnostics.filter (·.kind.isRecovery) = k.diagnostics.filter (·.kind.isRecovery)

namespace Level

theorem symm (h : Level g p k) : Level g k p :=
  ⟨h.cursor.symm, h.limit.symm, h.overflow.symm, h.contexts.symm, h.notes.symm⟩

theorem trans (h : Level g p k) (h' : Level g k q) : Level g p q :=
  ⟨h.cursor.trans h'.cursor, h.limit.trans h'.limit, h.overflow.trans h'.overflow,
    h.contexts.trans h'.contexts, h.notes.trans h'.notes⟩

/-- The flags, the outline and the wait for a body do not matter. -/
theorem of_eq (hcursor : p.cursor = k.cursor) (hnesting : p.nesting = k.nesting)
    (hnotes : p.diagnostics = k.diagnostics) : Level g p k :=
  ⟨hcursor, by rw [hnesting], by rw [hnesting], by rw [hnesting], by rw [hnotes]⟩

theorem consume (h : Level g p k) (n : Nat) : Level g (p.consume n) (k.consume n) :=
  ⟨congrArg (·.consume n) h.cursor, h.limit, h.overflow, h.contexts, h.notes⟩

theorem note (h : Level g p k) (ds : List Diagnostic) : Level g (p.note ds) (k.note ds) :=
  ⟨h.cursor, h.limit, h.overflow, h.contexts, by simp only [Pass.note, List.filter_append, h.notes]⟩

theorem opening_eq (h : Level g p k) : p.nesting.opening = k.nesting.opening := by
  have hdepth : p.nesting.contexts.length = k.nesting.contexts.length := by
    simpa using congrArg List.length h.contexts
  unfold Nesting.opening Nesting.depth
  rw [h.limit, h.overflow, hdepth]

/-! ### Landmarks -/

theorem literal (h : Level g p k) (i : Nat) : Level g (p.literal g i) (k.literal g i) := by
  have hlength : ∀ d, p.literalLength d = k.literalLength d := fun d ↦ by
    rw [literalLength, literalLength, h.cursor]
  have hnotes : ∀ d, p.literalNotes d = k.literalNotes d := fun d ↦ by
    simp only [literalNotes, Pass.consume, hlength, h.cursor]
  rw [literal_eq, literal_eq, hlength, hnotes]
  exact (h.consume _).note _

theorem readComment (h : Level g p k) (form : CommentForm) :
    Level g (p.readComment g form) (k.readComment g form) := by
  cases form with
  | line i =>
    have hquiet : ∀ r : Pass, Level g (r.readComment g (.line i))
        { r with cursor := (r.cursor.lineComments (g.lineComment i)).2 } := by
      intro r
      obtain ⟨_, _, _, hread, -⟩ := r.readComment_line_eq g i
      rw [hread]
      exact of_eq rfl rfl rfl
    refine (hquiet p).trans (Level.trans ?_ (hquiet k).symm)
    exact ⟨congrArg (fun c ↦ (c.lineComments (g.lineComment i)).2) h.cursor, h.limit, h.overflow,
      h.contexts, h.notes⟩
  | block i =>
    have hfound : ∀ opener closer, p.blockFound opener closer = k.blockFound opener closer :=
      fun opener closer ↦ by rw [blockFound, blockFound, h.cursor]
    have hlength : ∀ opener closer, p.blockLength opener closer = k.blockLength opener closer :=
      fun opener closer ↦ by rw [blockLength, blockLength, hfound]
    have hnotes : ∀ opener closer, p.blockNotes opener closer = k.blockNotes opener closer :=
      fun opener closer ↦ by
        rw [blockNotes, blockNotes, hfound, blockSpan, blockSpan, hlength, h.cursor]
    have hquiet : ∀ r : Pass, Level g (r.readComment g (.block i))
        ((r.consume (r.blockLength (g.blockComment i).1 (g.blockComment i).2)).note
          (r.blockNotes (g.blockComment i).1 (g.blockComment i).2)) := by
      intro r
      rw [Pass.readComment, blockComment_eq]
      exact of_eq rfl rfl rfl
    refine (hquiet p).trans (Level.trans ?_ (hquiet k).symm)
    rw [hlength, hnotes]
    exact (h.consume _).note _

/-- An opener leaves a bracket behind, which may be the body of an anchor. -/
theorem openBlock_entered (hg : g.Legible) (hopening : p.nesting.opening = .entered) (i : Nat) :
    Level g (p.openBlock g i)
      { p.consume (g.pair i).opener.length with
        nesting :=
          { p.nesting with contexts := .block i p.cursor.position :: p.nesting.contexts } } := by
  cases hbody : p.opensBody g i with
  | false =>
    rw [openBlock_of_block hopening i hbody]
    exact of_eq rfl rfl rfl
  | true =>
    have hi : g.isBodyPair i = true := by
      simp only [opensBody, Bool.and_eq_true] at hbody
      exact hbody.1.1
    rw [openBlock_of_body hopening i hbody]
    exact ⟨rfl, rfl, rfl, congrArg (· :: p.nesting.contexts.map (Context.face g))
      (Context.face_body hg hi p.cursor.position), rfl⟩

theorem openBlock (hg : g.Legible) (h : Level g p k) (i : Nat) :
    Level g (p.openBlock g i) (k.openBlock g i) := by
  cases hopening : p.nesting.opening with
  | overflowed first =>
    have hnotes : p.tooDeepNotes first p.cursor.position =
        k.tooDeepNotes first k.cursor.position := by
      rw [tooDeepNotes, tooDeepNotes, h.limit, h.cursor]
    rw [openBlock_of_overflowed hopening, openBlock_of_overflowed (h.opening_eq ▸ hopening), hnotes]
    have hnoted := (h.consume (g.pair i).opener.length).note
      (k.tooDeepNotes first k.cursor.position)
    exact ⟨hnoted.cursor, h.limit, congrArg (· + 1) h.overflow, h.contexts, hnoted.notes⟩
  | entered =>
    refine (openBlock_entered hg hopening i).trans
      (Level.trans ?_ (openBlock_entered hg (h.opening_eq ▸ hopening) i).symm)
    have hcursor := congrArg (·.consume (g.pair i).opener.length) h.cursor
    refine ⟨hcursor, h.limit, h.overflow, ?_, h.notes⟩
    simp only [List.map_cons, h.contexts, h.cursor]

theorem closeThrough (h : Level g p k) (i n : Nat) (c d : Context) :
    Level g (p.closeThrough g i n c) (k.closeThrough g i n d) := by
  have hnotes : ∀ r : Pass, r.closeNotes g i n =
      ((r.nesting.contexts.map (Context.face g)).take n).flatMap
        (fun face ↦ face.2 r.cursor.position (some (g.pair i).closer)) := by
    intro r
    rw [closeNotes, ← List.map_take, List.flatMap_map]
    rfl
  have hnoted := (h.consume (g.pair i).closer.length).note (p.closeNotes g i n)
  rw [closeThrough_eq, closeThrough_eq]
  refine ⟨hnoted.cursor, h.limit, h.overflow, ?_, ?_⟩
  · change (p.nesting.contexts.drop (n + 1)).map _ = (k.nesting.contexts.drop (n + 1)).map _
    rw [List.map_drop, List.map_drop, h.contexts]
  · refine hnoted.notes.trans ?_
    rw [hnotes, h.contexts, h.cursor, ← hnotes]
    rfl

/-- Both passes close the same context, or find none that closes. -/
theorem closeBlock (h : Level g p k) (i : Nat) :
    Level g (p.closeBlock g i) (k.closeBlock g i) := by
  have hfind : ∀ cs : List Context, cs.findIdx? (closes g i) =
      (cs.map (Context.face g)).findIdx? (fun face ↦ face.1 i) := by
    intro cs
    rw [List.findIdx?_map]
    rfl
  have hsent : Level g (p.send [.bracketClosed i p.cursor.position])
      (k.send [.bracketClosed i k.cursor.position]) :=
    ⟨h.cursor, h.limit, h.overflow, h.contexts, h.notes⟩
  have hstray : Level g
      ((p.send [.bracketClosed i p.cursor.position]).strayClose (g.pair i).closer)
      ((k.send [.bracketClosed i k.cursor.position]).strayClose (g.pair i).closer) := by
    have hnote : (p.send [.bracketClosed i p.cursor.position]).strayNote (g.pair i).closer =
        (k.send [.bracketClosed i k.cursor.position]).strayNote (g.pair i).closer := by
      rw [strayNote, strayNote, hsent.cursor]
    rw [strayClose_eq, strayClose_eq, hnote]
    exact (hsent.consume _).note _
  rw [closeBlock_eq, closeBlock_eq, h.overflow]
  split
  · have hclosed := hsent.consume (g.pair i).closer.length
    exact ⟨hclosed.cursor, h.limit, congrArg (· - 1) h.overflow, h.contexts, h.notes⟩
  · unfold closeAmong
    rw [hfind, hfind, h.contexts]
    cases hn : (k.nesting.contexts.map (Context.face g)).findIdx? (fun face ↦ face.1 i) with
    | none => exact hstray
    | some n =>
      obtain ⟨hlt, -⟩ := List.findIdx?_eq_some_iff_getElem.mp hn
      have hlt' : n < p.nesting.contexts.length := by
        rw [← h.contexts, List.length_map] at hlt
        exact hlt
      rw [List.length_map] at hlt
      simp only [List.getElem?_eq_getElem hlt, List.getElem?_eq_getElem hlt']
      exact hsent.closeThrough i n _ _

theorem readLandmark (hg : g.Legible) (h : Level g p k) (m : Landmark) :
    Level g (p.readLandmark g m) (k.readLandmark g m) := by
  cases m with
  | comment form => exact h.readComment form
  | literal i => exact h.literal i
  | regex text => exact h.consume text.length
  | closer i => exact h.closeBlock i
  | opener i => exact h.openBlock hg i

end Level

/-! ## Steps -/

/-- Characters that no landmark starts with are gone over one by one. -/
theorem reaches_skim_consume {n : Nat} (hn : n ≤ k.cursor.ahead.length)
    (h : ∀ d ∈ g.leads, d ∉ k.cursor.ahead.take n) :
    Reaches (skimStep g) k (k.consume n) := by
  induction n generalizing k with
  | zero =>
    have hzero : k.consume 0 = k := by rw [Pass.consume, Cursor.consume_zero]
    rw [hzero]
    exact .refl k
  | succ n ih =>
    cases hahead : k.cursor.ahead with
    | nil => simp [hahead] at hn
    | cons c cs =>
      rw [hahead] at hn h
      have hend : k.cursor.atEnd = false := by simp [Cursor.atEnd, hahead]
      have hpeek : k.cursor.peek? = some c := by simp [Cursor.peek?, hahead]
      have hlead : ∀ d ∈ g.leads, k.cursor.peek? ≠ some d := by
        rintro d hd hpeek'
        rw [hpeek, Option.some.injEq] at hpeek'
        exact h d hd (by simp [hpeek'])
      have hstep : skimStep g k = some (k.consume 1) := by
        simp [skimStep, hend, Grammar.landmark?_eq_none hlead]
      have hrest : (k.consume 1).cursor.ahead = cs := by simp [Pass.consume, hahead]
      have hreach : Reaches (skimStep g) (k.consume 1) ((k.consume 1).consume n) := by
        refine ih (by simpa [hrest] using hn) fun d hd hmem ↦ h d hd ?_
        rw [hrest] at hmem
        exact List.mem_cons_of_mem _ hmem
      have hconsume : (k.consume 1).consume n = k.consume (n + 1) := by
        simp only [Pass.consume, Cursor.consume_consume, Nat.add_comm]
      exact .head hstep (hconsume ▸ hreach)

theorem skimStep_of_landmark? {m : Landmark} (hm : g.landmark? k.cursor = some m) :
    skimStep g k = some (k.readLandmark g m) := by
  simp [skimStep, Grammar.atEnd_of_landmark? hm, hm]

theorem skimStep_of_peek? {c : Char} (hc : k.cursor.peek? = some c)
    (hm : g.landmark? k.cursor = none) : skimStep g k = some (k.consume 1) := by
  simp [skimStep, Cursor.atEnd_eq, hc, hm]

/-- The landmark that a pass is about to read stands at the cursor, and there is none where it is
about to skip. -/
def Aimed (g : Grammar) (p : Pass) : Prop :=
  match p.mode with
  | .comment form => g.landmark? p.cursor = some (.comment form)
  | .skip => g.landmark? p.cursor = none
  | .code | .tags _ => True

theorem aimed_of_code (h : p.mode = .code) : p.Aimed g := by
  rw [Aimed, h]
  trivial

theorem aimed_readComment (p : Pass) (g : Grammar) (form : CommentForm) :
    (p.readComment g form).Aimed g := by
  cases form <;> exact trivial

/-- What a pass does about a landmark that it does not put off is what a skim does. -/
theorem level_take_of_landmark {m : Landmark} (hm : t.landmark? = some m)
    (ht : ∀ form, t ≠ .comment form) (p : Pass) : Level g (p.take g t) (p.readLandmark g m) := by
  have hstart : Level g { p with statementStart := false } p := .of_eq rfl rfl rfl
  cases t with
  | comment form => exact absurd rfl (ht form)
  | literal i =>
    cases hm
    exact hstart.literal i
  | regex text =>
    cases hm
    exact hstart.consume text.length
  | closer i =>
    cases hm
    exact .of_eq rfl rfl rfl
  | opener i =>
    cases hm
    exact .of_eq rfl rfl rfl
  | newline | blank | indentation _ | separator _ | anchor _ | plain | inner => cases hm

/-- No landmark starts with a blank. -/
theorem notMem_take_one_of_isBlank (hg : g.Legible) {text : List Char} {c : Char}
    (hhead : text.head? = some c) (hblank : Text.isBlank c = true) :
    1 ≤ text.length ∧ ∀ d ∈ g.leads, d ∉ text.take 1 := by
  obtain ⟨rest, rfl⟩ := List.head?_eq_some_iff.mp hhead
  refine ⟨Nat.le_add_left _ _, fun d hd hmem ↦ ?_⟩
  obtain rfl : d = c := by simpa using hmem
  rw [(hg.headers d hd).anyBlank] at hblank
  cases hblank

/-- A separator holds no character that a landmark starts with. -/
theorem notMem_take_of_statementEnd? (hg : g.Legible) {c : Cursor} {text : List Char}
    (h : g.statementEnd? c = some text) :
    text.length ≤ c.ahead.length ∧ ∀ d ∈ g.leads, d ∉ c.ahead.take text.length := by
  have hstarts := Grammar.startsWith_of_statementEnd? h
  obtain ⟨-, rest, hrest⟩ := Cursor.startsWith_iff.mp hstarts
  refine ⟨(Cursor.length_pos_of_startsWith hstarts).2, fun d hd ↦ ?_⟩
  rw [← hrest, List.take_left]
  exact hg.separators d hd text (List.mem_of_find?_eq_some h)

/-- Where a token is no landmark, a pass goes over characters that no landmark starts with. -/
theorem exists_level_take (hg : g.Legible) (hreads : p.reads g = some t) (hm : t.landmark? = none) :
    ∃ n ≤ p.cursor.ahead.length, (∀ d ∈ g.leads, d ∉ p.cursor.ahead.take n) ∧
      ∀ r : Pass, r.cursor = p.cursor → Level g (r.take g t) (r.consume n) := by
  have hnone : ∀ r : Pass, Level g r (r.consume 0) := fun r ↦ by
    rw [Pass.consume, Cursor.consume_zero]
    exact .of_eq rfl rfl rfl
  obtain ⟨-, c, hc, ⟨rfl, rfl⟩ | ⟨-, hblank, rfl⟩ | ⟨-, ahead⟩⟩ := reads_eq_some_iff.mp hreads
  · obtain ⟨hle, hlead⟩ := notMem_take_one_of_isBlank hg hc rfl
    refine ⟨1, hle, hlead, fun r _ ↦ ?_⟩
    rw [take, afterNewline_eq]
    exact .of_eq rfl rfl rfl
  · obtain ⟨hle, hlead⟩ := notMem_take_one_of_isBlank hg hc hblank
    exact ⟨1, hle, hlead, fun r _ ↦ .of_eq rfl rfl rfl⟩
  · cases ahead with
    | separator unmarked body found =>
      rw [atToken_cursor] at found
      obtain ⟨hle, hlead⟩ := notMem_take_of_statementEnd? hg found
      refine ⟨_, hle, hlead, fun r _ ↦ ?_⟩
      rw [take, separator, cancelBody_eq]
      exact .of_eq rfl rfl rfl
    | anchor unmarked body separator starts found =>
      rename_i a
      rw [atToken_cursor] at found
      refine ⟨a.headerLength p.cursor.ahead, Nat.sub_le _ _, fun d hd ↦ ?_, fun r hr ↦ ?_⟩
      · exact (Grammar.spares_recognise? (hg.headers d hd) found).notMem_take
      · rw [← hr]
        exact .of_eq rfl rfl rfl
    | plain =>
      refine ⟨0, Nat.zero_le _, by simp, fun r _ ↦ ?_⟩
      rw [take, cancelBody_eq]
      exact .trans (k := r) (.of_eq rfl rfl rfl) (hnone r)
    | inner =>
      exact ⟨0, Nat.zero_le _, by simp, fun r _ ↦ .trans (k := r) (.of_eq rfl rfl rfl) (hnone r)⟩
    | indentation unmarked found =>
      rw [bodyOpener?_of_braces hg.braces] at found
      cases found
    | comment | literal | regex | closer | opener => cases hm

/-- Only a comment or code to skip is put off to the next step. -/
theorem aimed_take (hmode : p.mode = .code) (ht : t.landmark? = g.landmark? p.cursor) :
    (p.take g t).Aimed g := by
  have hmode' := p.take_mode g t
  have hcursor := p.take_cursor g t
  cases t with
  | comment form | plain | inner =>
    rw [tokenLength, Cursor.consume_zero] at hcursor
    rw [Aimed, hmode', hcursor]
    exact ht.symm
  | _ => exact aimed_of_code (hmode'.trans hmode)

/-- A step that reads a token is followed by a skim. -/
theorem follows_of_reads (hg : s.grammar.Legible) (h : Level s.grammar p k)
    (hreads : p.reads s.grammar = some t) (hstep : step s p = some q) :
    q.Aimed s.grammar ∧
      ∃ k', Reaches (skimStep s.grammar) k k' ∧ Level s.grammar q k' := by
  have hmode := (reads_eq_some_iff.mp hreads).1
  have hmark := landmark?_of_reads hg hreads
  -- what `take` does to the pass or to the pass at the token is the same to a skim
  have htake : ∀ r : Pass, r.mode = p.mode → r.cursor = p.cursor → Level s.grammar r p →
      (r.take s.grammar t).Aimed s.grammar ∧
        ∃ k', Reaches (skimStep s.grammar) k k' ∧ Level s.grammar (r.take s.grammar t) k' := by
    intro r hrmode hrcursor hr
    refine ⟨aimed_take (hrmode.trans hmode) (by rw [hmark, hrcursor]), ?_⟩
    cases hm : t.landmark? with
    | none =>
      obtain ⟨n, hn, hleads, hlevel⟩ := exists_level_take hg hreads hm
      rw [h.cursor] at hn hleads
      exact ⟨_, reaches_skim_consume hn hleads, (hlevel r hrcursor).trans ((hr.trans h).consume n)⟩
    | some m =>
      by_cases hcomment : ∃ form, t = .comment form
      · obtain ⟨form, rfl⟩ := hcomment
        exact ⟨k, .refl k, .trans (k := r) (.of_eq rfl rfl rfl) (hr.trans h)⟩
      · have hskim : skimStep s.grammar k = some (k.readLandmark s.grammar m) := by
          refine skimStep_of_landmark? ?_
          rw [← h.cursor, ← hmark, hm]
        exact ⟨_, .head hskim (.refl _),
          (level_take_of_landmark hm (fun form hform ↦ hcomment ⟨form, hform⟩) r).trans
            ((hr.trans h).readLandmark hg m)⟩
  rcases step_of_reads hreads with ⟨-, heq⟩ | heq
  · obtain rfl := Option.some.inj (hstep.symm.trans heq)
    exact htake p rfl rfl (.of_eq rfl rfl rfl)
  · obtain rfl := Option.some.inj (hstep.symm.trans heq)
    rw [atToken_of_braces hg.braces]
    obtain ⟨haimed, k', hreach, hlevel⟩ :=
      htake { p with lineStart := false } rfl rfl (.of_eq rfl rfl rfl)
    exact ⟨haimed, k', hreach, .trans (k := Pass.take _ s.grammar t) (.of_eq rfl rfl rfl) hlevel⟩

/-- One step of skipping is one step of a skim. -/
theorem follows_skipStep (h : Level s.grammar p k) (hstep : skipStep s p = some q) :
    ∃ k', skimStep s.grammar k = some k' ∧ Level s.grammar q k' := by
  -- brackets and comments end what is skipped
  have hmark : ∀ {c}, p.skipEnds s c = false → s.grammar.landmark? k.cursor =
      if let some i := s.grammar.stringStart? p.cursor then some (.literal i)
      else (s.grammar.regexLiteral? p.cursor).map .regex := by
    intro c hends
    simp only [skipEnds, Bool.or_eq_false_iff, Option.isSome_eq_false_iff,
      Option.isNone_iff_eq_none] at hends
    obtain ⟨⟨⟨⟨⟨-, hcomment⟩, hopener⟩, hcloser⟩, -⟩, -⟩ := hends
    rw [← h.cursor, Grammar.landmark?, hcomment, hopener, hcloser]
    cases s.grammar.stringStart? p.cursor with
    | some i => rfl
    | none => cases s.grammar.regexLiteral? p.cursor <;> rfl
  have hbump : ∀ {c}, p.cursor.peek? = some c → s.grammar.landmark? k.cursor = none →
      skimStep s.grammar k = some (k.consume 1) :=
    fun hpeek hnone ↦ skimStep_of_peek? (h.cursor ▸ hpeek) hnone
  cases skipStep_eq_some_iff.mp hstep with
  | literal peek goesOn found =>
    rename_i i
    have hmark := hmark goesOn
    rw [found] at hmark
    exact ⟨_, skimStep_of_landmark? hmark, .trans (k := p.literal s.grammar i) (.of_eq rfl rfl rfl)
      (h.literal i)⟩
  | regex peek goesOn string found =>
    rename_i text
    have hmark := hmark goesOn
    rw [string, found] at hmark
    exact ⟨_, skimStep_of_landmark? hmark, .trans (k := p.consume text.length) (.of_eq rfl rfl rfl)
      (h.consume text.length)⟩
  | blank peek goesOn string regex blank =>
    have hmark := hmark goesOn
    rw [string, regex] at hmark
    exact ⟨_, hbump peek hmark, h.consume 1⟩
  | char peek goesOn string regex blank =>
    have hmark := hmark goesOn
    rw [string, regex] at hmark
    exact ⟨_, hbump peek hmark, .trans (k := p.consume 1) (.of_eq rfl rfl rfl) (h.consume 1)⟩

/-- Skipping from where no landmark stands is followed by a skim. -/
theorem follows_skip (h : Level s.grammar p k) {c : Char} (hc : p.cursor.peek? = some c)
    (hnone : s.grammar.landmark? p.cursor = none) :
    ∃ k', Reaches (skimStep s.grammar) k k' ∧ Level s.grammar (p.skip s) k' := by
  have hfirst : skimStep s.grammar k = some (k.consume 1) :=
    skimStep_of_peek? (h.cursor ▸ hc) (h.cursor ▸ hnone)
  have hstart : Level s.grammar (p.consume 1).markEnd (k.consume 1) :=
    .trans (k := p.consume 1) (.of_eq rfl rfl rfl) (h.consume 1)
  obtain ⟨q, ⟨k', hreach, hlevel⟩, hskip⟩ := skip_induction
    (P := fun q ↦ ∃ k', Reaches (skimStep s.grammar) k k' ∧ Level s.grammar q k') s
    ⟨k.consume 1, .head hfirst (.refl _), hstart⟩ fun a b ⟨k', hreach, hlevel⟩ hab ↦ by
      obtain ⟨k'', hstep, hlevel'⟩ := follows_skipStep hlevel (skipStep_eq_some_iff.mpr hab)
      exact ⟨k'', hreach.trans (.head hstep (.refl k'')), hlevel'⟩
  rw [hskip]
  exact ⟨k', hreach, .trans (k := q) (.of_eq rfl rfl rfl) hlevel⟩

/-- Every step of a scan is followed by a skim. -/
theorem follows_of_step (hg : s.grammar.Legible) (haimed : p.Aimed s.grammar)
    (h : Level s.grammar p k) (hstep : step s p = some q) :
    q.Aimed s.grammar ∧
      ∃ k', Reaches (skimStep s.grammar) k k' ∧ Level s.grammar q k' := by
  cases hreads : p.reads s.grammar with
  | some t => exact follows_of_reads hg h hreads hstep
  | none =>
    cases step_eq_some_iff.mp hstep with
    | comment mode =>
      simp only [Aimed, mode] at haimed
      rw [h.cursor] at haimed
      exact ⟨p.aimed_readComment s.grammar _, _, .head (skimStep_of_landmark? haimed) (.refl _),
        h.readComment _⟩
    | tags mode =>
      rename_i comment
      have hplaced : Level s.grammar (p.placeTags s.registry comment) p := by
        rw [placeTags_eq]
        refine ⟨rfl, rfl, rfl, rfl, ?_⟩
        simp only [note, send, List.filter_append, Comment.filter_isRecovery_tags, List.append_nil]
      exact ⟨aimed_of_code (by rw [placeTags_eq]), k, .refl k, hplaced.trans h⟩
    | newline mode peek => simp [reads, mode, peek] at hreads
    | blank mode peek inline blank => simp [reads, mode, peek] at hreads
    | token mode peek blank ahead => simp [reads, mode, peek] at hreads
    | skip mode peek =>
      simp only [Aimed, mode] at haimed
      exact ⟨aimed_of_code rfl, follows_skip h peek haimed⟩

/-- A whole scan is followed by a skim. -/
theorem follows_of_reaches (hg : s.grammar.Legible) (haimed : p.Aimed s.grammar)
    (h : Level s.grammar p k) (hreach : Reaches (step s) p q) :
    ∃ k', Reaches (skimStep s.grammar) k k' ∧ Level s.grammar q k' := by
  refine And.right (hreach.invariant (P := fun q ↦ q.Aimed s.grammar ∧
    ∃ k', Reaches (skimStep s.grammar) k k' ∧ Level s.grammar q k') ?_
    ⟨haimed, k, .refl k, h⟩)
  rintro a b ⟨haimed, k', hreach, hlevel⟩ hab
  obtain ⟨haimed', k'', hreach', hlevel'⟩ := follows_of_step hg haimed hlevel hab
  exact ⟨haimed', k'', hreach.trans hreach', hlevel'⟩

/-- Scans with the same limit end level with each other: the skim that follows one follows the
other. -/
theorem level_run (hg : s.grammar.Legible) (registry : Registry) (maxBlankLines : Nat)
    (skipLookahead : SkipLookahead) (source : List Char) :
    let s' := Setup.mk s.grammar registry ⟨s.options.maxDepth, maxBlankLines, skipLookahead⟩
    Level s.grammar (run s (start s source)) (run s' (start s' source)) := by
  intro s'
  have hends : ∀ {r k : Pass}, r.cursor.ahead = [] → Level s.grammar r k →
      skimStep s.grammar k = none := by
    intro r k hahead hlevel
    rw [hlevel.cursor] at hahead
    simp [skimStep, Cursor.atEnd, hahead]
  obtain ⟨k, hreach, hlevel⟩ := follows_of_reaches (k := start s source) hg
    (aimed_of_code rfl) (.of_eq rfl rfl rfl) (reaches_run s (start s source))
  obtain ⟨k', hreach', hlevel'⟩ := follows_of_reaches (s := s') (p := start s' source)
    (k := start s source) hg (aimed_of_code rfl) (.of_eq rfl rfl rfl) (reaches_run s' _)
  have hend := (ahead_eq_nil_of_step_eq_none (step_run (atComment_start s source))).1
  have hend' := (ahead_eq_nil_of_step_eq_none (step_run (atComment_start s' source))).1
  obtain rfl := hreach.end_unique (hends hend hlevel) hreach' (hends hend' hlevel')
  exact hlevel.trans hlevel'.symm

end Pass

/-- What a scan mends is what its run has reported, with what is still open at the end. -/
theorem Setup.filter_isRecovery_faces (s : Setup) (source : List Char) :
    let p := Pass.run s (Pass.start s source)
    (s.scan source).diagnostics.filter (·.kind.isRecovery) =
      sortDiagnostics (p.diagnostics.filter (·.kind.isRecovery) ++
        (p.nesting.contexts.map (Context.face s.grammar)).flatMap fun face ↦
          face.2 (Position.start.after source) none) := by
  intro p
  have hopen : (p.nesting.contexts.flatMap
      (Context.unwindNotes s.grammar (Position.start.after source) none)).filter
        (·.kind.isRecovery) = (p.nesting.contexts.map (Context.face s.grammar)).flatMap
          fun face ↦ face.2 (Position.start.after source) none := by
    rw [List.flatMap_map]
    exact List.filter_eq_self.mpr (Pass.isRecovery_unwindNotes s.grammar _ _ _)
  rw [s.filter_isRecovery_eq source, hopen]

/-- In a legible grammar a scan mends the same whatever it skips, and whatever it makes of tags. -/
theorem Setup.filter_isRecovery_of_legible (s : Setup) (hg : s.grammar.Legible)
    (registry : Registry) (maxBlankLines : Nat) (skipLookahead : SkipLookahead)
    (source : List Char) :
    (s.scan source).diagnostics.filter (·.kind.isRecovery) =
      (Setup.scan ⟨s.grammar, registry, ⟨s.options.maxDepth, maxBlankLines, skipLookahead⟩⟩
        source).diagnostics.filter (·.kind.isRecovery) := by
  have hlevel := Pass.level_run hg registry maxBlankLines skipLookahead source
  rw [filter_isRecovery_faces, filter_isRecovery_faces, hlevel.notes, hlevel.contexts]

namespace Grammar

theorem javascript_isBodyPair {i : Nat} (h : javascript.isBodyPair i = true) : i = 0 := by
  rcases i with - | - | - | i
  · rfl
  · cases h
  · cases h
  · cases h

theorem javascript_legible : javascript.Legible where
  braces := rfl
  bodyPair i j hi hj := (javascript_isBodyPair hi).trans (javascript_isBodyPair hj).symm
  headers := by
    have hwords : ∀ d ∈ javascript.leads, Text.isInlineBlank d = false ∧ d ≠ '*' ∧
        javascript.isIdentStart d = false ∧ javascript.isIdentPart d = false ∧
        (∀ m ∈ javascript.modifiers, d ∉ m) ∧ ∀ r ∈ javascript.anchorRules, d ∉ r.keyword :=
      List.all_iff_forall_prop.mp (by decide +kernel)
    have hmethods : ∀ d ∈ javascript.leads, Text.isBlank d = false ∧ isNameStart d = false ∧
        isNamePart d = false ∧ (∀ m ∈ methodModifiers, d ∉ m) ∧ d ≠ '.' ∧ d ≠ '#' :=
      List.all_iff_forall_prop.mp (by decide +kernel)
    have hoperators : ∀ d ∈ javascript.leads, ∀ t ∈ tokens ["=", ":"], d ∉ t :=
      List.all_iff_forall_prop.mp (by decide +kernel)
    intro d hd
    obtain ⟨hblank, hstar, hstart, hpart, hmodifiers, hkeywords⟩ := hwords d hd
    obtain ⟨hanyBlank, hnameStart, hnamePart, hmethod, hdot, hhash⟩ := hmethods d hd
    exact
      { blank := hblank, star := hstar, identStart := hstart, identPart := hpart
        modifiers := hmodifiers, keywords := hkeywords, anyBlank := hanyBlank
        namings := by decide +kernel
        operators := by rintro r ⟨⟩; exact hoperators d hd
        dot := hdot, hash := hhash, nameStart := hnameStart, namePart := hnamePart
        methodModifiers := hmethod }
  separators := List.all_iff_forall_prop.mp (by decide +kernel)

end Grammar

/-- In JavaScript a scan mends the same whether skipping ends with a statement or with a line. -/
theorem scan_mends_alike_of_skipLookahead (registry : Registry) (maxDepth maxBlankLines : Nat)
    (source : List Char) :
    (Setup.scan ⟨.javascript, registry, ⟨maxDepth, maxBlankLines, .statement⟩⟩
        source).diagnostics.filter (·.kind.isRecovery) =
      (Setup.scan ⟨.javascript, registry, ⟨maxDepth, maxBlankLines, .line⟩⟩
        source).diagnostics.filter (·.kind.isRecovery) :=
  Setup.filter_isRecovery_of_legible ⟨.javascript, registry, ⟨maxDepth, maxBlankLines, .statement⟩⟩
    Grammar.javascript_legible registry maxBlankLines .line source

end Marginalia
