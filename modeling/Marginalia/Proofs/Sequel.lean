import Marginalia.Proofs.Fields
import Marginalia.Proofs.Locality
import Marginalia.Scan.Literal

/-!
# What a text shows of the text after it

The outline reads the text up to the anchors that it holds, so text that comes after them changes
nothing in it. A literal sees what comes after the text only if it has no closer in it: it goes on
into that, except where the end of its line stops it, and then it may be reported otherwise.
-/

namespace Marginalia

namespace Text

/-- Bytes that are dropped from a text do not reach what is added after it. -/
theorem dropBytes?_append_of_le {n : Nat} {s : List Char} (h : n ≤ byteSize s) (more : List Char) :
    dropBytes? n (s ++ more) = (dropBytes? n s).map (· ++ more) := by
  induction s generalizing n with
  | nil =>
    rw [byteSize_nil] at h
    rw [Nat.le_zero.mp h]
    cases more <;> rfl
  | cons c cs ih =>
    cases n with
    | zero => rfl
    | succ n =>
      rw [byteSize_cons] at h
      simp only [List.cons_append, dropBytes?]
      split
      · exact ih (by omega)
      · rfl

theorem takeBytes?_append_of_le {n : Nat} {s : List Char} (h : n ≤ byteSize s) (more : List Char) :
    takeBytes? n (s ++ more) = takeBytes? n s := by
  induction s generalizing n with
  | nil =>
    rw [byteSize_nil] at h
    rw [Nat.le_zero.mp h]
    cases more <;> rfl
  | cons c cs ih =>
    cases n with
    | zero => rfl
    | succ n =>
      rw [byteSize_cons] at h
      simp only [List.cons_append, takeBytes?]
      split
      · rw [ih (by omega)]
      · rfl

theorem byteSize_of_dropBytes? {n : Nat} {s r : List Char} (h : dropBytes? n s = some r) :
    n + byteSize r = byteSize s := by
  induction s generalizing n with
  | nil =>
    cases n with
    | zero => cases h; simp
    | succ n => cases h
  | cons c cs ih =>
    cases n with
    | zero => cases h; simp
    | succ n =>
      rw [dropBytes?] at h
      split at h
      · have := ih h
        rw [byteSize_cons]
        omega
      · cases h

/-- A slice of a text is the same when more text comes after it. -/
theorem slice?_append_of_le {i j : Nat} {s : List Char} (h : j ≤ byteSize s) (more : List Char) :
    slice? (s ++ more) i j = slice? s i j := by
  unfold slice?
  split
  · rename_i hij
    rw [dropBytes?_append_of_le (hij.trans h)]
    cases hr : dropBytes? i s with
    | none => rfl
    | some r =>
      have hsize := byteSize_of_dropBytes? hr
      exact takeBytes?_append_of_le (by omega) more
  · rfl

end Text

/-- An event whose anchor, if it is one, starts no later than a text ends. -/
def Event.StartsBy (size : Nat) : Event → Prop
  | .anchor a _ => a.span.start.offset ≤ size
  | .comment _ _ _ | .bracketOpened _ _ | .bracketClosed _ _ | .bodyEntered _ | .bodyLeft _
  | .blockClosed _ => True

namespace Assembly

variable {a : Assembly}

/-- The assembly of the text with more text after it. -/
def extend (more : List Char) (a : Assembly) : Assembly := { a with source := a.source ++ more }

theorem extend_mapTop (more : List Char) (a : Assembly) (f : Node → Node) :
    (a.extend more).mapTop f = (a.mapTop f).extend more := by
  unfold mapTop extend
  cases a.frames <;> rfl

theorem extend_fallBack (more : List Char) (a : Assembly) (w : Waiting) (why : String) :
    (a.extend more).fallBack w why = (a.fallBack w why).extend more :=
  extend_mapTop more (a.report w.tags why) _

theorem extend_comment (more : List Char) (a : Assembly) (tags : List Tag) (span : Span)
    (depth : Nat) :
    (a.extend more).comment tags span depth = (a.comment tags span depth).extend more := by
  have hawait : ∀ b : Assembly,
      (b.extend more).awaitAnchor tags span depth = (b.awaitAnchor tags span depth).extend more := by
    intro b
    unfold awaitAnchor
    dsimp only
    rw [show (b.extend more).waitingAt? depth = b.waitingAt? depth from rfl]
    split
    · rfl
    · cases b.waitingAt? depth with
      | none => rfl
      | some old =>
        dsimp only
        rw [show (b.extend more).dropWaiting = b.dropWaiting.extend more from rfl, extend_fallBack]
        rfl
  have hfree : ∀ b : Assembly,
      (b.extend more).placeFree tags span = (b.placeFree tags span).extend more := by
    intro b
    unfold placeFree
    dsimp only
    split
    · rfl
    · exact extend_mapTop more b _
  have hattach : (a.extend more).attachEnclosing tags = (a.attachEnclosing tags).extend more := by
    unfold attachEnclosing
    exact extend_mapTop more a _
  unfold comment
  rw [hattach, hawait, hfree]

theorem extend_addAnchor (more : List Char) (a : Assembly) (n : Node) :
    (a.extend more).addAnchor n = (a.addAnchor n).extend more := by
  unfold addAnchor
  rw [extend_mapTop]
  rfl

/-- Only an anchor after the end of the text would see what comes after. -/
theorem extend_anchor (more : List Char) {anchor : Anchor} (depth : Nat)
    (h : anchor.span.start.offset ≤ Text.byteSize a.source) :
    (a.extend more).anchor anchor depth = (a.anchor anchor depth).extend more := by
  unfold Assembly.anchor
  rw [show (a.extend more).waitingAt? depth = a.waitingAt? depth from rfl]
  cases a.waitingAt? depth with
  | none => exact extend_addAnchor more a _
  | some w =>
    have hblank : (a.extend more).blankLinesBetween w.comment anchor.span.start =
        a.blankLinesBetween w.comment anchor.span.start := by
      unfold blankLinesBetween
      rw [← Text.slice?_append_of_le h more]
      rfl
    dsimp only
    rw [hblank, show (a.extend more).dropWaiting = a.dropWaiting.extend more from rfl,
      show (a.extend more).maxBlankLines = a.maxBlankLines from rfl]
    split
    · rw [extend_fallBack, extend_addAnchor]
    · rw [extend_addAnchor]

theorem extend_enterBody (more : List Char) (a : Assembly) (p : Position) :
    (a.extend more).enterBody p = (a.enterBody p).extend more := by
  unfold enterBody
  rw [show (a.extend more).lastAnchor = a.lastAnchor from rfl]
  cases a.lastAnchor with
  | none => rfl
  | some slot =>
    dsimp only
    rw [show (a.extend more).top = a.top from rfl]
    cases a.top.children[slot]? with
    | none => rfl
    | some n =>
      dsimp only
      split
      · rfl
      · rw [extend_mapTop]
        rfl

theorem extend_leaveBody (more : List Char) (a : Assembly) (stop : Position) :
    (a.extend more).leaveBody stop = (a.leaveBody stop).extend more := by
  unfold leaveBody
  rw [show (a.extend more).frames = a.frames from rfl]
  cases a.frames with
  | nil => rfl
  | cons f frames =>
    dsimp only
    rw [show { a.extend more with frames } = ({ a with frames } : Assembly).extend more from rfl,
      extend_mapTop]
    rfl

theorem extend_closeWaiting (more : List Char) (a : Assembly) (depth : Nat) (ws : List Waiting) :
    (a.extend more).closeWaiting depth ws = (a.closeWaiting depth ws).extend more := by
  induction ws generalizing a with
  | nil => rfl
  | cons w ws ih =>
    unfold closeWaiting
    split
    · exact ih (a.giveUp w _)
    · rfl

theorem extend_apply (more : List Char) {e : Event} (h : e.StartsBy (Text.byteSize a.source)) :
    (a.extend more).apply e = (a.apply e).extend more := by
  cases e with
  | comment tags span depth => exact extend_comment more a tags span depth
  | anchor anchor depth => exact extend_anchor more depth h
  | bracketOpened pair position => rfl
  | bracketClosed pair position => rfl
  | bodyEntered p => exact extend_enterBody more a p
  | bodyLeft stop => exact extend_leaveBody more a stop
  | blockClosed depth => exact extend_closeWaiting more a depth a.waiting

theorem extend_replay (more : List Char) {es : List Event}
    (h : ∀ e ∈ es, e.StartsBy (Text.byteSize a.source)) :
    (a.extend more).replay es = (a.replay es).extend more := by
  induction es generalizing a with
  | nil => rfl
  | cons e es ih =>
    have he := h e List.mem_cons_self
    rw [replay, List.foldl_cons, extend_apply more he, ← replay]
    refine ih fun f hf ↦ ?_
    rw [(a.apply_source e).1]
    exact h f (List.mem_cons_of_mem _ hf)

end Assembly

/-! ## What shows what comes after -/

namespace Diagnostic

/-- A string literal that reaches the end of the text reaches the end of its line if a newline
comes after the text. -/
def beforeNewline (d : Diagnostic) : Diagnostic :=
  if d.kind = .unterminatedString ∧ d.message = "string literal reaches end of input" then
    { d with message := "string literal reaches end of line" }
  else d

/-- A diagnostic of a text when more text comes after it. -/
def followedBy (text more : List Char) (d : Diagnostic) : Diagnostic :=
  if ['\\', '\n'] <:+ text ∧ more.head? = some '\n' then d.beforeNewline else d

variable {text more : List Char} {d : Diagnostic}

@[simp]
theorem followedBy_span : (d.followedBy text more).span = d.span := by
  unfold followedBy beforeNewline
  split
  · split <;> rfl
  · rfl

theorem followedBy_of_kind_ne (h : d.kind ≠ .unterminatedString) :
    d.followedBy text more = d := by
  unfold followedBy beforeNewline
  split
  · rw [if_neg fun hd ↦ h hd.1]
  · rfl

theorem followedBy_of_message_ne (h : d.message ≠ "string literal reaches end of input") :
    d.followedBy text more = d := by
  unfold followedBy beforeNewline
  split
  · rw [if_neg fun hd ↦ h hd.2]
  · rfl

end Diagnostic

/-! ## Literals -/

namespace StringDelimiter

variable {d : StringDelimiter} {s more : List Char}

theorem tail_of_escape {c c' : Char} {cs : List Char} (h : d.escape = some c) :
    d.tail (c :: c' :: cs) = ((d.tail cs).1 + 2, (d.tail cs).2) := by
  simp [tail, h]

theorem tail_of_not_escape {c : Char} {cs : List Char} (h : d.escape ≠ some c) :
    d.tail (c :: cs) =
      if !d.closer.isEmpty && d.closer.isPrefixOf (c :: cs) then (d.closer.length, .closed)
      else if c = '\n' && !d.multiline then (0, .endOfLine)
      else ((d.tail cs).1 + 1, (d.tail cs).2) := by
  rw [tail.eq_def]
  dsimp only
  rw [if_neg h]

/-- A literal that ends at once ends before a newline. -/
theorem tail_of_zero (hmore : more ≠ []) (h : (d.tail more).1 = 0) :
    (d.tail more).2 = .endOfLine ∧ more.head? = some '\n' ∧ d.multiline = false := by
  cases more with
  | nil => exact absurd rfl hmore
  | cons c cs =>
    by_cases hescape : d.escape = some c
    · cases cs with
      | nil => simp [tail, hescape] at h
      | cons c' cs => simp [tail_of_escape hescape] at h
    · rw [tail_of_not_escape hescape] at h ⊢
      split at h
      · rename_i hclose
        simp [List.length_eq_zero_iff.mp h] at hclose
      rename_i hclose
      split at h
      · rename_i hline
        rw [if_neg hclose, if_pos hline]
        simpa using hline
      · cases h

/-- A closer that lies before the text after a line is there without that text. -/
theorem not_closer_append {c : Char} {cs : List Char} (hescape : d.escape ≠ some c)
    (hclose : ¬(!d.closer.isEmpty && d.closer.isPrefixOf (c :: cs)) = true)
    (hfit : (d.tail (c :: (cs ++ more))).1 ≤ (c :: cs).length) :
    ¬(!d.closer.isEmpty && d.closer.isPrefixOf (c :: (cs ++ more))) = true := by
  intro hclose'
  rw [tail_of_not_escape hescape, if_pos hclose'] at hfit
  simp only [Bool.and_eq_true, List.isPrefixOf_iff_prefix] at hclose hclose'
  refine hclose ⟨hclose'.1, ?_⟩
  exact List.prefix_of_prefix_length_le hclose'.2 (List.prefix_append (c :: cs) more) hfit

theorem escape_eq {c : Char} (hd : d.escape = none ∨ d.escape = some '\\') (h : d.escape = some c) :
    c = '\\' := by
  rcases hd with hd | hd
  · rw [hd] at h
    cases h
  · rw [hd] at h
    exact (Option.some.inj h).symm

/-- A literal has the same length with and without more text after its own. It ends in the same way
too, unless its text ends with an escaped newline and more text starts with another one. -/
def EndsAlike (d : StringDelimiter) (more s : List Char) : Prop :=
  (d.tail (s ++ more)).1 = (d.tail s).1 ∧
    ((d.tail (s ++ more)).2 = (d.tail s).2 ∨
      (d.tail s).2 = .endOfInput ∧ (d.tail (s ++ more)).2 = .endOfLine ∧
        ['\\', '\n'] <:+ s ∧ more.head? = some '\n')

namespace EndsAlike

theorem of_escaped_newline (hescape : d.escape = some '\\') (hmore : more ≠ [])
    (hzero : (d.tail more).1 = 0) : d.EndsAlike more ['\\', '\n'] := by
  obtain ⟨hend, hnl, -⟩ := tail_of_zero hmore hzero
  have hwith : d.tail (['\\', '\n'] ++ more) = (2, .endOfLine) := by
    rw [List.cons_append, List.cons_append, tail_of_escape hescape, List.nil_append, hzero, hend]
  have hwithout : d.tail ['\\', '\n'] = (2, .endOfInput) := by
    rw [tail_of_escape hescape]
    rfl
  unfold EndsAlike
  rw [hwith, hwithout]
  exact ⟨rfl, .inr ⟨rfl, rfl, List.suffix_refl _, hnl⟩⟩

/-- What the literal goes through first counts the same in front of either text. -/
theorem of_rest {k : Nat} {cs : List Char} (hrest : d.EndsAlike more cs) (front : List Char)
    (h : d.tail (front ++ cs) = ((d.tail cs).1 + k, (d.tail cs).2))
    (h' : d.tail (front ++ (cs ++ more)) =
      ((d.tail (cs ++ more)).1 + k, (d.tail (cs ++ more)).2)) :
    d.EndsAlike more (front ++ cs) := by
  obtain ⟨hlen, hstop⟩ := hrest
  unfold EndsAlike
  rw [List.append_assoc, h, h']
  refine ⟨by dsimp only; rw [hlen], hstop.imp_right ?_⟩
  rintro ⟨hin, hline, hsuffix, hnl⟩
  exact ⟨hin, hline, hsuffix.trans (List.suffix_append front cs), hnl⟩

theorem of_closer {c : Char} {cs : List Char} (hescape : d.escape ≠ some c)
    (hclose : (!d.closer.isEmpty && d.closer.isPrefixOf (c :: cs)) = true) :
    d.EndsAlike more (c :: cs) := by
  have hclose' : (!d.closer.isEmpty && d.closer.isPrefixOf (c :: (cs ++ more))) = true := by
    simp only [Bool.and_eq_true, List.isPrefixOf_iff_prefix] at hclose ⊢
    exact ⟨hclose.1, hclose.2.trans (List.prefix_append (c :: cs) more)⟩
  unfold EndsAlike
  rw [List.cons_append, tail_of_not_escape hescape, tail_of_not_escape hescape, if_pos hclose,
    if_pos hclose']
  exact ⟨rfl, .inl rfl⟩

/-- A newline ends the literal, unless a closer starts there in either text. -/
theorem of_newline {c : Char} {cs : List Char} (hescape : d.escape ≠ some c)
    (hclose : ¬(!d.closer.isEmpty && d.closer.isPrefixOf (c :: cs)) = true)
    (hclose' : ¬(!d.closer.isEmpty && d.closer.isPrefixOf (c :: (cs ++ more))) = true)
    (hline : (c = '\n' && !d.multiline) = true) : d.EndsAlike more (c :: cs) := by
  unfold EndsAlike
  rw [List.cons_append, tail_of_not_escape hescape, tail_of_not_escape hescape, if_neg hclose,
    if_neg hclose', if_pos hline, if_pos hline]
  exact ⟨rfl, .inl rfl⟩

end EndsAlike

/-- A literal that ends before the text after a line ends alike without that text. -/
theorem tail_append (hd : d.escape = none ∨ d.escape = some '\\') (hs : Text.EndsLine s)
    (hmore : more ≠ []) (hfit : (d.tail (s ++ more)).1 ≤ s.length) : d.EndsAlike more s := by
  revert hs hfit
  fun_induction StringDelimiter.tail d s with
  | case1 => exact fun hs ↦ absurd rfl hs.ne_nil
  | case2 c hescape =>
    intro hs
    have hc : c = '\n' := by simpa [Text.EndsLine] using hs
    exact absurd (hc.symm.trans (escape_eq hd hescape)) (by decide)
  | case3 c hescape c' cs n stop htail ih =>
    intro hs hfit
    rw [List.cons_append, List.cons_append, tail_of_escape hescape, List.length_cons,
      List.length_cons] at hfit
    have hle : (d.tail (cs ++ more)).1 ≤ cs.length := Nat.le_of_add_le_add_right hfit
    by_cases hcs : cs = []
    · -- the escaped character is the last one, so it is the newline
      subst hcs
      obtain rfl : c' = '\n' := by simpa [Text.EndsLine] using hs
      obtain rfl := escape_eq hd hescape
      exact .of_escaped_newline hescape hmore (Nat.le_zero.mp hle)
    · have hends : Text.EndsLine cs := hs.of_suffix (List.suffix_append [c, c'] cs) hcs
      exact (ih hends hle).of_rest [c, c'] (tail_of_escape hescape) (tail_of_escape hescape)
  | case4 c cs hescape hclose => exact fun _ _ ↦ .of_closer hescape hclose
  | case5 c cs hescape hclose hline =>
    exact fun _ hfit ↦ .of_newline hescape hclose (not_closer_append hescape hclose hfit) hline
  | case6 c cs hescape hclose hline n stop htail ih =>
    intro hs hfit
    have hclose' := not_closer_append hescape hclose hfit
    have hwithout : d.tail (c :: cs) = _ := tail_of_not_escape hescape
    have hwith : d.tail (c :: (cs ++ more)) = _ := tail_of_not_escape hescape
    rw [if_neg hclose, if_neg hline] at hwithout
    rw [if_neg hclose', if_neg hline] at hwith
    rw [List.cons_append, hwith] at hfit
    have hle : (d.tail (cs ++ more)).1 ≤ cs.length := Nat.le_of_succ_le_succ hfit
    by_cases hcs : cs = []
    · -- a newline that is passed over belongs to a multiline literal, which goes on after it
      subst hcs
      have hc : c = '\n' := by simpa [Text.EndsLine] using hs
      obtain ⟨-, -, hsingle⟩ := tail_of_zero hmore (Nat.le_zero.mp hle)
      simp [hc, hsingle] at hline
    · exact (ih (hs.of_suffix (List.suffix_cons c cs) hcs) hle).of_rest [c] hwithout hwith

end StringDelimiter

end Marginalia
