import Marginalia.Assembly

/-!
# What the operations of an assembly leave alone

The operations of an assembly are built from a few: changing the innermost open node, reporting,
and taking waiting tags. Each leaves all but one or two fields as they are.
-/

namespace Marginalia.Assembly

variable (a : Assembly)

section MapTop

variable (f : Node → Node)

@[simp] theorem mapTop_source : (a.mapTop f).source = a.source := by
  unfold mapTop; split <;> rfl

@[simp] theorem mapTop_maxBlankLines : (a.mapTop f).maxBlankLines = a.maxBlankLines := by
  unfold mapTop; split <;> rfl

@[simp] theorem mapTop_waiting : (a.mapTop f).waiting = a.waiting := by
  unfold mapTop; split <;> rfl

@[simp] theorem mapTop_unresolved : (a.mapTop f).unresolved = a.unresolved := by
  unfold mapTop; split <;> rfl

@[simp] theorem mapTop_lastAnchor : (a.mapTop f).lastAnchor = a.lastAnchor := by
  unfold mapTop; split <;> rfl

@[simp] theorem mapTop_diagnostics : (a.mapTop f).diagnostics = a.diagnostics := by
  unfold mapTop; split <;> rfl

@[simp] theorem top_mapTop : (a.mapTop f).top = f a.top := by
  unfold mapTop top
  cases a.frames <;> rfl

end MapTop

@[simp] theorem fallBack_waiting (w : Waiting) (why : String) :
    (a.fallBack w why).waiting = a.waiting := by
  simp [fallBack, report]

@[simp] theorem fallBack_source (w : Waiting) (why : String) :
    (a.fallBack w why).source = a.source := by
  simp [fallBack, report]

@[simp] theorem fallBack_maxBlankLines (w : Waiting) (why : String) :
    (a.fallBack w why).maxBlankLines = a.maxBlankLines := by
  simp [fallBack, report]

@[simp] theorem addAnchor_waiting (n : Node) : (a.addAnchor n).waiting = a.waiting := by
  simp [addAnchor]

@[simp] theorem attachEnclosing_waiting (tags : List Tag) :
    (a.attachEnclosing tags).waiting = a.waiting := by
  simp [attachEnclosing]

@[simp] theorem placeFree_waiting (tags : List Tag) (span : Span) :
    (a.placeFree tags span).waiting = a.waiting := by
  unfold placeFree
  dsimp only
  split <;> simp

@[simp] theorem enterBody_waiting (p : Position) : (a.enterBody p).waiting = a.waiting := by
  unfold enterBody
  split
  · rfl
  split
  · rfl
  split
  · rfl
  · simp

@[simp] theorem leaveBody_waiting (stop : Position) : (a.leaveBody stop).waiting = a.waiting := by
  unfold leaveBody
  split
  · rfl
  · simp

/-- Tags that wait at a depth are the latest that wait. -/
theorem waiting_of_waitingAt? {a : Assembly} {d : Nat} {w : Waiting}
    (h : a.waitingAt? d = some w) : w.depth = d ∧ a.waiting = w :: a.dropWaiting.waiting := by
  unfold waitingAt? at h
  cases hw : a.waiting with
  | nil => rw [hw] at h; cases h
  | cons v ws =>
    rw [hw] at h
    simp only [List.head?_cons, Option.filter_eq_some_iff, Option.some.injEq,
      decide_eq_true_eq] at h
    obtain ⟨rfl, hd⟩ := h
    exact ⟨hd, by simp [dropWaiting, hw]⟩

theorem replay_append (es fs : List Event) :
    a.replay (es ++ fs) = (a.replay es).replay fs := List.foldl_append

/-! ## What never changes -/

theorem comment_source (tags : List Tag) (span : Span) (depth : Nat) :
    (a.comment tags span depth).source = a.source ∧
      (a.comment tags span depth).maxBlankLines = a.maxBlankLines := by
  simp only [comment, placeFree, awaitAnchor, attachEnclosing]
  constructor <;> split <;> split <;> simp <;> split <;> simp [dropWaiting]

theorem anchor_source (anchor : Anchor) (depth : Nat) :
    (a.anchor anchor depth).source = a.source ∧
      (a.anchor anchor depth).maxBlankLines = a.maxBlankLines := by
  unfold Assembly.anchor
  split
  · simp [addAnchor]
  · split <;> simp [addAnchor, dropWaiting]

theorem enterBody_source (p : Position) :
    (a.enterBody p).source = a.source ∧ (a.enterBody p).maxBlankLines = a.maxBlankLines := by
  unfold enterBody
  split
  · exact ⟨rfl, rfl⟩
  split
  · exact ⟨rfl, rfl⟩
  split
  · exact ⟨rfl, rfl⟩
  · simp

theorem leaveBody_source (stop : Position) :
    (a.leaveBody stop).source = a.source ∧ (a.leaveBody stop).maxBlankLines = a.maxBlankLines := by
  unfold leaveBody
  split
  · exact ⟨rfl, rfl⟩
  · simp

theorem closeWaiting_source (depth : Nat) (ws : List Waiting) :
    (a.closeWaiting depth ws).source = a.source ∧
      (a.closeWaiting depth ws).maxBlankLines = a.maxBlankLines := by
  fun_induction closeWaiting a depth ws with
  | case1 => exact ⟨rfl, rfl⟩
  | case2 a w ws h ih => exact ih
  | case3 => exact ⟨rfl, rfl⟩

/-- No event changes the source text or the limit on blank lines. -/
theorem apply_source (e : Event) :
    (a.apply e).source = a.source ∧ (a.apply e).maxBlankLines = a.maxBlankLines := by
  cases e with
  | comment tags span depth => exact a.comment_source tags span depth
  | anchor anchor depth => exact a.anchor_source anchor depth
  | bracketOpened | bracketClosed => exact ⟨rfl, rfl⟩
  | bodyEntered p => exact a.enterBody_source p
  | bodyLeft stop => exact a.leaveBody_source stop
  | blockClosed depth => exact a.closeWaiting_source depth _

theorem replay_source (es : List Event) :
    (a.replay es).source = a.source ∧ (a.replay es).maxBlankLines = a.maxBlankLines := by
  induction es generalizing a with
  | nil => exact ⟨rfl, rfl⟩
  | cons e es ih =>
    obtain ⟨hsource, hlimit⟩ := a.apply_source e
    obtain ⟨hrest, hrest'⟩ := ih (a := a.apply e)
    exact ⟨hrest.trans hsource, hrest'.trans hlimit⟩

end Marginalia.Assembly
