import Marginalia.Proofs.Positions
import Marginalia.Proofs.Tokens

/-!
# What the names of anchors are made of

Names are read character by character, from a few kinds of characters. Every anchor of an outline
was recognised in the text, and nothing changes its name on the way. So a character of no such kind
stands in no name, unless the grammar reads names between quotes.
-/

namespace Marginalia

/-! ## Names that are read -/

namespace Grammar

/-- A character that no name is made of. -/
structure Foreign (g : Grammar) (d : Char) : Prop where
  identStart : g.isIdentStart d = false
  identPart : g.isIdentPart d = false
  nameStart : isNameStart d = false
  namePart : isNamePart d = false
  hash : d ≠ '#'
  /-- Between quotes everything is a name. -/
  naming : ∀ r ∈ g.anchorRules, r.naming ≠ .quoted

namespace Foreign

variable {g : Grammar} {d : Char} {text rest name : List Char} {r : Recognition}

theorem notMem_ident? {i : List Char} (hd : g.Foreign d) (h : g.ident? text = some i) : d ∉ i := by
  cases text with
  | nil => cases h
  | cons c cs =>
    rw [ident?] at h
    split at h
    · next hc =>
      cases h
      refine List.not_mem_cons_of_ne_of_not_mem ?_ fun hmem ↦ ?_
      · rintro rfl
        rw [hd.identStart] at hc
        cases hc
      · have hpart := List.mem_takeWhile_imp hmem
        rw [hd.identPart] at hpart
        cases hpart
    · cases h

theorem notMem_followingIdent? {kind : AnchorKind} (hd : g.Foreign d)
    (h : g.followingIdent? kind text = some r) : d ∉ r.name := by
  rw [followingIdent?_eq, nameAt] at h
  split at h
  · next i hi =>
    cases h
    exact hd.notMem_ident? hi
  · split at h
    · cases h
      exact List.not_mem_nil
    · cases h

theorem notMem_afterReceiver? {kind : AnchorKind} (hd : g.Foreign d)
    (h : g.afterReceiver? kind text = some r) : d ∉ r.name := by
  unfold afterReceiver? at h
  split at h
  · simp only [Option.bind_eq_bind, Option.bind_eq_some_iff, pure, Option.some.injEq] at h
    obtain ⟨closed, -, i, hi, rfl⟩ := h
    exact hd.notMem_ident? hi
  · exact hd.notMem_followingIdent? h

theorem notMem_keywordAnchor? (hd : g.Foreign d) (h : g.keywordAnchor? text = some r) :
    d ∉ r.name := by
  obtain ⟨rule, hrule, h⟩ := List.exists_of_findSome?_eq_some h
  obtain ⟨rest, -, h⟩ := Option.bind_eq_some_iff.mp h
  unfold ruleName? at h
  split at h
  · exact hd.notMem_followingIdent? h
  · exact hd.notMem_afterReceiver? h
  · next hquoted => exact absurd hquoted (hd.naming rule hrule)

theorem notMem_dottedPath? {fuel : Nat} {qualified qualified' : Bool} (hd : g.Foreign d)
    (h : g.dottedPath? fuel qualified text = some (name, qualified', rest)) : d ∉ name := by
  induction fuel generalizing qualified text with
  | zero => cases h
  | succ fuel ih =>
    unfold dottedPath? at h
    split at h
    · cases h
    · next i hi =>
      split at h
      · exact ih h
      · cases h
        exact hd.notMem_ident? hi

theorem notMem_assignedAnchor? {rule : AssignmentRule} (hd : g.Foreign d)
    (h : g.assignedAnchor? rule text = some r) : d ∉ r.name := by
  unfold assignedAnchor? at h
  simp only [Option.bind_eq_bind, Option.bind_eq_some_iff, pure, Option.some.injEq] at h
  obtain ⟨⟨name, qualified, rest⟩, hpath, value, -, kind, -, rfl⟩ := h
  exact hd.notMem_dottedPath? hpath

theorem notMem_plainName? (hd : g.Foreign d) (h : plainName? text = some (name, rest)) :
    d ∉ name := by
  unfold plainName? at h
  split at h
  · cases h
  · split at h
    · next c cs hc =>
      cases h
      refine List.not_mem_cons_of_ne_of_not_mem ?_ fun hmem ↦ ?_
      · rintro rfl
        simp [hd.nameStart, hd.hash] at hc
      · have hpart := List.mem_takeWhile_imp hmem
        rw [hd.namePart] at hpart
        cases hpart
    · cases h

theorem notMem_methodHead? {fuel : Nat} (hd : g.Foreign d)
    (h : methodHead? fuel text = some (name, rest)) : d ∉ name := by
  induction fuel generalizing text with
  | zero => cases h
  | succ fuel ih =>
    rw [methodHead?_succ] at h
    split at h
    · next found hfound =>
      cases h
      obtain ⟨body, -, hhead⟩ := Option.bind_eq_some_iff.mp hfound
      exact ih hhead
    · rw [methodName?_eq] at h
      exact hd.notMem_plainName? h

theorem notMem_shorthandMethod? (hd : g.Foreign d) (h : shorthandMethod? text = some r) :
    d ∉ r.name := by
  unfold shorthandMethod? at h
  split at h
  · cases h
  · next name rest hhead =>
    split at h
    · cases h
    · cases h
      exact hd.notMem_methodHead? hhead

/-- A foreign character stands in no name that is recognised. -/
theorem notMem_recognise? {enclosing : Option AnchorKind} (hd : g.Foreign d)
    (h : g.recognise? text enclosing = some r) : d ∉ r.name := by
  obtain ⟨found, hfound, rfl⟩ := Option.map_eq_some_iff.mp h
  have hname : d ∉ found.name := by
    rcases Option.or_eq_some_iff.mp hfound with hkey | ⟨-, hrest⟩
    · exact hd.notMem_keywordAnchor? hkey
    rcases Option.or_eq_some_iff.mp hrest with hassigned | ⟨-, hmethod⟩
    · obtain ⟨rule, -, hrule⟩ := Option.bind_eq_some_iff.mp hassigned
      exact hd.notMem_assignedAnchor? hrule
    · split at hmethod
      · exact hd.notMem_shorthandMethod? hmethod
      · cases hmethod
  split
  · exact hname
  · exact hname

end Foreign

end Grammar

/-! ## Anchors that are sent -/

/-- An anchor that a grammar recognises in some text. -/
def Anchor.Recognised (g : Grammar) (x : Anchor) : Prop :=
  ∃ text enclosing r, g.recognise? text enclosing = some r ∧ x.name = String.ofList r.name

namespace Pass

variable {s : Setup} {g : Grammar} {p q r : Pass}

/-- The pass `q` is the pass `p` after events that bring no anchors but recognised ones. -/
def Draws (g : Grammar) (p q : Pass) : Prop :=
  ∃ es : List Event, q.journal = es.reverse ++ p.journal ∧
    ∀ e ∈ es, ∀ x, e.anchor? = some x → x.Recognised g

theorem Draws.of_eq (h : q.journal = p.journal) : Draws g p q :=
  ⟨[], h, List.forall_mem_nil _⟩

theorem Draws.of_none (es : List Event) (h : q.journal = es.reverse ++ p.journal)
    (hes : ∀ e ∈ es, e.anchor? = none) : Draws g p q := by
  refine ⟨es, h, fun e he x hx ↦ ?_⟩
  rw [hes e he] at hx
  cases hx

theorem Draws.trans (h : Draws g p q) (h' : Draws g q r) : Draws g p r := by
  obtain ⟨es, hj, hes⟩ := h
  obtain ⟨fs, hj', hfs⟩ := h'
  refine ⟨es ++ fs, by rw [hj', hj, List.reverse_append, List.append_assoc], fun e he ↦ ?_⟩
  rcases List.mem_append.mp he with he | he
  · exact hes e he
  · exact hfs e he

theorem draws_leaveBodies (indent : Nat) (cs : List Context) (p : Pass) :
    Draws g p (leaveBodies indent cs p) := by
  fun_induction leaveBodies indent cs p with
  | case1 => exact .of_eq rfl
  | case2 opened level outer p hlt q ih =>
    refine Draws.trans (.of_none [.bodyLeft p.lastEnd, .blockClosed outer.length] rfl ?_) ih
    simp [Event.anchor?]
  | case3 => exact .of_eq rfl

theorem draws_atToken (p : Pass) (g : Grammar) : Draws g p (p.atToken g) := by
  unfold atToken dedent
  split
  · split
    · rw [dropStaleBody_eq]
      exact (draws_leaveBodies _ _ { p with lineStart := false }).trans (.of_eq rfl)
    · exact .of_eq rfl
  · exact .of_eq rfl

theorem draws_addAnchor {text : List Char} {enclosing : Option AnchorKind} {found : Recognition}
    (hfound : g.recognise? text enclosing = some found) : Draws g p (p.addAnchor found) := by
  refine ⟨[.anchor _ _], rfl, fun e he x hx ↦ ?_⟩
  rw [List.mem_singleton.mp he] at hx
  cases hx
  exact ⟨text, enclosing, found, hfound, rfl⟩

theorem draws_openBlock (p : Pass) (g : Grammar) (i : Nat) : Draws g p (p.openBlock g i) := by
  have hopened : ∀ q : Pass,
      q.journal = [.bracketOpened i p.cursor.position].reverse ++ p.journal → Draws g p q :=
    fun q hq ↦ .of_none _ hq (by simp [Event.anchor?])
  cases ho : p.nesting.opening with
  | overflowed first =>
    rw [openBlock_of_overflowed ho]
    exact hopened _ rfl
  | entered =>
    cases hb : p.opensBody g i with
    | true =>
      rw [openBlock_of_body ho i hb]
      exact .of_none [.bracketOpened i p.cursor.position, .bodyEntered p.cursor.position] rfl
        (by simp [Event.anchor?])
    | false =>
      rw [openBlock_of_block ho i hb]
      exact hopened _ rfl

theorem draws_closeBlock (p : Pass) (g : Grammar) (i : Nat) : Draws g p (p.closeBlock g i) := by
  have hclosed : Draws g p (p.send [.bracketClosed i p.cursor.position]) :=
    .of_none [.bracketClosed i p.cursor.position] rfl (by simp [Event.anchor?])
  rcases p.closeBlock_cases g i with ⟨-, heq⟩ | ⟨-, -, heq⟩ |
    ⟨-, inner, closed, outer, -, -, -, heq⟩
  · rw [heq]
    exact hclosed.trans (.of_eq rfl)
  · rw [heq]
    exact hclosed.trans (.of_eq rfl)
  · rw [heq, closeThrough_eq]
    exact hclosed.trans (.of_none _ rfl (anchor?_of_mem_closeEvents _ g i inner.length closed))

theorem draws_openIndentBody (p : Pass) (g : Grammar) (opener : List Char) :
    Draws g p (p.openIndentBody opener) := by
  rcases p.openIndentBody_cases opener with ⟨ds, heq, -⟩ | ⟨b, -, -, -, heq⟩
  · rw [heq]
    exact .of_eq rfl
  · rw [heq]
    exact .of_none [.bodyEntered p.cursor.position] rfl (by simp [Event.anchor?])

theorem draws_take {t : Token}
    (ht : ∀ r, t = .anchor r → ∃ text enclosing, g.recognise? text enclosing = some r) :
    Draws g p (p.take g t) := by
  cases t with
  | anchor r =>
    obtain ⟨text, enclosing, hr⟩ := ht r rfl
    exact Draws.trans (.of_eq rfl) (draws_addAnchor hr)
  | opener i => exact draws_openBlock p g i
  | closer i => exact draws_closeBlock p g i
  | indentation opener => exact draws_openIndentBody p g opener
  | newline => rw [take, afterNewline_eq]; exact .of_eq rfl
  | separator text => rw [take, separator, cancelBody_eq]; exact .of_eq rfl
  | plain => rw [take, cancelBody_eq]; exact .of_eq rfl
  | literal i => rw [take, literal_eq]; exact .of_eq rfl
  | blank => exact .of_eq rfl
  | comment form => exact .of_eq rfl
  | regex text => exact .of_eq rfl
  | inner => exact .of_eq rfl

theorem draws_readComment (p : Pass) (g : Grammar) (form : CommentForm) :
    Draws g p (p.readComment g form) := by
  cases form with
  | line i =>
    obtain ⟨_, _, _, h, -⟩ := p.readComment_line_eq g i
    rw [h]
    exact .of_eq rfl
  | block i =>
    rw [readComment, blockComment_eq]
    exact .of_eq rfl

/-- A step brings no anchors but those that the grammar recognises. -/
theorem draws_step (h : step s p = some q) : Draws s.grammar p q := by
  cases step_eq_some_iff.mp h with
  | comment mode => exact draws_readComment p s.grammar _
  | tags mode =>
    rw [placeTags_eq]
    refine .of_none (p.commentEvents s.registry _) rfl fun e he ↦ ?_
    rw [eq_of_mem_commentEvents he]
    rfl
  | newline mode peek => exact draws_take (by simp)
  | blank mode peek inline blank => exact draws_take (by simp)
  | token mode peek blank ahead =>
    refine (draws_atToken p s.grammar).trans (Draws.trans (draws_take ?_) (.of_eq rfl))
    rintro r rfl
    cases ahead with
    | anchor unmarked body separator starts found => exact ⟨_, _, found⟩
  | skip mode peek => exact .of_eq (p.skip_fields s).2

theorem recognised_of_reaches {source : List Char} (h : Reaches (step s) (start s source) p) :
    ∀ e ∈ p.events, ∀ x, e.anchor? = some x → x.Recognised s.grammar := by
  refine h.invariant (P := fun p : Pass ↦ ∀ e ∈ p.events, ∀ x, e.anchor? = some x →
    x.Recognised s.grammar) ?_ (fun e he ↦ by cases he)
  intro p q hp hpq e he
  obtain ⟨es, hjournal, hes⟩ := draws_step hpq
  rw [events, hjournal, List.mem_reverse, List.mem_append, List.mem_reverse] at he
  rcases he with he | he
  · exact hes e he
  · exact hp e (List.mem_reverse.mpr he)

end Pass

/-- Every anchor that a scan sends to the outline was recognised. -/
theorem Setup.recognised_of_mem_events (s : Setup) (source : List Char) :
    ∀ e ∈ s.events source, ∀ x, e.anchor? = some x → x.Recognised s.grammar := by
  intro e he
  rw [events_eq, List.mem_append] at he
  rcases he with he | he
  · exact Pass.recognised_of_reaches (Pass.reaches_run s (Pass.start s source)) e he
  · intro x hx
    obtain ⟨c, -, hc⟩ := List.mem_flatMap.mp he
    obtain rfl | rfl := Context.eq_of_mem_leaving hc
    · cases hx
    · cases hx

/-! ## Anchors in the outline -/

/-- A tree all of whose anchors have a property. -/
def Node.Bears (P : Anchor → Prop) (n : Node) : Prop :=
  ∀ m ∈ n.nodes, ∀ x, m.anchor = some x → P x

namespace Node

variable {P : Anchor → Prop} {n m : Node}

theorem bears_iff : n.Bears P ↔
    (∀ x, n.anchor = some x → P x) ∧ ∀ c ∈ n.children, c.Bears P := by
  unfold Bears
  rw [nodes_eq]
  simp only [List.mem_cons, List.mem_flatMap, forall_eq_or_imp, forall_exists_index, and_imp]
  exact and_congr_right fun _ ↦ ⟨fun h c hc m hm ↦ h m c hc hm, fun h m c hc hm ↦ h c hc m hm⟩

theorem bears_floating (tags : List Tag) (span : Span) : Bears P { tags, span } :=
  bears_iff.mpr ⟨fun _ h ↦ (by cases h), List.forall_mem_nil _⟩

theorem bears_anchor {x : Anchor} (hx : P x) (tags : List Tag) :
    Bears P { Node.ofAnchor x with tags } :=
  bears_iff.mpr ⟨fun _ h ↦ (by cases h; exact hx), List.forall_mem_nil _⟩

theorem Bears.of_children (h : n.Bears P) (hanchor : m.anchor = n.anchor)
    (hchildren : ∀ c ∈ m.children, c ∈ n.children ∨ c.Bears P) : m.Bears P := by
  obtain ⟨hn, hc⟩ := bears_iff.mp h
  refine bears_iff.mpr ⟨fun x hx ↦ hn x (hanchor ▸ hx), fun c hm ↦ ?_⟩
  rcases hchildren c hm with hm | hm
  · exact hc c hm
  · exact hm

theorem Bears.insert (h : n.Bears P) (hm : m.Bears P) : (n.insert m).Bears P := by
  refine h.of_children rfl fun c hc ↦ ?_
  rcases List.mem_cons.mp ((insert_children_perm n m).mem_iff.mp hc) with rfl | hc
  · exact .inr hm
  · exact .inl hc

end Node

namespace Assembly

variable {P : Anchor → Prop} {a b : Assembly}

/-- All anchors of an outline in the making have a property. -/
def Bears (P : Anchor → Prop) (a : Assembly) : Prop := ∀ n ∈ a.openNodes, n.Bears P

namespace Bears

theorem of_eq (h : a.Bears P) (hroot : b.root = a.root) (hframes : b.frames = a.frames) :
    b.Bears P := by
  rwa [Bears, openNodes, hroot, hframes]

theorem top (h : a.Bears P) : a.top.Bears P := h _ (a.openNodes_eq ▸ List.mem_cons_self)

theorem mapTop (h : a.Bears P) {f : Node → Node} (hf : (f a.top).Bears P) :
    (a.mapTop f).Bears P := by
  intro n hn
  rw [openNodes_mapTop, List.mem_cons] at hn
  rcases hn with rfl | hn
  · exact hf
  · exact h n (List.mem_of_mem_tail hn)

theorem insert (h : a.Bears P) {n : Node} (hn : n.Bears P) : (a.mapTop (·.insert n)).Bears P :=
  h.mapTop (h.top.insert hn)

theorem comment (h : a.Bears P) (tags : List Tag) (span : Span) (depth : Nat) :
    (a.comment tags span depth).Bears P := by
  refine comment_induction (P := Bears P) ?_ ?_ ?_ ?_ h
  · exact fun b c hroot hframes _ hb ↦ hb.of_eq hroot hframes
  · exact fun b ts hb ↦ hb.mapTop (hb.top.of_children rfl fun c hc ↦ .inl hc)
  · exact fun b old _ hb ↦ hb.insert (Node.bears_floating _ _)
  · exact fun b ts _ _ hb ↦ hb.insert (Node.bears_floating _ _)

theorem anchor (h : a.Bears P) {x : Anchor} (hx : P x) (depth : Nat) :
    (a.anchor x depth).Bears P := by
  unfold Assembly.anchor
  split
  · exact h.insert (Node.bears_anchor hx [])
  · next w hw =>
    split
    · refine Bears.insert (Bears.insert ?_ (Node.bears_floating _ _)) (Node.bears_anchor hx [])
      exact h.of_eq rfl rfl
    · exact Bears.insert (a := a.dropWaiting) (h.of_eq rfl rfl) (Node.bears_anchor hx _)

theorem enterBody (h : a.Bears P) (p : Position) : (a.enterBody p).Bears P := by
  unfold Assembly.enterBody
  split
  · exact h
  rename_i slot _
  split
  · exact h
  · next n hn =>
    split
    · exact h
    intro m hm
    rcases List.mem_cons.mp hm with rfl | hm
    · have hn' := (Node.bears_iff.mp h.top).2 n (List.mem_of_getElem? hn)
      exact hn'.of_children rfl fun c hc ↦ .inl hc
    · refine h.mapTop (f := fun t ↦ { t with children := t.children.eraseIdx slot }) ?_ m hm
      exact h.top.of_children rfl fun c hc ↦ .inl (List.mem_of_mem_eraseIdx hc)

theorem leaveBody (h : a.Bears P) (stop : Position) : (a.leaveBody stop).Bears P := by
  unfold Assembly.leaveBody
  split
  · exact h
  · next f frames hframes =>
    have hf : f.node.Bears P := h _ (by simp [openNodes, hframes])
    have houter : { a with frames }.Bears P := by
      intro n hn
      exact h n (by rw [openNodes, hframes]; exact List.mem_cons_of_mem _ hn)
    refine houter.mapTop (houter.top.of_children rfl fun c hc ↦ ?_)
    rcases List.mem_append.mp hc with hc | hc
    · exact .inl (List.mem_of_mem_take hc)
    · rcases List.mem_cons.mp hc with rfl | hc
      · exact .inr (hf.of_children rfl fun c hc ↦ .inl hc)
      · exact .inl (List.mem_of_mem_drop hc)

theorem apply (h : a.Bears P) {e : Event} (he : ∀ x, e.anchor? = some x → P x) :
    (a.apply e).Bears P := by
  cases e with
  | comment tags span depth => exact h.comment tags span depth
  | anchor x depth => exact h.anchor (he x rfl) depth
  | bracketOpened pair position => exact h
  | bracketClosed pair position => exact h
  | bodyEntered p => exact h.enterBody p
  | bodyLeft stop => exact h.leaveBody stop
  | blockClosed depth =>
    obtain ⟨-, hroot, hframes, -⟩ := closeWaiting_fields a depth a.waiting
    exact h.of_eq hroot hframes

theorem replay (h : a.Bears P) {es : List Event}
    (hes : ∀ e ∈ es, ∀ x, e.anchor? = some x → P x) : (a.replay es).Bears P := by
  induction es generalizing a with
  | nil => exact h
  | cons e es ih =>
    obtain ⟨he, hes⟩ := List.forall_mem_cons.mp hes
    exact ih (h.apply he) hes

theorem finish (h : a.Bears P) (stop : Position) : (a.finish stop).outline.root.Bears P := by
  have hwaiting : ∀ (ws : List Waiting) (b : Assembly), b.Bears P →
      (ws.foldl (·.giveUp · "no anchor before end of input") b).Bears P := by
    intro ws
    induction ws with
    | nil => exact fun b hb ↦ hb
    | cons w ws ih => exact fun b hb ↦ ih _ (hb.of_eq rfl rfl)
  have hbodies : ∀ (n : Nat) (b : Assembly), b.Bears P →
      (Nat.repeat (·.leaveBody stop) n b).Bears P := by
    intro n
    induction n with
    | zero => exact fun b hb ↦ hb
    | succ n ih => exact fun b hb ↦ (ih b hb).leaveBody stop
  have hend : a.endWaiting.Bears P := (hwaiting a.waiting a h).of_eq rfl rfl
  have hroot := hbodies a.endWaiting.frames.length a.endWaiting hend
    (a.endWaiting.endBodies stop).root (List.mem_append_right _ (List.mem_singleton_self _))
  exact hroot.of_children rfl fun c hc ↦ .inl hc

end Bears

end Assembly

/-- Every anchor of an outline was recognised in the text. -/
theorem Setup.bears_recognised (s : Setup) (source : List Char) :
    (s.scan source).outline.root.Bears (·.Recognised s.grammar) := by
  rw [s.scan_eq source]
  refine Assembly.Bears.finish (Assembly.Bears.replay ?_ (s.recognised_of_mem_events source)) _
  intro n hn
  rw [List.mem_singleton.mp hn]
  exact Node.bears_floating [] _

end Marginalia
