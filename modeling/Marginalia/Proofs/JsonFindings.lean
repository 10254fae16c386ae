import Marginalia.Document.Format
import Marginalia.Json.Findings
import Marginalia.Proofs.JsonText
import Marginalia.Proofs.Walk
import Mathlib.Data.List.Nodup

/-!
# Findings read back from JSON

A record is written as an object whose names are all different, so each of its fields is found under
its own name. What is written for findings is read as the same findings whenever their positions
fit in words; only words are read as positions.
-/

namespace Marginalia

/-! ## Counts in words -/

/-- The ends of a span fit in words. -/
def Span.InWords (s : Span) : Prop := s.start.InWords ∧ s.stop.InWords

instance (s : Span) : Decidable s.InWords := inferInstanceAs (Decidable (_ ∧ _))

/-- The spans of a node, of its anchor and of its tags. -/
def Node.ownSpans (n : Node) : List Span :=
  n.span :: (n.anchor.map (·.span)).toList ++ n.tags.map (·.span)

/-- All spans in a tree. -/
def Node.spans (n : Node) : List Span := n.nodes.flatMap Node.ownSpans

/-- All spans in findings. -/
def Findings.spans (f : Findings) : List Span :=
  f.outline.root.spans ++ f.outline.unresolved.map (·.span) ++ f.diagnostics.map (·.span)

/-- All counts in findings fit in words. -/
def Findings.InWords (f : Findings) : Prop := ∀ s ∈ f.spans, s.InWords

instance (f : Findings) : Decidable f.InWords := inferInstanceAs (Decidable (∀ s ∈ f.spans, _))

theorem Node.spans_eq (n : Node) : n.spans = n.ownSpans ++ n.children.flatMap spans := by
  rw [spans, nodes_eq, List.flatMap_cons, List.flatMap_assoc]
  rfl

/-! ## Numbers in what is written -/

namespace Json

attribute [simp] IsNatural.null IsNatural.bool IsNatural.natural IsNatural.string

@[simp]
theorem isNatural_array {items : List Json} :
    (array items).IsNatural ↔ ∀ j ∈ items, j.IsNatural :=
  ⟨fun | .array each => each, .array⟩

@[simp]
theorem isNatural_object {fields : List (String × Json)} :
    (object fields).IsNatural ↔ ∀ f ∈ fields, f.2.IsNatural :=
  ⟨fun | .object each => each, .object⟩

theorem isNatural_ofList {α : Type} {write : α → Json} (h : ∀ a, (write a).IsNatural)
    (as : List α) : (ofList write as).IsNatural := by
  rw [ofList, isNatural_array]
  intro j hj
  obtain ⟨a, -, rfl⟩ := List.mem_map.mp hj
  exact h a

theorem isNatural_ofOption {α : Type} {write : α → Json} (h : ∀ a, (write a).IsNatural)
    (o : Option α) : (ofOption write o).IsNatural := by
  cases o with
  | none => exact .null
  | some a => exact h a

end Json

theorem Position.isNatural_toJson (p : Position) : p.toJson.IsNatural := by simp [toJson]

theorem Span.isNatural_toJson (s : Span) : s.toJson.IsNatural := by
  simp [toJson, Position.isNatural_toJson]

theorem Argument.isNatural_toJson (a : Argument) : a.toJson.IsNatural := by
  cases a <;> simp [toJson]

theorem Tag.isNatural_toJson (t : Tag) : t.toJson.IsNatural := by
  simp [toJson, Span.isNatural_toJson, Json.isNatural_ofList Argument.isNatural_toJson]

theorem Anchor.isNatural_toJson (a : Anchor) : a.toJson.IsNatural := by
  simp [toJson, Span.isNatural_toJson]

theorem Diagnostic.isNatural_toJson (d : Diagnostic) : d.toJson.IsNatural := by
  simp [toJson, Span.isNatural_toJson, Json.isNatural_ofOption Json.IsNatural.string]

theorem Node.allToJson_eq_map (ns : List Node) : allToJson ns = ns.map toJson := by
  induction ns with
  | nil => rw [allToJson]; rfl
  | cons n ns ih => rw [allToJson, ih, List.map_cons]

theorem Node.toJson_eq (n : Node) :
    n.toJson = .object [("anchor", .ofOption Anchor.toJson n.anchor),
      ("tags", .ofList Tag.toJson n.tags), ("children", .ofList toJson n.children),
      ("span", n.span.toJson)] := by
  cases n
  rw [toJson, allToJson_eq_map]
  rfl

theorem Node.isNatural_toJson (n : Node) : n.toJson.IsNatural := by
  induction n using induction with
  | h n ih =>
    have hchildren : (Json.ofList toJson n.children).IsNatural := by
      simpa [Json.ofList] using ih
    simp [toJson_eq, Span.isNatural_toJson, hchildren, Json.isNatural_ofList Tag.isNatural_toJson,
      Json.isNatural_ofOption Anchor.isNatural_toJson]

theorem Findings.isNatural_toJson (f : Findings) : f.toJson.IsNatural := by
  simp [toJson, Outline.toJson, Node.isNatural_toJson, Json.isNatural_ofList Tag.isNatural_toJson,
    Json.isNatural_ofList Diagnostic.isNatural_toJson]

/-! ## Records, lists and choices -/

namespace Json

theorem find?_name {fields : List (String × Json)} (h : (fields.map Prod.fst).Nodup)
    {f : String × Json} (hf : f ∈ fields) : fields.find? (·.1 = f.1) = some f := by
  induction fields with
  | nil => cases hf
  | cons g fields ih =>
    rw [List.map_cons, List.nodup_cons] at h
    rcases List.mem_cons.mp hf with rfl | hf
    · exact List.find?_cons_of_pos (decide_eq_true rfl)
    · have hne : g.1 ≠ f.1 := fun heq ↦ h.1 (heq ▸ List.mem_map_of_mem hf)
      rw [List.find?_cons_of_neg (by simpa using hne)]
      exact ih h.2 hf

/-- A field is found under its name if no other field has that name. -/
theorem field?_object {fields : List (String × Json)} (h : (fields.map Prod.fst).Nodup)
    {f : String × Json} (hf : f ∈ fields) : (object fields).field? f.1 = some f.2 := by
  rw [field?, find?_name (by rwa [List.map_reverse, List.nodup_reverse]) (List.mem_reverse.mpr hf),
    Option.map_some]

/-- An object whose names are all different gives its fields back in the order of the names. -/
theorem record?_object {fields : List (String × Json)} (h : (fields.map Prod.fst).Nodup) :
    (object fields).record? (fields.map Prod.fst) = some (fields.map fun f ↦ some f.2) := by
  rw [record?.eq_2, fields?, List.map_map]
  · exact congrArg some (List.map_congr_left fun f hf ↦ field?_object h hf)
  · rintro items ⟨⟩

theorem list?_ofList {α : Type} {read : Json → Option α} {write : α → Json} {as : List α}
    (h : ∀ a ∈ as, read (write a) = some a) : (ofList write as).list? read = some as := by
  rw [list?, ofList, array?, Option.bind_some]
  induction as with
  | nil => rfl
  | cons a as ih =>
    rw [List.map_cons, List.mapM_cons, h a List.mem_cons_self,
      ih fun b hb ↦ h b (List.mem_cons_of_mem _ hb)]
    rfl

theorem optional?_ofOption {α : Type} {read : Json → Option α} {write : α → Json} {o : Option α}
    (hnull : ∀ a, write a ≠ null) (h : ∀ a ∈ o, read (write a) = some a) :
    (ofOption write o).optional? read = some o := by
  cases o with
  | none => rfl
  | some a => rw [ofOption, optional?.eq_2 _ _ (hnull a), h a rfl, Option.map_some]

end Json

@[simp]
theorem DiagnosticKind.named?_name (k : DiagnosticKind) :
    (Json.string k.name).named? all name = some k := by cases k <;> rfl

@[simp]
theorem AnchorKind.named?_name (k : AnchorKind) :
    (Json.string k.name).named? all name = some k := by cases k <;> rfl

@[simp]
theorem ArgumentKind.named?_name (k : ArgumentKind) :
    (Json.string k.name).named? all name = some k := by cases k <;> rfl

@[simp]
theorem Placement.named?_name (p : Placement) :
    (Json.string p.name).named? all name = some p := by cases p <;> rfl

/-! ## What is written is read back -/

theorem Position.ofJson?_toJson {p : Position} (h : p.InWords) : ofJson? p.toJson = some p := by
  have hrecord : p.toJson.record? ["offset", "line", "column"] =
      some [some (.natural p.offset), some (.natural p.line), some (.natural p.column)] :=
    Json.record?_object (by simp)
  simp [ofJson?, hrecord, Json.word?, h.1, h.2.1, h.2.2]

theorem Span.ofJson?_toJson {s : Span} (h : s.InWords) : ofJson? s.toJson = some s := by
  have hrecord : s.toJson.record? ["start", "end"] =
      some [some s.start.toJson, some s.stop.toJson] :=
    Json.record?_object (by simp)
  simp [ofJson?, hrecord, Position.ofJson?_toJson h.1, Position.ofJson?_toJson h.2]

theorem Argument.ofJson?_toJson (a : Argument) : ofJson? a.toJson = some a := by
  cases a with
  | parsed slot kind text =>
    have hrecord : (Json.object [("slot", .string slot), ("kind", .string kind.name),
        ("text", .string text)]).fields? ["slot", "kind", "text"] =
          some [some (.string slot), some (.string kind.name), some (.string text)] :=
      Json.record?_object (by simp)
    simp [ofJson?, toJson, Json.choice?, hrecord, Json.string?]
  | raw text => rfl

theorem Tag.ofJson?_toJson {t : Tag} (h : t.span.InWords) : ofJson? t.toJson = some t := by
  have hrecord : t.toJson.record? ["name", "args", "body", "span", "placement", "resolved"] =
      some [some (.string t.name), some (.ofList Argument.toJson t.arguments),
        some (.string t.body), some t.span.toJson, some (.string t.placement.name),
        some (.bool t.resolved)] :=
    Json.record?_object (by simp)
  simp [ofJson?, hrecord, Json.string?, Json.bool?, Span.ofJson?_toJson h,
    Json.list?_ofList fun a _ ↦ Argument.ofJson?_toJson a]

theorem Anchor.ofJson?_toJson {a : Anchor} (h : a.span.InWords) : ofJson? a.toJson = some a := by
  have hrecord : a.toJson.record? ["kind", "name", "span"] =
      some [some (.string a.kind.name), some (.string a.name), some a.span.toJson] :=
    Json.record?_object (by simp)
  simp [ofJson?, hrecord, Json.string?, Span.ofJson?_toJson h]

theorem Diagnostic.ofJson?_toJson {d : Diagnostic} (h : d.span.InWords) :
    ofJson? d.toJson = some d := by
  have hrecord : d.toJson.record? ["kind", "span", "message", "recovered"] =
      some [some (.string d.kind.name), some d.span.toJson, some (.string d.message),
        some (.ofOption .string d.recovered)] :=
    Json.record?_object (by simp)
  have hrecovered : (Json.ofOption .string d.recovered).optional? Json.string? = some d.recovered :=
    Json.optional?_ofOption (by simp) fun _ _ ↦ rfl
  simp [ofJson?, hrecord, Json.string?, Span.ofJson?_toJson h, hrecovered]

theorem Json.size_le_sizeItems {j : Json} {items : List Json} (h : j ∈ items) :
    j.size ≤ sizeItems items := by
  induction items with
  | nil => cases h
  | cons k items ih =>
    rw [sizeItems]
    rcases List.mem_cons.mp h with rfl | h
    · exact Nat.le_add_right _ _
    · exact Nat.le_add_left_of_le (ih h)

theorem Node.size_toJson_lt {n c : Node} (h : c ∈ n.children) : c.toJson.size < n.toJson.size := by
  have hle := Json.size_le_sizeItems (List.mem_map_of_mem (f := toJson) h)
  rw [toJson_eq n]
  simp only [Json.size, Json.sizeFields, Json.ofList]
  omega

/-- A node is read back wherever its record may nest as deep as it has values. -/
theorem Node.read?_toJson (fuel : Nat) {n : Node} (hfuel : n.toJson.size ≤ fuel)
    (h : ∀ s ∈ n.spans, s.InWords) : read? fuel n.toJson = some n := by
  induction n using induction generalizing fuel with
  | h n ih =>
    obtain ⟨fuel, rfl⟩ : ∃ k, fuel = k + 1 := by
      refine ⟨fuel - 1, ?_⟩
      rw [toJson_eq, Json.size] at hfuel
      omega
    have hrecord : n.toJson.record? ["anchor", "tags", "children", "span"] =
        some [some (.ofOption Anchor.toJson n.anchor), some (.ofList Tag.toJson n.tags),
          some (.ofList toJson n.children), some n.span.toJson] := by
      rw [toJson_eq]
      exact Json.record?_object (by simp)
    rw [spans_eq, ownSpans] at h
    have hanchor : (Json.ofOption Anchor.toJson n.anchor).optional? Anchor.ofJson? =
        some n.anchor :=
      Json.optional?_ofOption (by simp [Anchor.toJson]) fun a ha ↦
        Anchor.ofJson?_toJson (h a.span (by simp [Option.mem_def.mp ha]))
    have htags : (Json.ofList Tag.toJson n.tags).list? Tag.ofJson? = some n.tags :=
      Json.list?_ofList fun t ht ↦ Tag.ofJson?_toJson (h t.span (by simp; grind))
    have hchildren : (Json.ofList toJson n.children).list? (read? fuel) = some n.children := by
      refine Json.list?_ofList fun c hc ↦ ih c hc fuel ?_ fun s hs ↦ h s ?_
      · exact Nat.le_of_lt_succ (Nat.lt_of_lt_of_le (size_toJson_lt hc) hfuel)
      · exact List.mem_append_right _ (List.mem_flatMap.mpr ⟨c, hc, hs⟩)
    have hspan : Span.ofJson? n.span.toJson = some n.span :=
      Span.ofJson?_toJson (h n.span (by simp))
    simp only [read?, hrecord, Option.getD_some, hanchor, htags, hchildren, hspan]
    cases n
    rfl

theorem Findings.ofJson?_toJson {f : Findings} (h : f.InWords) : ofJson? f.toJson = some f := by
  have hrecord : f.toJson.record? ["tree", "diagnostics"] =
      some [some f.outline.toJson, some (.ofList Diagnostic.toJson f.diagnostics)] :=
    Json.record?_object (by simp)
  have htree : f.outline.toJson.record? ["root", "unresolved"] =
      some [some f.outline.root.toJson, some (.ofList Tag.toJson f.outline.unresolved)] :=
    Json.record?_object (by simp)
  have hroot : Node.ofJson? f.outline.root.toJson = some f.outline.root :=
    Node.read?_toJson _ (Nat.le_refl _) fun s hs ↦ h s (by simp [spans, hs])
  have hunresolved : (Json.ofList Tag.toJson f.outline.unresolved).list? Tag.ofJson? =
      some f.outline.unresolved :=
    Json.list?_ofList fun t ht ↦ Tag.ofJson?_toJson (h t.span (by simp [spans]; grind))
  have hdiagnostics : (Json.ofList Diagnostic.toJson f.diagnostics).list? Diagnostic.ofJson? =
      some f.diagnostics :=
    Json.list?_ofList fun d hd ↦ Diagnostic.ofJson?_toJson (h d.span (by simp [spans]; grind))
  simp [ofJson?, hrecord, Outline.ofJson?, htree, hroot, hunresolved, hdiagnostics]

/-- A document in JSON, read as JSON and then as findings, gives the findings it was written for. -/
theorem Findings.ofJson?_parse?_render (file : String) (f : Findings) (h : f.InWords) :
    (Json.parse? (Format.render .json file f).toList).bind ofJson? = some f := by
  have htext : (Format.render .json file f).toList = Json.pretty 0 f.toJson ++ ['\n'] := by
    simp [Format.render]
  rw [htext, Json.parse?_pretty f.isNatural_toJson, Option.bind_some]
  exact ofJson?_toJson h

/-- Findings with quotes, backslashes, control and other characters in their texts, arguments of
both kinds, a nested tree and the largest count. -/
def Findings.sample : Findings :=
  let span : Span := ⟨⟨0, 1, 1⟩, ⟨wordBound - 1, 2, 3⟩⟩
  let tag : Tag :=
    { name := "param"
      arguments := [.parsed "name" .identifier "x\x22y", .raw "a\\b\x01"]
      body := "é\n\t€😀"
      span := span
      placement := .nextAnchor
      resolved := true }
  { outline :=
      { root :=
          { children := [⟨some ⟨.functionDecl, "f", span⟩, [tag], [{ tags := [tag] }], span⟩]
            span := span }
        unresolved := [tag] }
    diagnostics :=
      [⟨.unknownTag, span, "\x1f\x7f", some ""⟩, ⟨.unterminatedBlock, span, "", none⟩] }

theorem Findings.sample_reads_back :
    sample.InWords ∧
      (Json.parse? (Format.render .json "a.js" sample).toList).bind ofJson? = some sample := by
  have h : sample.InWords := by decide
  exact ⟨h, ofJson?_parse?_render "a.js" sample h⟩

end Marginalia
