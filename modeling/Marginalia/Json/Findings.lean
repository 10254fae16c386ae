import Marginalia.Json.Value
import Marginalia.Outline

/-!
# Findings as JSON

Records are objects with their fields in a fixed order. A choice without anything to it is its
name; an argument is an object with one field, named for how it was read. Readers ignore fields
they do not know.
-/

namespace Marginalia

/-- The member of a list whose name is read. -/
def Json.named? {α : Type} (all : List α) (name : α → String) (j : Json) : Option α :=
  j.plainChoice?.bind fun s => all.find? (name · = s)

/-! ## Names -/

/-- The kinds of diagnostics, by their names. -/
def DiagnosticKind.name : DiagnosticKind → String
  | unknownTag => "UnknownTag"
  | malformedArgument => "MalformedArgument"
  | duplicateTag => "DuplicateTag"
  | unterminatedComment => "UnterminatedComment"
  | unterminatedString => "UnterminatedString"
  | unterminatedBlock => "UnterminatedBlock"
  | unbalancedBlock => "UnbalancedBlock"
  | nestingTooDeep => "NestingTooDeep"
  | unresolvedTag => "UnresolvedTag"

/-- All kinds of diagnostics. -/
def DiagnosticKind.all : List DiagnosticKind :=
  [unknownTag, malformedArgument, duplicateTag, unterminatedComment, unterminatedString,
   unterminatedBlock, unbalancedBlock, nestingTooDeep, unresolvedTag]

/-- The kinds of anchors, by their names. -/
def AnchorKind.name : AnchorKind → String
  | moduleDecl => "Module"
  | classDecl => "Class"
  | functionDecl => "Function"
  | methodDecl => "Method"
  | attributeDecl => "Attribute"
  | unknown => "Unknown"

/-- All kinds of anchors. -/
def AnchorKind.all : List AnchorKind :=
  [moduleDecl, classDecl, functionDecl, methodDecl, attributeDecl, unknown]

/-- The kinds of arguments, by their names. -/
def ArgumentKind.name : ArgumentKind → String
  | string => "String"
  | identifier => "Identifier"
  | typeExpression => "TypeExpression"
  | freeText => "FreeText"

/-- All kinds of arguments. -/
def ArgumentKind.all : List ArgumentKind := [string, identifier, typeExpression, freeText]

/-- The placements, by their names. -/
def Placement.name : Placement → String
  | nextAnchor => "NextAnchor"
  | freeFloating => "FreeFloating"
  | enclosingAnchor => "EnclosingAnchor"

/-- All placements. -/
def Placement.all : List Placement := [nextAnchor, freeFloating, enclosingAnchor]

/-- The multiplicities, by their names. -/
def Multiplicity.name : Multiplicity → String
  | zeroOrOne => "ZeroOrOne"
  | zeroOrMany => "ZeroOrMany"

/-- All multiplicities. -/
def Multiplicity.all : List Multiplicity := [zeroOrOne, zeroOrMany]

/-! ## Positions and spans -/

/-- A position as a record. -/
def Position.toJson (p : Position) : Json :=
  .object [("offset", .natural p.offset), ("line", .natural p.line), ("column", .natural p.column)]

/-- The position that a record writes. -/
def Position.ofJson? (j : Json) : Option Position :=
  match j.record? ["offset", "line", "column"] with
  | some [some offset, some line, some column] => do
    return ⟨← offset.word?, ← line.word?, ← column.word?⟩
  | _ => none

/-- A span as a record. -/
def Span.toJson (s : Span) : Json := .object [("start", s.start.toJson), ("end", s.stop.toJson)]

/-- The span that a record writes. -/
def Span.ofJson? (j : Json) : Option Span :=
  match j.record? ["start", "end"] with
  | some [some start, some stop] => do return ⟨← Position.ofJson? start, ← Position.ofJson? stop⟩
  | _ => none

/-! ## Tags -/

/-- An argument as a choice. -/
def Argument.toJson : Argument → Json
  | parsed slot kind text =>
    .object [("Parsed", .object
      [("slot", .string slot), ("kind", .string kind.name), ("text", .string text)])]
  | raw text => .object [("Raw", .string text)]

/-- The argument that a choice writes. What comes with a choice has its fields by name only. -/
def Argument.ofJson? (j : Json) : Option Argument :=
  match j.choice? with
  | some ("Parsed", some fields) =>
    match fields.fields? ["slot", "kind", "text"] with
    | some [some slot, some kind, some text] => do
      return .parsed (← slot.string?) (← kind.named? ArgumentKind.all ArgumentKind.name)
        (← text.string?)
    | _ => none
  | some ("Raw", some text) => text.string?.map .raw
  | _ => none

/-- A tag as a record. -/
def Tag.toJson (t : Tag) : Json :=
  .object [("name", .string t.name), ("args", .ofList Argument.toJson t.arguments),
    ("body", .string t.body), ("span", t.span.toJson), ("placement", .string t.placement.name),
    ("resolved", .bool t.resolved)]

/-- The tag that a record writes. -/
def Tag.ofJson? (j : Json) : Option Tag :=
  match j.record? ["name", "args", "body", "span", "placement", "resolved"] with
  | some [some name, some arguments, some body, some span, some placement, some resolved] => do
    return ⟨← name.string?, ← arguments.list? Argument.ofJson?, ← body.string?,
      ← Span.ofJson? span, ← placement.named? Placement.all Placement.name, ← resolved.bool?⟩
  | _ => none

/-- A slot as a record. -/
def Slot.toJson (s : Slot) : Json :=
  .object [("name", .string s.name), ("kind", .string s.kind.name), ("optional", .bool s.optional)]

/-- The slot that a record writes. -/
def Slot.ofJson? (j : Json) : Option Slot :=
  match j.record? ["name", "kind", "optional"] with
  | some [some name, some kind, some optional] => do
    return ⟨← name.string?, ← kind.named? ArgumentKind.all ArgumentKind.name, ← optional.bool?⟩
  | _ => none

/-- A tag definition as a record. -/
def TagDefinition.toJson (d : TagDefinition) : Json :=
  .object [("name", .string d.name), ("slots", .ofList Slot.toJson d.slots),
    ("multiplicity", .string d.multiplicity.name), ("placement", .string d.placement.name)]

/-- The tag definition that a record writes. -/
def TagDefinition.ofJson? (j : Json) : Option TagDefinition :=
  match j.record? ["name", "slots", "multiplicity", "placement"] with
  | some [some name, some slots, some multiplicity, some placement] => do
    return ⟨← name.string?, ← slots.list? Slot.ofJson?,
      ← multiplicity.named? Multiplicity.all Multiplicity.name,
      ← placement.named? Placement.all Placement.name⟩
  | _ => none

/-! ## Nodes -/

/-- An anchor as a record. -/
def Anchor.toJson (a : Anchor) : Json :=
  .object [("kind", .string a.kind.name), ("name", .string a.name), ("span", a.span.toJson)]

/-- The anchor that a record writes. -/
def Anchor.ofJson? (j : Json) : Option Anchor :=
  match j.record? ["kind", "name", "span"] with
  | some [some kind, some name, some span] => do
    return ⟨← kind.named? AnchorKind.all AnchorKind.name, ← name.string?, ← Span.ofJson? span⟩
  | _ => none

mutual

/-- A node as a record. -/
def Node.toJson : Node → Json
  | ⟨anchor, tags, children, span⟩ =>
    .object [("anchor", .ofOption Anchor.toJson anchor), ("tags", .ofList Tag.toJson tags),
      ("children", .array (Node.allToJson children)), ("span", span.toJson)]

/-- Nodes as records. -/
def Node.allToJson : List Node → List Json
  | [] => []
  | n :: ns => n.toJson :: Node.allToJson ns

end

mutual

/-- The number of values a value is made of, which bounds how deep a record nests. -/
def Json.size : Json → Nat
  | .array items => 1 + Json.sizeItems items
  | .object fields => 1 + Json.sizeFields fields
  | _ => 1

/-- The size of the items of an array. -/
def Json.sizeItems : List Json → Nat
  | [] => 0
  | j :: js => j.size + Json.sizeItems js

/-- The size of the fields of an object. -/
def Json.sizeFields : List (String × Json) → Nat
  | [] => 0
  | (_, j) :: fields => j.size + Json.sizeFields fields

end

/-- The node that a record writes, if it nests no deeper than `fuel`. -/
def Node.read? : (fuel : Nat) → Json → Option Node
  | 0, _ => none
  | fuel + 1, j =>
    match j.record? ["anchor", "tags", "children", "span"] with
    | some [anchor, some tags, some children, some span] => do
      return ⟨← (anchor.getD .null).optional? Anchor.ofJson?, ← tags.list? Tag.ofJson?,
        ← children.list? (Node.read? fuel), ← Span.ofJson? span⟩
    | _ => none

/-- The node that a record writes. -/
def Node.ofJson? (j : Json) : Option Node := Node.read? j.size j

/-! ## Findings -/

/-- A diagnostic as a record. -/
def Diagnostic.toJson (d : Diagnostic) : Json :=
  .object [("kind", .string d.kind.name), ("span", d.span.toJson), ("message", .string d.message),
    ("recovered", .ofOption .string d.recovered)]

/-- The diagnostic that a record writes. -/
def Diagnostic.ofJson? (j : Json) : Option Diagnostic :=
  match j.record? ["kind", "span", "message", "recovered"] with
  | some [some kind, some span, some message, recovered] => do
    return ⟨← kind.named? DiagnosticKind.all DiagnosticKind.name, ← Span.ofJson? span,
      ← message.string?, ← (recovered.getD .null).optional? Json.string?⟩
  | _ => none

/-- An outline as a record. -/
def Outline.toJson (o : Outline) : Json :=
  .object [("root", o.root.toJson), ("unresolved", .ofList Tag.toJson o.unresolved)]

/-- The outline that a record writes. -/
def Outline.ofJson? (j : Json) : Option Outline :=
  match j.record? ["root", "unresolved"] with
  | some [some root, some unresolved] => do
    return ⟨← Node.ofJson? root, ← unresolved.list? Tag.ofJson?⟩
  | _ => none

/-- Findings as a record. -/
def Findings.toJson (f : Findings) : Json :=
  .object [("tree", f.outline.toJson), ("diagnostics", .ofList Diagnostic.toJson f.diagnostics)]

/-- The findings that a record writes. -/
def Findings.ofJson? (j : Json) : Option Findings :=
  match j.record? ["tree", "diagnostics"] with
  | some [some tree, some diagnostics] => do
    return ⟨← Outline.ofJson? tree, ← diagnostics.list? Diagnostic.ofJson?⟩
  | _ => none

end Marginalia
