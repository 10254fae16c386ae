/-!
# Tag definitions

What a tag is called, which arguments it takes, how often it may stand in one comment, and where
it belongs in the outline.
-/

namespace Marginalia

/-- What an argument has to look like. -/
inductive ArgumentKind where
  /-- One word, or a quoted text without its quotes. -/
  | string
  /-- A path of identifiers joined by dots. -/
  | identifier
  /-- A type, kept as it is written. -/
  | typeExpression
  /-- The rest of the header line. -/
  | freeText
deriving DecidableEq, Repr

/-- A place for one argument. -/
structure Slot where
  name : String
  kind : ArgumentKind
  optional : Bool := false
deriving DecidableEq, Repr

/-- How often a tag may stand in one comment. -/
inductive Multiplicity where
  | zeroOrOne
  | zeroOrMany
deriving DecidableEq, Repr

/-- Where a tag belongs in the outline. -/
inductive Placement where
  /-- On the next anchor at the depth of the comment. -/
  | nextAnchor
  /-- In the enclosing body, on no anchor. -/
  | freeFloating
  /-- On the anchor whose body encloses the comment. -/
  | enclosingAnchor
deriving DecidableEq, Repr

/-- A tag that comments may use. -/
structure TagDefinition where
  /-- The name after the at sign; case matters. -/
  name : String
  slots : List Slot := []
  multiplicity : Multiplicity := .zeroOrMany
  placement : Placement
deriving DecidableEq, Repr

/-- The number of slots that have to be filled. -/
def TagDefinition.requiredArity (d : TagDefinition) : Nat := d.slots.countP (!·.optional)

end Marginalia
