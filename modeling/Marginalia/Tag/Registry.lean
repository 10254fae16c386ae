import Marginalia.Diagnostic
import Marginalia.Tag.Definition

/-!
# Registries of tags

A registry holds at most one definition for each name.
-/

namespace Marginalia

/-- The tags that comments may use, in the order they were registered. -/
structure Registry where
  definitions : List TagDefinition := []
deriving DecidableEq, Repr

namespace Registry

/-- The registry without tags. -/
def empty : Registry := {}

/-- The definition registered under a name. -/
def get? (r : Registry) (name : String) : Option TagDefinition :=
  r.definitions.find? (·.name = name)

/-- Add a definition, unless its name is taken. -/
def register (r : Registry) (d : TagDefinition) : Except UsageError Registry :=
  if (r.get? d.name).isSome then .error (.duplicateTag d.name)
  else .ok { definitions := r.definitions ++ [d] }

/-- The registered names in increasing order. -/
def names (r : Registry) : List String :=
  (r.definitions.map (·.name)).mergeSort (fun a b => decide (a ≤ b))

/-- The number of registered tags. -/
def size (r : Registry) : Nat := r.definitions.length

/-- A tag for the next anchor that may repeat the anchor's name. -/
def named (name : String) : TagDefinition :=
  { name, slots := [{ name := "name", kind := .identifier, optional := true }],
    multiplicity := .zeroOrOne, placement := .nextAnchor }

/-- The common documentation tags. -/
def standard : Registry where
  definitions :=
    [{ name := "module", slots := [{ name := "name", kind := .string }],
       multiplicity := .zeroOrOne, placement := .freeFloating },
     named "function", named "method", named "class", named "classmethod",
     { name := "param",
       slots := [{ name := "name", kind := .identifier },
         { name := "type", kind := .typeExpression, optional := true }],
       placement := .nextAnchor },
     { name := "returns", slots := [{ name := "type", kind := .typeExpression, optional := true }],
       multiplicity := .zeroOrOne, placement := .nextAnchor },
     { name := "type", slots := [{ name := "type", kind := .typeExpression }],
       multiplicity := .zeroOrOne, placement := .nextAnchor },
     { name := "example", placement := .nextAnchor },
     { name := "parent", slots := [{ name := "name", kind := .identifier }],
       multiplicity := .zeroOrOne, placement := .nextAnchor },
     { name := "see", slots := [{ name := "target", kind := .freeText }],
       placement := .nextAnchor },
     { name := "deprecated", multiplicity := .zeroOrOne, placement := .nextAnchor },
     { name := "attribute",
       slots := [{ name := "name", kind := .identifier },
         { name := "type", kind := .typeExpression, optional := true }],
       placement := .enclosingAnchor }]

end Registry

end Marginalia
