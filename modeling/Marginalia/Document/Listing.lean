import Marginalia.Outline
import Marginalia.Text.Blank

/-!
# Listings

An indented list of the nodes of an outline and their tags, one a line.
-/

namespace Marginalia.Listing

/-- Two spaces a level. -/
def indent (depth : Nat) : String := String.ofList (List.replicate (2 * depth) ' ')

/-- A tag on one line. -/
def tagLine (depth : Nat) (t : Tag) : String :=
  let body := Text.unwords (Text.words t.body.toList)
  indent depth ++ t.header ++ (if body.isEmpty then "" else " " ++ String.ofList body)

/-- The kind and name of a node's anchor. -/
def label : Option Anchor → String
  | none => "(free)"
  | some a => s!"{a.kind.label} " ++ (if a.name.isEmpty then "<anonymous>" else a.name)

mutual

/-- The lines of a node, of its tags and of what is below it. -/
def nodeLines (depth : Nat) : Node → List String
  | ⟨anchor, tags, children, span⟩ =>
    (indent depth ++ label anchor ++ " " ++ span.start.render) ::
      (tags.map (tagLine (depth + 1)) ++ allLines (depth + 1) children)

/-- The lines of several nodes. -/
def allLines (depth : Nat) : List Node → List String
  | [] => []
  | n :: ns => nodeLines depth n ++ allLines depth ns

end

/-- The lines of the unresolved tags, with their positions. -/
def unresolvedLines (tags : List Tag) : List String :=
  if tags.isEmpty then []
  else "unresolved:" :: tags.map fun t => tagLine 1 t ++ " " ++ t.span.start.render

/-- The listing of a file's findings. -/
def render (file : String) (f : Findings) : String :=
  let root := f.outline.root
  "\n".intercalate
    (file :: (root.tags.map (tagLine 1) ++ allLines 1 root.children ++
      unresolvedLines f.outline.unresolved)) ++ "\n"

end Marginalia.Listing
