import Marginalia.Diagnostic
import Marginalia.Tag.Definition

/-!
# Outlines

An outline is the tree of the code constructs of one text, each with the tags that document it.
The constructs are called anchors. A node without an anchor holds tags that belong to a body but
to no anchor in it.
-/

namespace Marginalia

/-- The kind of a code construct. -/
inductive AnchorKind where
  | moduleDecl
  | classDecl
  | functionDecl
  | methodDecl
  | attributeDecl
  | unknown
deriving DecidableEq, Repr

/-- The kind as it stands in documents. -/
def AnchorKind.label : AnchorKind → String
  | moduleDecl => "module"
  | classDecl => "class"
  | functionDecl => "function"
  | methodDecl => "method"
  | attributeDecl => "attribute"
  | unknown => "unknown"

/-- A code construct that tags document. The name of an anonymous one is empty. -/
structure Anchor where
  kind : AnchorKind
  name : String
  span : Span
deriving DecidableEq, Repr

/-- An argument of a tag. -/
inductive Argument where
  /-- Fills a slot of the tag's definition. -/
  | parsed (slot : String) (kind : ArgumentKind) (text : String)
  /-- Kept as written: it fits no slot, or the tag has no definition. -/
  | raw (text : String)
deriving DecidableEq, Repr

/-- The text of an argument. -/
def Argument.text : Argument → String
  | parsed _ _ text => text
  | raw text => text

/-- A tag found in a comment. -/
structure Tag where
  name : String
  arguments : List Argument
  /-- The text after the arguments, up to the next tag or the end of the comment. -/
  body : String
  span : Span
  placement : Placement
  /-- Attached where its placement says. -/
  resolved : Bool := false
deriving DecidableEq, Repr

namespace Tag

/-- The text of the argument that fills a slot. -/
def argument? (t : Tag) (slot : String) : Option String :=
  t.arguments.findSome? fun
    | .parsed s _ text => if s = slot then some text else none
    | .raw _ => none

/-- The tag, attached. -/
def resolve (t : Tag) : Tag := { t with resolved := true }

/-- The header of a tag as `@name` or `@name(argument, argument)`. -/
def header (t : Tag) : String :=
  if t.arguments.isEmpty then "@" ++ t.name
  else "@" ++ t.name ++ "(" ++ ", ".intercalate (t.arguments.map Argument.text) ++ ")"

end Tag

/-- A node of an outline. -/
structure Node where
  anchor : Option Anchor := none
  tags : List Tag := []
  children : List Node := []
  span : Span := default
deriving Repr

namespace Node

instance : Inhabited Node := ⟨{}⟩

/-- The node of an anchor, without tags and children. -/
def ofAnchor (a : Anchor) : Node := { anchor := some a, span := a.span }

/-- The name of a node's anchor. -/
def name? (n : Node) : Option String := n.anchor.map (·.name)

/-- A node met on a walk, with its parent and its distance from the start of the walk. -/
structure Visit where
  node : Node
  parent : Option Node
  depth : Nat

/-- The visits of a node's children. -/
def Visit.children (v : Visit) : List Visit :=
  v.node.children.map fun c => ⟨c, some v.node, v.depth + 1⟩

mutual

/-- The number of nodes of a tree. -/
def size : Node → Nat
  | ⟨_, _, children, _⟩ => sizeAll children + 1

/-- The number of nodes of several trees. -/
def sizeAll : List Node → Nat
  | [] => 0
  | n :: ns => size n + sizeAll ns

end

/-- The visits that are due, each followed by the visits below it, up to `k` of them. -/
def drain : Nat → List Visit → List Visit
  | 0, _ => []
  | _ + 1, [] => []
  | k + 1, v :: due => v :: drain k (v.children ++ due)

/-- The walk over a tree from its root: parents before children, siblings from left to right. -/
def walk (n : Node) : List Visit := drain n.size [⟨n, none, 0⟩]

/-- The tags of a tree in the order of the walk. -/
def allTags (n : Node) : List Tag := n.walk.flatMap (·.node.tags)

/-- The first node of the walk whose anchor has the given name. -/
def find? (n : Node) (name : String) : Option Node :=
  (n.walk.map (·.node)).find? (·.name? = some name)

end Node

/-- The constructs of one text and their tags. -/
structure Outline where
  /-- The whole text. -/
  root : Node := {}
  /-- The tags whose anchor never came. -/
  unresolved : List Tag := []
deriving Repr

/-- What a scan finds in a text. -/
structure Findings where
  outline : Outline := {}
  diagnostics : List Diagnostic := []
deriving Repr

end Marginalia
