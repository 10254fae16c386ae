import Marginalia.Document.Slug
import Marginalia.Outline
import Marginalia.Text.Blank

/-!
# Markdown documents

One heading for each anchored node, titled by the names of the anchors around it and its own, with
an index on top. References in braces become links to headings.
-/

namespace Marginalia.Markdown

/-- An anchored node with its title and its distance from the top. -/
structure Section where
  title : String
  depth : Nat
  anchor : Anchor
  node : Node

/-- The title of an anchor inside what is titled `outer`. -/
def title (outer : Option String) (a : Anchor) : String :=
  let name := if a.name.isEmpty then "(anonymous)" else a.name
  match outer with
  | none => name
  | some outer => s!"{outer}.{name}"

mutual

/-- The sections of the anchored nodes below a node. -/
def sectionsBelow (outer : Option String) (depth : Nat) : Node → List Section
  | ⟨_, _, children, _⟩ => sectionsOf outer depth children

/-- The sections of nodes and of what is below them. What is below a node without an anchor is
left out. -/
def sectionsOf (outer : Option String) (depth : Nat) : List Node → List Section
  | [] => []
  | n :: ns =>
    match n.anchor with
    | none => sectionsOf outer depth ns
    | some a =>
      ⟨title outer a, depth, a, n⟩ ::
        (sectionsBelow (some (title outer a)) (depth + 1) n ++ sectionsOf outer depth ns)

end

/-- The sections of a document. -/
def sections (root : Node) : List Section := sectionsBelow none 0 root

/-! ## Links -/

/-- What names link to, the first of equal names counting. -/
abbrev Links := List (String × String)

/-- The links to sections by their titles and by the names of their anchors. -/
def links (sections : List Section) (slugs : List String) : Links :=
  (sections.zip slugs).flatMap fun (s, slug) => [(s.title, slug), (s.anchor.name, slug)]

/-- A link to a heading, or the name as code if there is no such heading. -/
def linkTo (links : Links) (target : String) : String :=
  match links.lookup target with
  | some slug => s!"[{target}](#{slug})"
  | none => s!"`{target}`"

/-- The target of a reference in braces at the start of a text, and the text after it. -/
def reference? (text : List Char) : Option (String × List Char) :=
  match "\x7b@link".toList.isPrefixOf? text with
  | none => none
  | some rest =>
    let named := Text.trimStart rest
    let target := named.takeWhile fun c => c ≠ '\x7d' && !Text.isBlank c
    match Text.trimStart (named.drop target.length) with
    | '\x7d' :: after =>
      if named.length < rest.length && !target.isEmpty then some (String.ofList target, after)
      else none
    | _ => none

/-- A text with its references replaced by links. -/
def resolveReferences (links : Links) : (fuel : Nat) → List Char → List Char
  | 0, text => text
  | _ + 1, [] => []
  | fuel + 1, c :: cs =>
    match reference? (c :: cs) with
    | some (target, after) => (linkTo links target).toList ++ resolveReferences links fuel after
    | none => c :: resolveReferences links fuel cs

/-- The body of a tag as one paragraph with its references replaced by links. -/
def paragraph (links : Links) (t : Tag) : String :=
  let flat := Text.unwords (Text.words t.body.toList)
  String.ofList (resolveReferences links flat.length flat)

/-! ## Tags -/

/-- The tags of a node and of the nodes without an anchor right below it. -/
def ownTags (n : Node) : List Tag :=
  n.tags ++ (n.children.filter (·.anchor.isNone)).flatMap (·.tags)

/-- The tags whose body describes the node itself. -/
def describing : List String := ["module", "class", "classmethod", "function", "method", "type"]

/-- The tags that have a place of their own in a section. -/
def placed : List String := ["deprecated", "param", "attribute", "returns", "example", "see"]

/-- The tags with a given name. -/
def withName (tags : List Tag) (name : String) : List Tag := tags.filter (·.name = name)

/-- A text after a separator, or nothing if it is empty. -/
def appended (separator text : String) : String := if text.isEmpty then "" else separator ++ text

/-- The lead of a section: descriptions and notes of deprecation. -/
def lead (links : Links) (t : Tag) : String :=
  if t.name = "deprecated" then
    "> **Deprecated**" ++ appended ": " (paragraph links t) ++ "\n\n"
  else if describing.contains t.name then
    let body := paragraph links t
    if body.isEmpty then "" else body ++ "\n\n"
  else ""

/-- A tag as a list item with its name, its type and its body. -/
def typedItem (links : Links) (t : Tag) : String :=
  "* `" ++ (t.argument? "name").getD t.header ++ "`" ++
    (match t.argument? "type" with
      | some type => s!" (`{type}`)"
      | none => "") ++
    appended ": " (paragraph links t) ++ "\n"

/-- A titled list of tags, or nothing without tags. -/
def typedList (links : Links) (heading : String) (tags : List Tag) : String :=
  if tags.isEmpty then ""
  else s!"**{heading}**\n\n" ++ String.join (tags.map (typedItem links)) ++ "\n"

/-- What is returned; the last tag counts. -/
def returned (links : Links) (tags : List Tag) : String :=
  match (withName tags "returns").getLast? with
  | none => ""
  | some t =>
    "**Returns**" ++
      (match t.argument? "type" with
        | some type => s!": `{type}`"
        | none => "") ++
      appended " " (paragraph links t) ++ "\n\n"

/-- An example as a block of code. -/
def codeExample (t : Tag) : String :=
  "**Example**\n\n```\n" ++ String.ofList (Text.trimEnd t.body.toList) ++ "\n```\n\n"

/-- The related headings. -/
def related (links : Links) (tags : List Tag) : String :=
  let see := withName tags "see"
  if see.isEmpty then ""
  else
    "**See also**: " ++ ", ".intercalate
      (see.map fun t => linkTo links ((t.argument? "target").getD "")) ++ "\n\n"

/-- The tags without a place of their own, as they are written. -/
def others (links : Links) (tags : List Tag) : String :=
  let other := tags.filter fun t => !describing.contains t.name && !placed.contains t.name
  if other.isEmpty then ""
  else String.join (other.map fun t =>
    "* `" ++ t.header ++ "`" ++ appended " " (paragraph links t) ++ "\n") ++ "\n"

/-- The tags of a section. -/
def renderTags (links : Links) (tags : List Tag) : String :=
  String.join (tags.map (lead links)) ++
    typedList links "Parameters" (withName tags "param") ++
    typedList links "Attributes" (withName tags "attribute") ++
    returned links tags ++
    String.join ((withName tags "example").map codeExample) ++
    related links tags ++
    others links tags

/-! ## Documents -/

/-- A section: its heading, the kind and line of its anchor, its tags. -/
def renderSection (links : Links) (s : Section) : String :=
  String.ofList (List.replicate (min (s.depth + 2) 6) '#') ++ s!" {s.title}\n\n" ++
    s!"`{s.anchor.kind.label}` (line {s.anchor.span.start.line})\n\n" ++
    renderTags links (ownTags s.node)

/-- The index of the sections, or nothing without sections. -/
def index (sections : List Section) (slugs : List String) : String :=
  if sections.isEmpty then ""
  else
    "## Index\n\n" ++ String.join ((sections.zip slugs).map fun (s, slug) =>
      contentsItem s.title slug s.depth ++ "\n") ++ "\n"

/-- The title of a document: the first module tag's name, or the file's. -/
def documentTitle (file : String) (tags : List Tag) : String :=
  ((tags.find? (·.name = "module")).bind (·.argument? "name")).getD file

/-- The document of a file's findings. -/
def render (file : String) (f : Findings) : String :=
  let root := f.outline.root
  let sections := sections root
  let slugs := Slugger.slugs {} (sections.map (·.title))
  let links := links sections slugs
  s!"# {documentTitle file (ownTags root)}\n\n" ++ renderTags links (ownTags root) ++
    index sections slugs ++ String.join (sections.map (renderSection links))

end Marginalia.Markdown
