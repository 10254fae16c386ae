import Marginalia.File.Pattern
import Marginalia.File.Tree

/-!
# Searching a file tree

The paths that a pattern matches. A pattern is matched component by component, from the working
directory down. Names that start with a dot need no dot in the pattern, but the special entries
for a directory itself and its parent do.
-/

namespace Marginalia.Search

/-- Whether a path is the working directory itself. -/
def isHere (path : String) : Bool := Path.components path = [.current]

/-- The path of a name in a directory; names in the working directory stand alone. -/
def within (path name : String) : String := if isHere path then name else Path.join path name

/-- The special entries of a directory that a pattern matches, outer first. -/
def specials (glyphs : List Glyph) : List String :=
  if glyphs.head? = some (.char '.') then
    ["..", "."].filter fun s => Pattern.matchesText glyphs s.toList
  else []

mutual

/-- The matches below a path, for the components of a pattern that are left. -/
def below (t : FileTree) : (fuel : Nat) → List (List Glyph) → String → List String
  | 0, _, _ | _, [], _ => []
  | fuel + 1, p :: ps, path =>
    match Pattern.literal? p with
    | some s =>
      let next := within path s
      let found := if s = "." ∨ s = ".." then t.isDirectory path else (t.entry? next).isSome
      if !found then [] else if ps.isEmpty then [next] else below t fuel ps next
    | none =>
      if t.isDirectory path then
        ((specials p).flatMap fun s =>
          if ps.isEmpty then [Path.join path s] else below t fuel ps (Path.join path s)) ++
        (t.children path).flatMap fun child =>
          visit t fuel (p :: ps) (if isHere path then (Path.fileName? child).getD child else child)
      else []

/-- The matches at an entry of a directory and below it. -/
def visit (t : FileTree) : (fuel : Nat) → List (List Glyph) → String → List String
  | 0, _, _ | _, [], _ => []
  | fuel + 1, p :: ps, path =>
    if Pattern.isRecursive p then
      let rest := ps.dropWhile Pattern.isRecursive
      if t.isDirectory path then
        (if rest.isEmpty then [path] else atEntry t fuel rest path) ++
          (t.children path).flatMap (visit t fuel (p :: rest))
      else atEntry t fuel rest path
    else atEntry t fuel (p :: ps) path

/-- The matches at an entry whose name the next component has to match. -/
def atEntry (t : FileTree) : (fuel : Nat) → List (List Glyph) → String → List String
  | 0, _, _ | _, [], _ => []
  | fuel + 1, p :: ps, path =>
    if Pattern.matchesText p ((Path.fileName? path).getD "").toList then
      if ps.isEmpty then [path] else below t fuel ps path
    else []

end

/-- A bound on the steps of a search: each goes one component or one directory further. -/
def bound (t : FileTree) (pattern : List (List Glyph)) : Nat :=
  4 * (pattern.length + 1) * ((t.entries.map (·.1.length)).foldl max 0 + 2)

/-- The components of a pattern; a slash at the end adds none. -/
def components (pattern : String) : List String :=
  match (Path.segments pattern).reverse with
  | "" :: rest => rest.reverse
  | all => all.reverse

/-- The paths of the files that a pattern matches. -/
def files (t : FileTree) (pattern : String) : Except PatternError (List String) := do
  let _ ← Pattern.compile pattern.toList
  let glyphs ← (components pattern).mapM fun c => Pattern.compile c.toList
  if pattern.startsWith "/" || pattern.endsWith "/" then return []
  else return (below t (bound t glyphs) glyphs ".").filter t.isFile

end Marginalia.Search
