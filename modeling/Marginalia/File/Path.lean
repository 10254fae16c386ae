import Marginalia.Text.Blank

/-!
# Paths

A path is a text cut into components by slashes. Two paths are the same when their components are,
and they are ordered by their components.
-/

namespace Marginalia

/-- A part of a path. -/
inductive Component where
  | root
  | current
  | parent
  | name (s : String)
deriving DecidableEq, Repr

namespace Component

/-- The text of a component. -/
def text : Component → String
  | root => "/"
  | current => "."
  | parent => ".."
  | name s => s

/-- The place of a component among the special ones; names come last. -/
def rank : Component → Nat
  | root => 0
  | current => 1
  | parent => 2
  | name _ => 3

/-- Special components come first, then names in the order of their characters. -/
def precedes (a b : Component) : Bool :=
  match a, b with
  | name s, name t => s < t
  | _, _ => a.rank < b.rank

end Component

namespace Path

/-- The texts between the slashes of a path. -/
def segments (path : String) : List String :=
  (Text.pieces (· = '/') path.toList).map String.ofList

/-- The component of a segment inside a path; an empty one and a dot are none. -/
def inner? (segment : String) : Option Component :=
  if segment = "" ∨ segment = "." then none
  else if segment = ".." then some .parent
  else some (.name segment)

/-- The components of a path. A dot counts only at the start of a relative path. -/
def components (path : String) : List Component :=
  match segments path with
  | [] => []
  | [s] => if s = "." then [.current] else (inner? s).toList
  | s :: ss =>
    (if s = "" then [.root] else if s = "." then [.current] else (inner? s).toList) ++
      ss.filterMap inner?

/-- The path of components. -/
def ofComponents : List Component → String
  | .root :: rest => "/" ++ "/".intercalate (rest.map Component.text)
  | rest => "/".intercalate (rest.map Component.text)

/-- The paths on the way to components given last first, nearest first. -/
def outerPaths : List Component → List String
  | _ :: c :: outer => ofComponents (c :: outer).reverse :: outerPaths (c :: outer)
  | _ => []

/-- A path as it is written, and the paths on the way to it, nearest first. -/
def ancestors (path : String) : List String := path :: outerPaths (components path).reverse

/-- A path without the slashes at its end; the root keeps one. -/
def dropSlashes (path : String) : String :=
  let kept := (path.toList.reverse.dropWhile (· = '/')).reverse
  if kept.isEmpty then path else String.ofList kept

/-- Whether components come first in the order of paths. -/
def componentsPrecede : List Component → List Component → Bool
  | [], [] => false
  | [], _ :: _ => true
  | _ :: _, [] => false
  | a :: as, b :: bs => a.precedes b || (a = b && componentsPrecede as bs)

/-- Whether a path comes no later than another in the order of paths. -/
def notAfter (a b : String) : Bool := !componentsPrecede (components b) (components a)

/-- A path below another one. -/
def join (path name : String) : String :=
  if name.startsWith "/" || path.isEmpty then name
  else if path.endsWith "/" then path ++ name
  else path ++ "/" ++ name

/-- The last component of a path, if it is a name. -/
def fileName? (path : String) : Option String :=
  match (components path).getLast? with
  | some (.name s) => some s
  | _ => none

/-- A file name cut at its last dot, if the dot is not its first character. -/
def splitName (name : List Char) : List Char × Option (List Char) :=
  let ending := (name.reverse.takeWhile (· ≠ '.')).reverse
  let stem := (name.take (name.length - ending.length)).dropLast
  if ending.length = name.length ∨ stem.isEmpty then (name, none) else (stem, some ending)

/-- The file name of a path without its extension. -/
def stem? (path : String) : Option String :=
  (fileName? path).map fun s => String.ofList (splitName s.toList).1

/-- The extension of the file name of a path. -/
def extension? (path : String) : Option String :=
  (fileName? path).bind fun s => (splitName s.toList).2.map String.ofList

/-- Paths in order, the first of equal ones kept. -/
def sortDistinct (paths : List String) : List String :=
  (paths.mergeSort notAfter).foldr
    (fun p ps => p :: ps.dropWhile fun q => components q = components p) []

end Path

end Marginalia
