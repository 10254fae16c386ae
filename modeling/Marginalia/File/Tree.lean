import Marginalia.File.Path

/-!
# File trees

The files and directories below a working directory, each known by the names that lead to it.
Directories on the way to an entry need no entry of their own. Of what lies outside, only the
directories straight above the working directory and the root are known to exist.
-/

namespace Marginalia

/-- What stands at a place in a file tree. -/
inductive Entry where
  | file (content : ByteArray)
  | directory

/-- Why an operation on files fails. -/
inductive FileError where
  | missing
  | alreadyExists
  | notDirectory
  | isDirectory
  | nameTooLong
  | notText
deriving DecidableEq, Repr

/-- The text of a file error. -/
def FileError.message : FileError → String
  | missing => "No such file or directory (os error 2)"
  | alreadyExists => "File exists (os error 17)"
  | notDirectory => "Not a directory (os error 20)"
  | isDirectory => "Is a directory (os error 21)"
  | nameTooLong => "File name too long (os error 36)"
  | notText => "stream did not contain valid UTF-8"

/-- The entries of a working directory by the names that lead to them. -/
structure FileTree where
  entries : List (List String × Entry) := []

namespace FileTree

/-- Whether a place is the working directory or straight above it. -/
def isAbove (place : List String) : Bool := place.all (· = "..")

/-- Whether a place is the root. -/
def isRoot (place : List String) : Bool := place = ["/"]

/-- Whether a place lies below the working directory. -/
def isInside (place : List String) : Bool :=
  !place.isEmpty && place.head? ≠ some ".." && place.head? ≠ some "/"

/-- The entry at a place. The places on the way to an entry are directories. -/
def get? (t : FileTree) (place : List String) : Option Entry :=
  match t.entries.lookup place with
  | some e => some e
  | none =>
    if isAbove place || isRoot place || t.entries.any (place.isPrefixOf ·.1) then some .directory
    else none

/-- Put an entry at a place. -/
def set (t : FileTree) (place : List String) (e : Entry) : FileTree :=
  ⟨(place, e) :: t.entries.filter (·.1 ≠ place)⟩

/-- Whether a directory stands at a place. -/
def isDirectoryAt (t : FileTree) (place : List String) : Bool :=
  match t.get? place with
  | some .directory => true
  | _ => false

/-! ## Paths -/

/-- The most bytes that a name may have. -/
def longestName : Nat := 255

/-- The most bytes that a path may have. -/
def longestPath : Nat := 4095

/-- The place right above a place. The root is above itself. -/
def above (place : List String) : List String :=
  if isRoot place then place else if isAbove place then ".." :: place else place.dropLast

/-- The place that segments lead to from a place. Every place on the way has to be a directory. -/
def follow (t : FileTree) : (place : List String) → (segments : List String) →
    Except FileError (List String)
  | place, [] => .ok place
  | place, s :: ss =>
    match t.get? place with
    | none => .error .missing
    | some (.file _) => .error .notDirectory
    | some .directory =>
      if s = "" ∨ s = "." then t.follow place ss
      else if s = ".." then t.follow (above place) ss
      else if longestName < s.utf8ByteSize then .error .nameTooLong
      else t.follow (place ++ [s]) ss

/-- The place that a path leads to. -/
def locate (t : FileTree) (path : String) : Except FileError (List String) :=
  if path.isEmpty then .error .missing
  else if longestPath < path.utf8ByteSize then .error .nameTooLong
  else t.follow (if path.startsWith "/" then ["/"] else []) (Path.segments path)

/-- The entry at a path. -/
def entry? (t : FileTree) (path : String) : Option Entry :=
  match t.locate path with
  | .ok place => t.get? place
  | .error _ => none

/-- Whether a path leads to a file. -/
def isFile (t : FileTree) (path : String) : Bool :=
  match t.entry? path with
  | some (.file _) => true
  | _ => false

/-- Whether a path leads to a directory. -/
def isDirectory (t : FileTree) (path : String) : Bool :=
  match t.entry? path with
  | some .directory => true
  | _ => false

/-- The names in a directory, in order. -/
def names (t : FileTree) (place : List String) : List String :=
  ((t.entries.filterMap fun (p, _) =>
    if place.isPrefixOf p then (p.drop place.length).head?.filter (isInside [·])
    else none).mergeSort
      (fun a b => decide (a ≤ b))).eraseDups

/-- The paths of what a directory holds. -/
def children (t : FileTree) (path : String) : List String :=
  match t.locate path with
  | .ok place => (t.names place).map (Path.join path)
  | .error _ => []

/-! ## Reading and writing -/

/-- The text of a file. -/
def readText (t : FileTree) (path : String) : Except FileError String :=
  match t.locate path with
  | .error e => .error e
  | .ok place =>
    match t.get? place with
    | none => .error .missing
    | some .directory => .error .isDirectory
    | some (.file content) =>
      match String.fromUTF8? content with
      | some s => .ok s
      | none => .error .notText

/-- Write a text to a file, in place of what it held. -/
def writeText (t : FileTree) (path text : String) : Except FileError FileTree :=
  match t.locate path with
  | .error e => .error e
  | .ok place =>
    if t.isDirectoryAt place then .error .isDirectory
    else .ok (t.set place (.file text.toUTF8))

/-- Make one directory. Slashes at the end of its path do not count. -/
def makeDirectory (t : FileTree) (path : String) : Except FileError FileTree :=
  match t.locate (Path.dropSlashes path) with
  | .error e => .error e
  | .ok place =>
    if (t.get? place).isSome then .error .alreadyExists else .ok (t.set place .directory)

/-- Make a directory and those on the way to it, given their paths, the directory's own first. -/
def makeDirectories (t : FileTree) : List String → Except FileError FileTree
  | [] => .ok t
  | path :: outer =>
    let settle (t : FileTree) (e : FileError) : Except FileError FileTree :=
      if t.isDirectory path then .ok t else .error e
    match t.makeDirectory path with
    | .ok t => .ok t
    | .error .missing =>
      match t.makeDirectories outer with
      | .error e => .error e
      | .ok t =>
        match t.makeDirectory path with
        | .ok t => .ok t
        | .error e => settle t e
    | .error e => settle t e

/-- The files that are new or hold something else than in an earlier tree. -/
def changedSince (t old : FileTree) : List (List String × ByteArray) :=
  t.entries.filterMap fun (place, e) =>
    match e, old.get? place with
    | .directory, _ => none
    | .file content, some (.file before) =>
      if content.toList = before.toList then none else some (place, content)
    | .file content, _ => some (place, content)

end FileTree

end Marginalia
