import Marginalia.Text.Alphanumeric
import Marginalia.Text.Lowercase

/-!
# Heading anchors

A heading is linked to by its slug. Headings with one slug are told apart by numbers.
-/

namespace Marginalia

/-- The slug of a title on its own: lower case, letters, numbers, hyphens, underscores and spaces
only, hyphens for spaces. -/
def baseSlug (title : List Char) : List Char :=
  ((Text.lower title).filter fun c => Text.isAlphanumeric c || c = ' ' || c = '-' || c = '_').map
    fun c => if c = ' ' then '-' else c

/-- The slugs of titles on their own that have been handed out. -/
structure Slugger where
  seen : List (List Char) := []
deriving DecidableEq, Repr

namespace Slugger

/-- The slug of the next title. One met before gets the number of times it was met. -/
def slug (s : Slugger) (title : String) : String :=
  let base := baseSlug title.toList
  match s.seen.count base with
  | 0 => String.ofList base
  | n + 1 => s!"{String.ofList base}-{n + 1}"

/-- The slugger after a title. -/
def note (s : Slugger) (title : String) : Slugger := ⟨baseSlug title.toList :: s.seen⟩

/-- The slugs of titles, in order. -/
def slugs (s : Slugger) : List String → List String
  | [] => []
  | title :: titles => s.slug title :: (s.note title).slugs titles

end Slugger

/-- An item of a list of contents, indented by two spaces a level. -/
def contentsItem (title slug : String) (depth : Nat) : String :=
  String.ofList (List.replicate (2 * depth) ' ') ++ s!"* [{title}](#{slug})"

end Marginalia
