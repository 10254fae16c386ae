import Marginalia.Document.Listing
import Marginalia.Document.Markdown
import Marginalia.Json.Findings
import Marginalia.Json.Printer

/-!
# Formats

The formats a document can be written in.
-/

namespace Marginalia

/-- A format of documents. -/
inductive Format where
  | markdown
  | tree
  | json
deriving DecidableEq, Repr

namespace Format

/-- The format with a name. -/
def ofName (name : String) : Except UsageError Format :=
  if name = "markdown" ∨ name = "md" then .ok markdown
  else if name = "tree" then .ok tree
  else if name = "json" then .ok json
  else .error (.unknownFormat name)

/-- The ending of the names of files in a format. -/
def fileExtension : Format → String
  | markdown => "md"
  | tree => "txt"
  | json => "json"

/-- The document of a file's findings. -/
def render (format : Format) (file : String) (f : Findings) : String :=
  match format with
  | markdown => Markdown.render file f
  | tree => Listing.render file f
  | json => String.ofList (Json.pretty 0 f.toJson) ++ "\n"

end Format

end Marginalia
