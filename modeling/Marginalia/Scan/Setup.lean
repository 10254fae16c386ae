import Marginalia.Language.Catalogue
import Marginalia.Tag.Registry

/-!
# The setup of a scan

A scan is given a grammar, a registry of tags, and options.
-/

namespace Marginalia

/-- Where code that is skipped ends. -/
inductive SkipLookahead where
  /-- At the end of a statement as well as at the end of a line. -/
  | statement
  /-- At the end of a line. -/
  | line
deriving DecidableEq, Repr

/-- What a caller may tune. -/
structure ScanOptions where
  /-- The number of open contexts that are kept; what opens deeper is only counted. -/
  maxDepth : Nat := 256
  /-- The number of blank lines that may lie between a comment and its anchor. -/
  maxBlankLines : Nat := 1
  skipLookahead : SkipLookahead := .statement
deriving DecidableEq, Repr

/-- What a scan is given beside the text. -/
structure Setup where
  grammar : Grammar
  registry : Registry
  options : ScanOptions := {}
deriving DecidableEq, Repr

end Marginalia
