import Marginalia.Language.Builtin

/-!
# Catalogues of languages

A catalogue holds at most one grammar for each language name.
-/

namespace Marginalia

/-- The languages that can be scanned, in the order they were registered. -/
structure Catalogue where
  grammars : List Grammar := []
deriving DecidableEq, Repr

namespace Catalogue

/-- The catalogue without languages. -/
def empty : Catalogue := {}

/-- JavaScript, Python and Go. -/
def builtin : Catalogue := ⟨[.javascript, .python, .go]⟩

/-- The grammar registered under a name. -/
def get? (l : Catalogue) (id : String) : Option Grammar := l.grammars.find? (·.name = id)

/-- Add a grammar, unless its name is taken. -/
def register (l : Catalogue) (g : Grammar) : Except UsageError Catalogue :=
  if (l.get? g.name).isSome then .error (.duplicateLanguage g.name)
  else .ok ⟨l.grammars ++ [g]⟩

/-- The grammar registered under a name, or the error that there is none. -/
def lookup (l : Catalogue) (id : String) : Except UsageError Grammar :=
  match l.get? id with
  | some g => .ok g
  | none => .error (.unknownLanguage id)

/-- The grammars in increasing order of their names. -/
def sorted (l : Catalogue) : List Grammar :=
  l.grammars.mergeSort (fun a b => decide (a.name ≤ b.name))

/-- The names of the languages in increasing order. -/
def names (l : Catalogue) : List String := l.sorted.map (·.name)

/-- The first language by name that files with an extension are written in. -/
def forExtension? (l : Catalogue) (extension : String) : Option Grammar :=
  l.sorted.find? (·.extensions.contains extension)

end Catalogue

end Marginalia
