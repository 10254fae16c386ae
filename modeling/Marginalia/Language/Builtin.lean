import Marginalia.Language.Grammar

/-!
# Grammars that come with the library

JavaScript with its dialects, Python and Go.
-/

namespace Marginalia.Grammar

/-- The tokens written as texts. -/
def tokens (ts : List String) : List (List Char) := ts.map String.toList

/-- A string delimiter that opens and closes alike. -/
def quote (mark : String) (escape : Option Char) (multiline : Bool) : StringDelimiter :=
  ⟨mark.toList, mark.toList, escape, multiline⟩

/-- A pair of brackets. -/
def brackets (opener closer : Char) (holdsStatements : Bool) : BlockPair :=
  ⟨[opener], [closer], holdsStatements⟩

/-- JavaScript, with classes in braces, assigned functions and arrow functions. -/
def javascript : Grammar where
  name := "javascript"
  extensions := ["js", "mjs", "cjs", "jsx", "ts", "tsx"]
  lineComments := tokens ["//"]
  blockComments := [("/*".toList, "*/".toList)]
  strings :=
    [quote "\"" (some '\\') false, quote "\x27" (some '\\') false, quote "\x60" (some '\\') true]
  blocks := [brackets '\x7b' '\x7d' true, brackets '(' ')' false, brackets '[' ']' false]
  body := .braces ['\x7b']
  statementEnds := tokens [";", ","]
  identExtra := ['$']
  modifiers := tokens
    ["export", "default", "async", "static", "var", "let", "const", "declare", "abstract"]
  anchorRules := [⟨"function".toList, .functionDecl, .followingIdent⟩,
    ⟨"class".toList, .classDecl, .followingIdent⟩]
  assignment := some
    { operators := tokens ["=", ":"]
      values := [("function".toList, .functionDecl), ("async".toList, .functionDecl),
        ("class".toList, .classDecl)]
      arrow := some "=>".toList }
  methodShorthand := true
  regexLiterals := true

/-- Python, with bodies marked by indentation and triple-quoted strings. -/
def python : Grammar where
  name := "python"
  extensions := ["py", "pyi"]
  lineComments := tokens ["#"]
  blockComments := []
  strings :=
    [quote "\"\"\"" (some '\\') true, quote "\x27\x27\x27" (some '\\') true,
     quote "\"" (some '\\') false, quote "\x27" (some '\\') false]
  blocks := [brackets '(' ')' false, brackets '[' ']' false, brackets '\x7b' '\x7d' false]
  body := .indent ':'
  statementEnds := tokens [";"]
  newlineTerminates := true
  modifiers := tokens ["async"]
  anchorRules := [⟨"def".toList, .functionDecl, .followingIdent⟩,
    ⟨"class".toList, .classDecl, .followingIdent⟩]

/-- Go, with raw strings and methods named after their receiver. -/
def go : Grammar where
  name := "go"
  extensions := ["go"]
  lineComments := tokens ["//"]
  blockComments := [("/*".toList, "*/".toList)]
  strings :=
    [quote "\"" (some '\\') false, quote "\x27" (some '\\') false, quote "\x60" none true]
  blocks := [brackets '\x7b' '\x7d' true, brackets '(' ')' false, brackets '[' ']' false]
  body := .braces ['\x7b']
  statementEnds := tokens [";"]
  newlineTerminates := true
  anchorRules := [⟨"package".toList, .moduleDecl, .followingIdent⟩,
    ⟨"func".toList, .functionDecl, .afterReceiver⟩, ⟨"type".toList, .classDecl, .followingIdent⟩,
    ⟨"var".toList, .attributeDecl, .followingIdent⟩,
    ⟨"const".toList, .attributeDecl, .followingIdent⟩]

end Marginalia.Grammar
