import Marginalia.Outline

/-!
# Grammars

The lexical surface of one language as plain data: where comments, strings and blocks start and
end, and which words at the start of a statement introduce an anchor. Tokens are lists of
characters. An empty token is never found at a cursor.
-/

namespace Marginalia

/-- The delimiters of a string literal. -/
structure StringDelimiter where
  opener : List Char
  closer : List Char
  /-- The character that takes the next one along; none for raw literals. -/
  escape : Option Char := some '\\'
  /-- A literal that is not multiline ends with its line. -/
  multiline : Bool := false
deriving DecidableEq, Repr, Inhabited

/-- A pair of brackets. -/
structure BlockPair where
  opener : List Char
  closer : List Char
  /-- A newline between the brackets starts a new statement. -/
  holdsStatements : Bool := false
deriving DecidableEq, Repr, Inhabited

/-- How the body of an anchor is marked. -/
inductive BodyStyle where
  /-- By the next block with this opener at the depth of the anchor. -/
  | braces (opener : List Char)
  /-- By this character at the end of the anchor's line; the body lasts while lines are indented
  deeper than that line. -/
  | indent (opener : Char)
deriving DecidableEq, Repr

/-- How the name of an anchor is found after its keyword. -/
inductive NameRule where
  /-- The identifier that follows, a generator's star set aside. -/
  | followingIdent
  /-- The identifier after a parenthesised receiver, which makes the anchor a method; without a
  receiver, the identifier that follows. -/
  | afterReceiver
  /-- The text between double quotes. -/
  | quoted
deriving DecidableEq, Repr

/-- A keyword that introduces an anchor. -/
structure AnchorRule where
  keyword : List Char
  kind : AnchorKind
  naming : NameRule := .followingIdent
deriving DecidableEq, Repr

/-- Anchors named by the identifier in front of an assignment. -/
structure AssignmentRule where
  operators : List (List Char)
  /-- The words that start the assigned value, with the kind of anchor they make. -/
  values : List (List Char × AnchorKind)
  /-- The token that makes the assigned value a function. -/
  arrow : Option (List Char) := none
deriving DecidableEq, Repr

/-- The lexical surface of a language. -/
structure Grammar where
  name : String
  extensions : List String
  lineComments : List (List Char)
  blockComments : List (List Char × List Char)
  strings : List StringDelimiter
  blocks : List BlockPair
  body : BodyStyle
  statementEnds : List (List Char)
  /-- A newline ends the wait for a body. -/
  newlineTerminates : Bool := false
  /-- The characters of identifiers beside ASCII letters, digits and the underscore. -/
  identExtra : List Char := []
  modifiers : List (List Char) := []
  anchorRules : List AnchorRule
  assignment : Option AssignmentRule := none
  /-- A name and an opening parenthesis in a class body make a method. -/
  methodShorthand : Bool := false
  /-- A slash where an operand is expected starts a regular expression. -/
  regexLiterals : Bool := false
deriving DecidableEq, Repr

namespace Grammar

/-- The bracket pair with a given index; an empty pair past the end. -/
def pair (g : Grammar) (i : Nat) : BlockPair := g.blocks.getD i default

/-- The string delimiter with a given index; an empty one past the end. -/
def delimiter (g : Grammar) (i : Nat) : StringDelimiter := g.strings.getD i default

/-- The block comment with a given index; an empty one past the end. -/
def blockComment (g : Grammar) (i : Nat) : List Char × List Char := g.blockComments.getD i ([], [])

/-- The line comment marker with a given index; an empty one past the end. -/
def lineComment (g : Grammar) (i : Nat) : List Char := g.lineComments.getD i []

/-- Whether bodies are marked by indentation. -/
def indents (g : Grammar) : Bool :=
  match g.body with
  | .indent _ => true
  | .braces _ => false

/-- Whether a bracket pair is the one that holds bodies. -/
def isBodyPair (g : Grammar) (i : Nat) : Bool :=
  match g.body with
  | .braces opener => (g.pair i).opener = opener
  | .indent _ => false

/-! ## Identifiers -/

/-- A character an identifier may start with. -/
def isIdentStart (g : Grammar) (c : Char) : Bool :=
  c.isAlpha || c = '_' || g.identExtra.contains c

/-- A character an identifier may go on with. -/
def isIdentPart (g : Grammar) (c : Char) : Bool :=
  c.isAlphanum || c = '_' || g.identExtra.contains c

/-- The identifier a text starts with. -/
def ident? (g : Grammar) : List Char → Option (List Char)
  | [] => none
  | c :: cs => if g.isIdentStart c then some (c :: cs.takeWhile g.isIdentPart) else none

end Grammar

end Marginalia
