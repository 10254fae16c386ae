import Marginalia.Cursor
import Marginalia.Language.Grammar

/-!
# Lookahead

What a grammar sees at a cursor. No query consumes anything; each returns an index of the grammar
or the text it has recognised, which is the start of the text ahead.
-/

namespace Marginalia

/-- A form of comment, by its index in the grammar. -/
inductive CommentForm where
  | line (marker : Nat)
  | block (pair : Nat)
deriving DecidableEq, Repr

namespace Grammar

/-! ## Comments -/

/-- The form of the comment that starts here. Block comments go before line comments. -/
def commentStart? (g : Grammar) (c : Cursor) : Option CommentForm :=
  match g.blockComments.findIdx? (c.startsWith ·.1) with
  | some i => some (.block i)
  | none => (g.lineComments.findIdx? c.startsWith).map .line

/-- The end of a comment here: the closer of a block comment, nothing but the newline's place for
a line comment. -/
def commentEnd? (g : Grammar) (c : Cursor) : CommentForm → Option (List Char)
  | .line _ => if c.peek? = some '\n' then some [] else none
  | .block i => if c.startsWith (g.blockComment i).2 then some (g.blockComment i).2 else none

/-! ## Strings and regular expressions -/

/-- The string delimiter that opens here: the longest, and the last of the longest. -/
def stringStart? (g : Grammar) (c : Cursor) : Option Nat :=
  (g.strings.zipIdx.filter (c.startsWith ·.1.opener)).foldl
    (fun best (d, i) =>
      match best with
      | none => some (i, Text.byteSize d.opener)
      | some (j, size) =>
        if size ≤ Text.byteSize d.opener then some (i, Text.byteSize d.opener) else some (j, size))
    none |>.map (·.1)

/-- The closer of a string literal here. -/
def stringEnd? (g : Grammar) (c : Cursor) (i : Nat) : Option (List Char) :=
  if c.startsWith (g.delimiter i).closer then some (g.delimiter i).closer else none

/-- The characters after which an operand is expected. -/
def operandLeads : List Char := "(,=:[!&|?\x7b\x7d;+-*%<>~^".toList

/-- Whether an operand is expected after the last significant character. -/
def operandExpected (c : Cursor) : Bool :=
  match c.lastSignificant? with
  | none => true
  | some p => operandLeads.contains p

/-- The number of characters of a regular expression after its first slash, flags included, if it
ends on the line. A slash in a character class and an escaped one do not end it. -/
def regexTail? : (inClass escaped : Bool) → List Char → Option Nat
  | _, _, [] => none
  | inClass, true, _ :: cs => (regexTail? inClass false cs).map (· + 1)
  | inClass, false, c :: cs =>
    if c = '/' && !inClass then some (1 + (cs.takeWhile Char.isAlpha).length)
    else
      (regexTail? (if c = '[' then true else if c = ']' then false else inClass) (c = '\\') cs).map
        (· + 1)

/-- The regular expression that starts here. -/
def regexLiteral? (g : Grammar) (c : Cursor) : Option (List Char) :=
  if g.regexLiterals && c.peek? = some '/' && operandExpected c then
    (regexTail? false false (c.restOfLine.drop 1)).map fun n => c.restOfLine.take (n + 1)
  else none

/-! ## Blocks, bodies and statements -/

/-- The bracket pair that opens here. -/
def blockOpen? (g : Grammar) (c : Cursor) : Option Nat :=
  g.blocks.findIdx? (c.startsWith ·.opener)

/-- The bracket pair that closes here. -/
def blockClose? (g : Grammar) (c : Cursor) : Option Nat :=
  g.blocks.findIdx? (c.startsWith ·.closer)

/-- The character that opens an indentation body here: nothing but a line comment may follow it on
its line. -/
def bodyOpener? (g : Grammar) (c : Cursor) : Option (List Char) :=
  match g.body with
  | .braces _ => none
  | .indent opener =>
    let tail := Text.trimStart (c.restOfLine.drop 1)
    if c.peek? = some opener && (tail.isEmpty || g.lineComments.any (·.isPrefixOf tail)) then
      some [opener]
    else none

/-- The token that ends a statement here. -/
def statementEnd? (g : Grammar) (c : Cursor) : Option (List Char) :=
  g.statementEnds.find? c.startsWith

end Grammar

end Marginalia
