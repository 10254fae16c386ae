import Marginalia.Scan.Pass

/-!
# String literals

A literal lasts up to its closer. It ends without one at the end of the text and, unless it is
multiline, at the end of its line.
-/

namespace Marginalia

/-- How a string literal ends. -/
inductive LiteralEnd where
  | closed
  | endOfLine
  | endOfInput
deriving DecidableEq, Repr

/-- The number of characters of a literal after its opener, and how it ends. -/
def StringDelimiter.tail (d : StringDelimiter) : List Char → Nat × LiteralEnd
  | [] => (0, .endOfInput)
  | c :: cs =>
    if d.escape = some c then
      match cs with
      | [] => (1, .endOfInput)
      | _ :: cs => let (n, stop) := d.tail cs; (n + 2, stop)
    else if !d.closer.isEmpty && d.closer.isPrefixOf (c :: cs) then (d.closer.length, .closed)
    else if c = '\n' && !d.multiline then (0, .endOfLine)
    else let (n, stop) := d.tail cs; (n + 1, stop)

/-- The diagnostic of a literal that ends without its closer. -/
def LiteralEnd.diagnostic? (span : Span) : LiteralEnd → Option Diagnostic
  | closed => none
  | endOfLine =>
    some { kind := .unterminatedString, span, message := "string literal reaches end of line" }
  | endOfInput =>
    some { kind := .unterminatedString, span, message := "string literal reaches end of input" }

/-- Consume the string literal at the cursor. -/
def Pass.literal (p : Pass) (g : Grammar) (i : Nat) : Pass :=
  p.inside (.literal i p.cursor.position) fun p =>
    let d := g.delimiter i
    let (n, stop) := d.tail (p.cursor.ahead.drop d.opener.length)
    let q := p.consume (d.opener.length + n)
    match stop.diagnostic? (q.cursor.spanFrom p.cursor.position) with
    | none => q
    | some diagnostic => q.report diagnostic

end Marginalia
