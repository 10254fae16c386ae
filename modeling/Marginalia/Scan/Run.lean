import Marginalia.Scan.Code

/-!
# Scans

A scan goes over a text once and never fails: every text has an outline.
-/

namespace Marginalia

namespace Pass

/-- One step of a scan; none when the text is used up. -/
def step (s : Setup) (p : Pass) : Option Pass :=
  match p.mode with
  | .comment form => some (p.readComment s.grammar form)
  | .tags comment => some (p.placeTags s.registry comment)
  | .code => if p.cursor.atEnd then none else some (p.code s.grammar)
  | .skip => if p.cursor.atEnd then none else some (p.skip s)

/-- Step until the text is used up. At most three steps in a row leave the cursor in place, so the
bound is never what ends it. -/
def run (s : Setup) (p : Pass) : Pass := iterate (step s) (4 * (p.cursor.ahead.length + 1)) p

/-- Close what is open at the end of the text. -/
def closeAll (p : Pass) (g : Grammar) : Pass :=
  let p := p.nesting.contexts.foldl (unwind g p.cursor.position none) p
  { p with nesting := { p.nesting with contexts := [], overflow := 0 } }

/-- The findings of a pass that has used up its text. -/
def findings (p : Pass) (g : Grammar) : Findings :=
  let p := p.closeAll g
  let found := p.assembly.finish p.cursor.position
  { found with diagnostics := sortDiagnostics (found.diagnostics ++ p.diagnostics) }

end Pass

/-- The outline and the diagnostics of a text. -/
def Setup.scan (s : Setup) (source : List Char) : Findings :=
  ((Pass.start s source).run s).findings s.grammar

/-- Scan a text in a language of a catalogue. -/
def scan (languages : Catalogue) (registry : Registry) (options : ScanOptions) (language : String)
    (source : String) : Except UsageError Findings := do
  let grammar ← languages.lookup language
  return Setup.scan { grammar, registry, options } source.toList

end Marginalia
