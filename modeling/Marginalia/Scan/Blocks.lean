import Marginalia.Scan.Pass

/-!
# Blocks and bodies in a scan

A bracket opens a block, or the body of an anchor that waits for one. A closer without its opener
is ignored; a closer whose opener lies further out closes what is open in between. An indentation
body ends at the first line that is not indented deeper than its anchor.
-/

namespace Marginalia.Pass

/-- Report that contexts open past the depth limit, once an episode. -/
def tooDeep (p : Pass) (first : Bool) (opened : Position) : Pass :=
  if first then
    p.report
      { kind := .nestingTooDeep
        span := .point opened
        message := s!"nesting deeper than {p.nesting.limit} levels; " ++
          "further opens ignored until closed" }
  else p

/-- Close a context without its closer: at a closer further out, or at the end of the text. -/
def unwind (g : Grammar) (stop : Position) (closer : Option (List Char)) (p : Pass)
    (c : Context) : Pass :=
  let opener? := match c with
    | .block i _ => some (g.pair i).opener
    | .body _ none =>
      match g.body with
      | .braces opener => some opener
      | .indent _ => none
    | .body _ (some _) | .literal _ _ | .comment _ => none
  let p := match c with
    | .body _ none => p.emit (.bodyLeft stop)
    | .body _ (some _) => p.emit (.bodyLeft p.lastEnd)
    | .block _ _ | .literal _ _ | .comment _ => p
  match opener?, closer with
  | none, _ => p
  | some opener, some closer =>
    p.report
      { kind := .unbalancedBlock
        span := ⟨c.opened, stop⟩
        message := s!"`{String.ofList opener}` implicitly closed by `{String.ofList closer}`" }
  | some opener, none =>
    p.report
      { kind := .unterminatedBlock
        span := ⟨c.opened, stop⟩
        message := s!"`{String.ofList opener}` never closed; closed at end of input" }

/-! ## Brackets -/

/-- Open a bracket, or the body of the anchor that waits for it. -/
def openBlock (p : Pass) (g : Grammar) (i : Nat) : Pass :=
  let opened := p.cursor.position
  let p := p.emit (.bracketOpened i opened)
  let body := g.isBodyPair i && p.awaitsBody && p.assembly.canEnterBody
  let p := if body then { p with pendingBody := none } else p
  let context := if body then .body opened none else .block i opened
  let opening := p.nesting.opening
  let p := { p with nesting := p.nesting.push context }
  let p := match opening with
    | .entered => if body then p.emit (.bodyEntered opened) else p
    | .overflowed first => p.tooDeep first opened
  { p.consume (g.pair i).opener.length with statementStart := body || (g.pair i).holdsStatements }

/-- Whether a closing bracket closes a context. -/
def closes (g : Grammar) (i : Nat) : Context → Bool
  | .block j _ => j = i
  | .body _ none => g.isBodyPair i
  | .body _ (some _) | .literal _ _ | .comment _ => false

/-- Ignore a closing bracket that has no opener. -/
def strayClose (p : Pass) (closer : List Char) : Pass :=
  let q := p.consume closer.length
  q.report
    { kind := .unbalancedBlock
      span := q.cursor.spanFrom p.cursor.position
      message := s!"stray `{String.ofList closer}` ignored" }

/-- Close the context with `k` contexts inside it, which are closed along with it. -/
def closeThrough (p : Pass) (g : Grammar) (i k : Nat) (closed : Context) : Pass :=
  let closer := (g.pair i).closer
  let p := (p.nesting.contexts.take k).foldl (unwind g p.cursor.position (some closer)) p
  let p := { p with nesting := { p.nesting with contexts := p.nesting.contexts.drop (k + 1) } }
  let p := p.consume closer.length
  let p := if closed.isBody then p.emit (.bodyLeft p.cursor.position) else p
  let p := (p.emit (.blockClosed p.nesting.depth)).dropStaleBody
  { p with statementStart := (closed.isBody || (g.pair i).holdsStatements) && p.inStatements g }

/-- Close a bracket. -/
def closeBlock (p : Pass) (g : Grammar) (i : Nat) : Pass :=
  let closer := (g.pair i).closer
  let p := p.emit (.bracketClosed i p.cursor.position)
  if 0 < p.nesting.overflow then { p with nesting := p.nesting.absorb }.consume closer.length
  else
    match p.nesting.contexts.findIdx? (closes g i) with
    | none => p.strayClose closer
    | some k =>
      match p.nesting.contexts[k]? with
      | none => p.strayClose closer
      | some closed => p.closeThrough g i k closed

/-! ## Indentation bodies -/

/-- Open the indentation body of the anchor that waits for it. -/
def openIndentBody (p : Pass) (opener : List Char) : Pass :=
  let opened := p.cursor.position
  let p := match p.pendingBody with
    | none => p
    | some pending =>
      let p := { p with pendingBody := none }
      if p.assembly.canEnterBody then
        let opening := p.nesting.opening
        let p := { p with nesting := p.nesting.push (.body opened (some pending.indent)) }
        match opening with
        | .entered => p.emit (.bodyEntered opened)
        -- an indentation body has no closer that could take the count back
        | .overflowed first => { p with nesting := p.nesting.absorb }.tooDeep first opened
      else p
  p.consume opener.length

/-- End the innermost indentation bodies that a line with the given indentation leaves. -/
def leaveBodies (indent : Nat) : List Context → Pass → Pass
  | .body _ (some level) :: outer, p =>
    if level < indent then p
    else
      let p := { p with nesting := { p.nesting with contexts := outer } }
      leaveBodies indent outer ((p.emit (.bodyLeft p.lastEnd)).emit (.blockClosed outer.length))
  | _, p => p

/-- End the indentation bodies that the cursor's line leaves. -/
def dedent (p : Pass) (g : Grammar) : Pass :=
  if g.indents then (leaveBodies p.cursor.lineIndent p.nesting.contexts p).dropStaleBody else p

end Marginalia.Pass
