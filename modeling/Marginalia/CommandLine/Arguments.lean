import Marginalia.Count

/-!
# Command line arguments

Options come in a long and a short form. A value follows its option as the next argument, or is
attached to it. No option may be given twice. Two hyphens end the options.
-/

namespace Marginalia.CommandLine

/-- Options that take a value. -/
inductive ValueOption where
  | lang
  | format
  | output
  | maxBlankLines
  | maxDepth
deriving DecidableEq, Repr

/-- Options that stand alone. -/
inductive Flag where
  | strict
  | verbose
  | help
deriving DecidableEq, Repr

/-- An option. -/
inductive Switch where
  | value (o : ValueOption)
  | flag (f : Flag)
deriving DecidableEq, Repr

/-- The option with a long name. -/
def Switch.ofLong? : String → Option Switch
  | "lang" => some (.value .lang)
  | "format" => some (.value .format)
  | "output" => some (.value .output)
  | "max-blank-lines" => some (.value .maxBlankLines)
  | "max-depth" => some (.value .maxDepth)
  | "strict" => some (.flag .strict)
  | "verbose" => some (.flag .verbose)
  | "help" => some (.flag .help)
  | _ => none

/-- The option with a short name. -/
def Switch.ofShort? : Char → Option Switch
  | 'l' => some (.value .lang)
  | 'f' => some (.value .format)
  | 'o' => some (.value .output)
  | 'v' => some (.flag .verbose)
  | 'h' => some (.flag .help)
  | _ => none

/-- The arguments of a run. -/
structure Arguments where
  files : List String := []
  lang : Option String := none
  format : Option String := none
  output : Option String := none
  maxBlankLines : Option Nat := none
  maxDepth : Option Nat := none
  strict : Bool := false
  verbose : Bool := false
deriving DecidableEq, Repr

/-- Why arguments are not run with. -/
inductive Refusal where
  /-- They are not understood. -/
  | misuse
  /-- They ask for help. -/
  | help
deriving DecidableEq, Repr

/-- A count: digits, with a plus sign before them or not, that a 64-bit word holds. -/
def count? (s : String) : Option Nat :=
  let digits := match s.toList with
    | '+' :: rest => rest
    | all => all
  if digits.isEmpty || !digits.all Char.isDigit then none
  else
    let n := digits.foldl (fun n c => 10 * n + (c.toNat - 48)) 0
    if n < wordBound then some n else none

/-- Set what is not yet set. -/
def once {α : Type} (old : Option α) (new : α) : Except Refusal (Option α) :=
  if old.isSome then .error .misuse else .ok (some new)

namespace Arguments

/-- Take a value for an option. -/
def setValue (a : Arguments) (o : ValueOption) (value : String) : Except Refusal Arguments :=
  match o with
  | .lang => do return { a with lang := ← once a.lang value }
  | .format => do return { a with format := ← once a.format value }
  | .output =>
    if value.isEmpty then .error .misuse else do return { a with output := ← once a.output value }
  | .maxBlankLines =>
    match count? value with
    | none => .error .misuse
    | some n => do return { a with maxBlankLines := ← once a.maxBlankLines n }
  | .maxDepth =>
    match count? value with
    | none => .error .misuse
    | some n => do return { a with maxDepth := ← once a.maxDepth n }

/-- Take a flag. -/
def setFlag (a : Arguments) : Flag → Except Refusal Arguments
  | .strict => if a.strict then .error .misuse else .ok { a with strict := true }
  | .verbose => if a.verbose then .error .misuse else .ok { a with verbose := true }
  | .help => .error .help

end Arguments

/-- The arguments so far, and the option whose value comes next. -/
structure Reader where
  arguments : Arguments := {}
  awaiting : Option ValueOption := none

/-- Read a long option without its hyphens. -/
def readLong (a : Arguments) (text : List Char) : Except Refusal Reader :=
  let name := text.takeWhile (· ≠ '=')
  let attached := (text.drop name.length).tail?
  match Switch.ofLong? (String.ofList name), attached with
  | none, _ | some (.flag _), some _ => .error .misuse
  | some (.flag f), none => do return { arguments := ← a.setFlag f }
  | some (.value o), some value => do return { arguments := ← a.setValue o (String.ofList value) }
  | some (.value o), none => .ok { arguments := a, awaiting := some o }

/-- Read short options without their hyphen. What follows one that takes a value is its value. -/
def readShort (a : Arguments) : List Char → Except Refusal Reader
  | [] => .ok { arguments := a }
  | c :: cs =>
    match Switch.ofShort? c with
    | none => .error .misuse
    | some (.flag f) => do readShort (← a.setFlag f) cs
    | some (.value o) =>
      match cs with
      | [] => .ok { arguments := a, awaiting := some o }
      | '=' :: value | value => do return { arguments := ← a.setValue o (String.ofList value) }

/-- Read the arguments that are left. An argument that looks like an option is never a value. -/
def readAll (r : Reader) : List String → Except Refusal Arguments
  | [] => if r.awaiting.isSome then .error .misuse else .ok r.arguments
  | arg :: args =>
    match arg.toList with
    | ['-', '-'] =>
      if r.awaiting.isSome then .error .misuse
      else .ok { r.arguments with files := r.arguments.files ++ args }
    | '-' :: '-' :: text =>
      if r.awaiting.isSome then .error .misuse else do readAll (← readLong r.arguments text) args
    | '-' :: c :: text =>
      if r.awaiting.isSome then .error .misuse
      else do readAll (← readShort r.arguments (c :: text)) args
    | _ =>
      match r.awaiting with
      | some o => do readAll { arguments := ← r.arguments.setValue o arg } args
      | none =>
        readAll { arguments := { r.arguments with files := r.arguments.files ++ [arg] } } args

/-- The arguments of a run. -/
def Arguments.read (args : List String) : Except Refusal Arguments := readAll {} args

end Marginalia.CommandLine
