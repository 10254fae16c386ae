import Marginalia.CommandLine.Arguments
import Marginalia.Document.Format
import Marginalia.File.Search
import Marginalia.Scan.Run

/-!
# Sessions

A session scans a text from standard input, or every file that its arguments name, and writes one
document for each. It is a function of its arguments, its input and the file tree; what it writes
is part of its outcome.
-/

namespace Marginalia.CommandLine

/-- Why a session ends early. -/
structure Failure where
  message : String
  cause : Option String := none
deriving DecidableEq, Repr

/-- The text of a failure. -/
def Failure.render (f : Failure) : String :=
  s!"Error: {f.message}\n" ++
    match f.cause with
    | none => ""
    | some cause => "\nCaused by:\n    " ++ "\n    ".intercalate (cause.splitOn "\n") ++ "\n"

/-- What a session has written so far. -/
structure Session where
  files : FileTree
  stdout : String := ""
  stderr : String := ""
  /-- The number of diagnostics reported. -/
  diagnostics : Nat := 0

/-- A part of a session. What is written before a failure stays written. -/
abbrev Task := ExceptT Failure (StateM Session)

/-- What a run leaves behind. -/
structure Outcome where
  code : Nat
  stdout : String
  stderr : String
  files : FileTree

/-- Fail. -/
def fail {α : Type} (message : String) : Task α := throw { message }

/-- Fail, with a cause. -/
def failBecause {α : Type} (message cause : String) : Task α := throw ⟨message, some cause⟩

/-- Write to standard output. -/
def print (text : String) : Task Unit := modify fun s => { s with stdout := s.stdout ++ text }

/-- Write a line to standard error. -/
def warn (line : String) : Task Unit :=
  modify fun s => { s with stderr := s.stderr ++ line ++ "\n" }

namespace Arguments

/-- The options of the scans. -/
def scanOptions (a : Arguments) : ScanOptions :=
  let default : ScanOptions := {}
  { default with
    maxBlankLines := a.maxBlankLines.getD default.maxBlankLines
    maxDepth := a.maxDepth.getD default.maxDepth }

/-- The format of the documents. -/
def documentFormat (a : Arguments) : Except UsageError Format :=
  Format.ofName (a.format.getD "markdown")

/-- The language of a file: the one asked for, or the one its extension tells. -/
def languageFor? (a : Arguments) (path : String) : Option String :=
  match a.lang with
  | some language => some language
  | none =>
    (Path.extension? path).bind fun e => (Catalogue.builtin.forExtension? e).map (·.name)

end Arguments

/-- The format asked for, or the failure that there is none. -/
def requireFormat (a : Arguments) : Task Format :=
  match a.documentFormat with
  | .ok format => return format
  | .error e => fail e.message

/-- Scan a text and report its diagnostics under a label. -/
def scanText (a : Arguments) (label language source : String) : Task Findings := do
  match scan .builtin .standard a.scanOptions language source with
  | .error e => failBecause s!"cannot scan {label}" e.message
  | .ok found =>
    found.diagnostics.forM fun d => warn (d.renderIn label)
    modify fun s => { s with diagnostics := s.diagnostics + found.diagnostics.length }
    return found

/-- Scan standard input and print its document. -/
def fromInput (a : Arguments) (stdin : ByteArray) : Task Unit := do
  match a.lang with
  | none => fail "--lang is required when reading stdin"
  | some language =>
    match String.fromUTF8? stdin with
    | none => failBecause "failed to read stdin" FileError.notText.message
    | some source =>
      let found ← scanText a "<stdin>" language source
      let format ← requireFormat a
      print (format.render "<stdin>" found)

/-! ## Files -/

/-- The files that an argument names: a file itself, the files of a directory in a known language,
or the matches of a pattern. -/
def expand (a : Arguments) (pattern : String) : Task (List String) := do
  let files := (← get).files
  if files.isFile pattern then return [pattern]
  else if files.isDirectory pattern then
    return (files.children pattern).filter fun p => files.isFile p && (a.languageFor? p).isSome
  else
    match Search.files files pattern with
    | .error e => failBecause s!"invalid glob pattern: {pattern}" e.message
    | .ok [] =>
      warn s!"warning: no files matched: {pattern}"
      return []
    | .ok found => return found

/-- The name of the document of a file, in a directory. -/
def documentPath (directory path : String) (format : Format) : String :=
  Path.join directory ((Path.stem? path).getD "out" ++ "." ++ format.fileExtension)

/-- Write a document into the output directory, or print it. -/
def writeDocument (a : Arguments) (format : Format) (path document : String) : Task Unit := do
  match a.output with
  | none => print document
  | some directory =>
    let target := documentPath directory path format
    match (← get).files.writeText target document with
    | .error e => failBecause s!"failed to write {target}" e.message
    | .ok files => modify fun s => { s with files }

/-- Scan a file and write its document. A file in no known language is left out. -/
def fromFile (a : Arguments) (format : Format) (path : String) : Task Unit := do
  match a.languageFor? path with
  | none => warn s!"warning: skipping {path}: unrecognized extension"
  | some language =>
    match (← get).files.readText path with
    | .error e => failBecause s!"failed to read {path}" e.message
    | .ok source =>
      let found ← scanText a path language source
      writeDocument a format path (format.render path found)

/-- Make the output directory, if one is asked for. -/
def prepareOutput (a : Arguments) : Task Unit := do
  match a.output with
  | none => return
  | some directory =>
    match (← get).files.makeDirectories (Path.ancestors directory) with
    | .error e => failBecause s!"failed to create output directory: {directory}" e.message
    | .ok files => modify fun s => { s with files }

/-- The input files of a session, in order and without repetition. -/
def inputFiles (a : Arguments) : Task (List String) := do
  return Path.sortDistinct (← a.files.mapM (expand a)).flatten

/-- Scan every input file and write its document. -/
def fromFiles (a : Arguments) : Task Unit := do
  let format ← requireFormat a
  prepareOutput a
  (← inputFiles a).forM (fromFile a format)

/-! ## Runs -/

/-- The work of a session. A strict one fails if there are diagnostics. -/
def session (a : Arguments) (stdin : ByteArray) : Task Unit := do
  if a.files.isEmpty then fromInput a stdin else fromFiles a
  let reported := (← get).diagnostics
  if a.strict && 0 < reported then fail s!"{reported} diagnostic(s) reported"

/-- What the program is for and how it is called. -/
def usage : String :=
  "Extract documentation tags from annotated source files\n\n" ++
  "Usage: marginalia [OPTIONS] [FILES]...\n\n" ++
  "Arguments:\n" ++
  "  [FILES]...  Input files, patterns and directories; without any, reads from stdin\n\n" ++
  "Options:\n" ++
  "  -l, --lang <LANG>          Language; required for stdin, else told by extension\n" ++
  "  -f, --format <FORMAT>      Output format: markdown (default), tree, json\n" ++
  "  -o, --output <DIRECTORY>   Output directory; without it, writes to stdout\n" ++
  "      --max-blank-lines <N>  Blank lines allowed between a comment and its code\n" ++
  "      --max-depth <N>        Nesting depth to keep track of\n" ++
  "      --strict               Fail if any diagnostic was reported\n" ++
  "  -v, --verbose              Accepted and ignored\n" ++
  "  -h, --help                 Print help\n"

/-- Run the program on its arguments, standard input and file tree. -/
def run (args : List String) (stdin : ByteArray) (files : FileTree) : Outcome :=
  match Arguments.read args with
  | .error .help => ⟨0, usage, "", files⟩
  | .error .misuse => ⟨2, "", "error: invalid arguments; try --help\n", files⟩
  | .ok a =>
    match (session a stdin).run { files } with
    | (.ok (), s) => ⟨0, s.stdout, s.stderr, s.files⟩
    | (.error f, s) => ⟨1, s.stdout, s.stderr ++ f.render, s.files⟩

end Marginalia.CommandLine
