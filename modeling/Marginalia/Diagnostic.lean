import Marginalia.Position

/-!
# Diagnostics

Nothing in a source text makes a scan fail. What is wrong with it becomes a diagnostic, reported
next to the outline. Mistakes of the caller are usage errors.
-/

namespace Marginalia

/-- What a diagnostic reports. -/
inductive DiagnosticKind where
  | unknownTag
  | malformedArgument
  | duplicateTag
  | unterminatedComment
  | unterminatedString
  | unterminatedBlock
  | unbalancedBlock
  | nestingTooDeep
  | unresolvedTag
deriving DecidableEq, Repr

namespace DiagnosticKind

/-- The kind as it stands in reports. -/
def label : DiagnosticKind → String
  | unknownTag => "unknown-tag"
  | malformedArgument => "malformed-argument"
  | duplicateTag => "duplicate-tag"
  | unterminatedComment => "unterminated-comment"
  | unterminatedString => "unterminated-string"
  | unterminatedBlock => "unterminated-block"
  | unbalancedBlock => "unbalanced-block"
  | nestingTooDeep => "nesting-too-deep"
  | unresolvedTag => "unresolved-tag"

/-- Kinds that come from mending the structure of the code, not from checking tags. -/
def isRecovery : DiagnosticKind → Bool
  | unterminatedComment | unterminatedString | unterminatedBlock | unbalancedBlock
  | nestingTooDeep => true
  | unknownTag | malformedArgument | duplicateTag | unresolvedTag => false

end DiagnosticKind

/-- A problem found in a source text. -/
structure Diagnostic where
  kind : DiagnosticKind
  span : Span
  message : String
  /-- The text kept in place of what was expected. -/
  recovered : Option String := none
deriving DecidableEq, Repr

/-- A diagnostic as `LINE:COLUMN: KIND: MESSAGE`. -/
def Diagnostic.render (d : Diagnostic) : String :=
  s!"{d.span.start.render}: {d.kind.label}: {d.message}"

/-- A diagnostic as `FILE:LINE:COLUMN: KIND: MESSAGE`. -/
def Diagnostic.renderIn (d : Diagnostic) (file : String) : String := s!"{file}:{d.render}"

/-- A mistake in how the library is called. -/
inductive UsageError where
  | unknownLanguage (id : String)
  | duplicateLanguage (id : String)
  | duplicateTag (name : String)
  | unknownFormat (format : String)
deriving DecidableEq, Repr

/-- The text of a usage error. -/
def UsageError.message : UsageError → String
  | unknownLanguage id => s!"unknown language: {id}"
  | duplicateLanguage id => s!"language already registered: {id}"
  | duplicateTag name => s!"tag already registered: @{name}"
  | unknownFormat format => s!"unknown format: {format}. Use markdown, tree, or json"

end Marginalia
