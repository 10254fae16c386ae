import Marginalia.Language.Anchors
import Marginalia.Outline

/-!
# Arguments of tags

The arguments of a tag stand in parentheses, separated by commas, or follow its name as words,
where a type comes first and in braces. Arguments that do not fit the tag's definition are kept as
one raw argument, with a diagnostic.
-/

namespace Marginalia.Arguments

/-- The arguments of a tag, what is wrong with them, and the text after them. -/
structure Reading where
  arguments : List Argument
  diagnostics : List Diagnostic
  rest : List Char
deriving DecidableEq, Repr

/-- The tag an argument belongs to and where its header stands, for diagnostics. -/
structure Site where
  tag : String
  span : Span

/-- A diagnostic about arguments, with the text kept for them. -/
def Site.malformed (s : Site) (why : String) (raw : List Char) : Diagnostic where
  kind := .malformedArgument
  span := s.span
  message := s!"@{s.tag}: {why}"
  recovered := some (String.ofList raw)

/-- All arguments kept as one raw text. -/
def Site.keepRaw (s : Site) (why : String) (raw rest : List Char) : Reading :=
  ⟨[.raw (String.ofList raw)], [s.malformed why raw], rest⟩

/-! ## Checking -/

/-- The marks a text may be quoted with. -/
def quotes : List Char := ['\x22', '\x27', '\x60']

/-- The text without the quotes around it. -/
def unquote (text : List Char) : List Char :=
  if 2 ≤ text.length ∧ quotes.any (fun q => text.head? = some q && text.getLast? = some q) then
    (text.drop 1).dropLast
  else text

/-- A name: a letter, the underscore or the dollar sign, then word characters or dollar signs. -/
def isName : List Char → Bool
  | [] => false
  | c :: cs => Grammar.isNameStart c && cs.all Grammar.isNamePart

/-- A path of names joined by dots. -/
def isPath (text : List Char) : Bool := (Text.pieces (· = '.') text).all isName

/-- The value of a text in a slot, or why it does not fit. -/
def check (s : Slot) (text : List Char) : Except String (List Char) :=
  match s.kind with
  | .identifier =>
    if isPath text then .ok text
    else .error s!"`{String.ofList text}` is not an identifier for `{s.name}`"
  | .string => .ok (unquote text)
  | .typeExpression =>
    if text.isEmpty then .error s!"empty type expression for `{s.name}`" else .ok text
  | .freeText => .ok text

/-- The argument that a value makes in a slot. -/
def fill (s : Slot) (value : List Char) : Argument := .parsed s.name s.kind (String.ofList value)

/-- Fill slots with texts one by one; the first that does not fit ends it. -/
def fillAll : List Slot → List (List Char) → Except String (List Argument)
  | s :: ss, t :: ts => do
    let value ← check s t
    return fill s value :: (← fillAll ss ts)
  | _, _ => .ok []

/-- The arguments that texts make for a tag, or why they do not fit. -/
def ofTexts (d : TagDefinition) (texts : List (List Char)) : Except String (List Argument) :=
  let most := d.slots.length
  if texts.length < d.requiredArity ∨ most < texts.length then
    if d.requiredArity = most then
      .error s!"expected {most} argument(s), found {texts.length}"
    else .error s!"expected {d.requiredArity} to {most} arguments, found {texts.length}"
  else fillAll d.slots texts

/-! ## In parentheses -/

/-- Where a splitter stands: how many brackets are open, and whether it is inside a quotation, and
there just after a backslash. -/
structure Splitter where
  depth : Nat := 0
  quotation : Option Char := none
  escaped : Bool := false
deriving DecidableEq, Repr

/-- The splitter after one more character that neither separates nor closes. -/
def Splitter.step (s : Splitter) (c : Char) : Splitter :=
  match s.quotation with
  | some q =>
    if s.escaped then { s with escaped := false }
    else if c = '\\' then { s with escaped := true }
    else if c = q then { s with quotation := none }
    else s
  | none =>
    if quotes.contains c then { s with quotation := some c }
    else if c = '(' || c = '[' || c = '\x7b' || c = '<' then { s with depth := s.depth + 1 }
    else if c = ')' || c = ']' || c = '\x7d' || c = '>' then { s with depth := s.depth - 1 }
    else s

/-- Outside of brackets and quotations. -/
def Splitter.atTop (s : Splitter) : Bool := s.depth = 0 && s.quotation.isNone

/-- The parts of a text between top-level commas, up to the closing parenthesis, and the text
after it. -/
def split? (s : Splitter) : List Char → Option (List (List Char) × List Char)
  | [] => none
  | c :: cs =>
    if s.atTop && c = ')' then some ([[]], cs)
    else if s.atTop && c = ',' then (split? s cs).map fun (parts, rest) => ([] :: parts, rest)
    else (split? (s.step c) cs).map fun (parts, rest) =>
      match parts with
      | [] => ([[c]], rest)
      | part :: parts => ((c :: part) :: parts, rest)

/-- The trimmed parts of an argument list; a single blank part is none. -/
def trimParts (parts : List (List Char)) : List (List Char) :=
  let trimmed := parts.map Text.trim
  if trimmed = [[]] then [] else trimmed

/-- The arguments in parentheses, after the opening one. A tag without a definition keeps each of
them raw. -/
def parenthesised (s : Site) (d : Option TagDefinition) (inner : List Char) : Reading :=
  match split? {} inner with
  | none => s.keepRaw "unbalanced parentheses" (Text.trim inner) []
  | some (parts, rest) =>
    match d with
    | none => ⟨(trimParts parts).map (.raw <| String.ofList ·), [], rest⟩
    | some d =>
      match ofTexts d (trimParts parts) with
      | .ok arguments => ⟨arguments, [], rest⟩
      | .error why =>
        s.keepRaw why (Text.trim (inner.take (inner.length - rest.length - 1))) rest

/-! ## As words -/

/-- What the slots make of the words: the reading so far, or the end of reading. -/
abbrev Words := Except Reading Reading

/-- Note that a required slot has no word. -/
def missing (s : Site) (slot : Slot) (r : Reading) : Reading :=
  if slot.optional then r
  else { r with diagnostics := r.diagnostics ++ [s.malformed s!"missing `{slot.name}`" []] }

/-- Fill one slot from the words that are left. Types are not read from words, a free text takes
all of them, and a word that does not fit an optional slot is left for the next one. -/
def fillWord (s : Site) (raw : List Char) (r : Reading) (slot : Slot) : Words :=
  match slot.kind with
  | .typeExpression => .ok r
  | .freeText =>
    if r.rest.isEmpty then .ok (missing s slot r)
    else .ok { r with arguments := r.arguments ++ [fill slot r.rest], rest := [] }
  | .identifier | .string =>
    let word := r.rest.takeWhile (!Text.isBlank ·)
    if word.isEmpty then .ok (missing s slot r)
    else
      match check slot word with
      | .ok value =>
        .ok { r with
          arguments := r.arguments ++ [fill slot value]
          rest := Text.trimStart (r.rest.drop word.length) }
      | .error why =>
        if slot.optional then .ok r
        else .error
          ⟨[.raw (String.ofList raw)], r.diagnostics ++ [s.malformed why raw], []⟩

/-- The type in braces at the start of the words, if the tag takes one. -/
def leadingType (s : Site) (d : TagDefinition) (text : List Char) : Words :=
  let words := Text.trimStart text
  match d.slots.find? (·.kind = .typeExpression), words with
  | some slot, '\x7b' :: inner =>
    match inner.dropWhile (· ≠ '\x7d') with
    | [] => .error (s.keepRaw "unclosed `\x7b` in type" (Text.trim text) [])
    | _ :: rest =>
      .ok ⟨[fill slot (Text.trim (inner.takeWhile (· ≠ '\x7d')))], [], Text.trimStart rest⟩
  | _, _ => .ok ⟨[], [], words⟩

/-- The arguments that stand as words after a tag's name. -/
def asWords (s : Site) (d : TagDefinition) (text : List Char) : Reading :=
  match (leadingType s d text).bind (d.slots.foldlM (fillWord s (Text.trim text))) with
  | .ok r => r
  | .error r => r

/-- The arguments of a tag, given the text after its name. -/
def read (s : Site) (d : Option TagDefinition) (text : List Char) : Reading :=
  match text, d with
  | '(' :: inner, _ => parenthesised s d inner
  | _, some d => asWords s d text
  | _, none => ⟨[], [], text⟩

end Marginalia.Arguments
