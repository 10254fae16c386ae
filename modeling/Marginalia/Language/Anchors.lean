import Marginalia.Iteration
import Marginalia.Language.Lookahead
import Marginalia.Text.Word

/-!
# Recognising anchors

The header of an anchor at the start of a statement: modifiers, then a keyword and a name, or a
name and what is assigned to it, or, in a class body, a method written without a keyword. Every
function here takes the text ahead and returns what it leaves of it.
-/

namespace Marginalia

/-- An anchor recognised at the start of a text. -/
structure Recognition where
  kind : AnchorKind
  name : List Char
  /-- The text after the header. -/
  rest : List Char
deriving DecidableEq, Repr

/-- The number of characters of the header of an anchor recognised at the start of a text. -/
def Recognition.headerLength (r : Recognition) (text : List Char) : Nat :=
  text.length - r.rest.length

namespace Grammar

/-- The text without the spaces and tabs it starts with. -/
def dropInline (s : List Char) : List Char := s.dropWhile Text.isInlineBlank

/-! ## Words -/

/-- The text after a keyword, which no identifier may go on. -/
def keyword? (g : Grammar) (text keyword : List Char) : Option (List Char) :=
  match keyword.isPrefixOf? text with
  | none => none
  | some rest => if rest.head?.any g.isIdentPart then none else some rest

/-- The text after one modifier and the blanks that have to follow it. -/
def modifier? (g : Grammar) (text : List Char) : Option (List Char) :=
  g.modifiers.findSome? fun m =>
    match g.keyword? text m with
    | none => none
    | some rest => if rest.head?.any Text.isInlineBlank then some (dropInline rest) else none

/-- The text after all modifiers. -/
def skipModifiers (g : Grammar) (text : List Char) : List Char :=
  iterate g.modifier? text.length text

/-! ## Names after a keyword -/

/-- The identifier that follows, a star set aside. Functions and classes may do without. -/
def followingIdent? (g : Grammar) (kind : AnchorKind) (text : List Char) : Option Recognition :=
  let named := match text with
    | '*' :: rest => dropInline rest
    | _ => text
  match g.ident? named with
  | some i => some ⟨kind, i, named.drop i.length⟩
  | none => if kind = .functionDecl ∨ kind = .classDecl then some ⟨kind, [], text⟩ else none

/-- The text after the parenthesis that closes `depth` open ones, on the same line. -/
def closeParens? : (depth : Nat) → List Char → Option (List Char)
  | _, [] => none
  | depth, c :: cs =>
    if c = '(' then closeParens? (depth + 1) cs
    else if c = ')' then
      match depth with
      | 0 => none
      | 1 => some cs
      | d + 2 => closeParens? (d + 1) cs
    else if c = '\n' then none
    else closeParens? depth cs

/-- The identifier after a parenthesised receiver makes a method. -/
def afterReceiver? (g : Grammar) (kind : AnchorKind) (text : List Char) : Option Recognition :=
  match text with
  | '(' :: inner => do
    let text := dropInline (← closeParens? 1 inner)
    let i ← g.ident? text
    return ⟨.methodDecl, i, text.drop i.length⟩
  | _ => g.followingIdent? kind text

/-- The text between double quotes. -/
def quotedName? (kind : AnchorKind) (text : List Char) : Option Recognition :=
  match text with
  | '\x22' :: inner =>
    match inner.dropWhile (· ≠ '\x22') with
    | [] => none
    | _ :: rest => some ⟨kind, inner.takeWhile (· ≠ '\x22'), rest⟩
  | _ => none

/-- The name that a rule finds after its keyword. -/
def ruleName? (g : Grammar) (r : AnchorRule) (text : List Char) : Option Recognition :=
  match r.naming with
  | .followingIdent => g.followingIdent? r.kind text
  | .afterReceiver => g.afterReceiver? r.kind text
  | .quoted => quotedName? r.kind text

/-- The anchor that a keyword introduces; the first rule that fits decides. -/
def keywordAnchor? (g : Grammar) (text : List Char) : Option Recognition :=
  g.anchorRules.findSome? fun r =>
    (g.keyword? text r.keyword).bind fun rest => g.ruleName? r (dropInline rest)

/-! ## Assigned anchors -/

/-- The last segment of a dotted path, whether it has more than one, and the text after it. A dot
has to be followed by a segment. -/
def dottedPath? (g : Grammar) : (fuel : Nat) → (qualified : Bool) → List Char →
    Option (List Char × Bool × List Char)
  | 0, _, _ => none
  | fuel + 1, qualified, text =>
    match g.ident? text with
    | none => none
    | some i =>
      match text.drop i.length with
      | '.' :: rest => dottedPath? g fuel true rest
      | rest => some (i, qualified, rest)

/-- The text after an assignment operator, which `=` and `>` may not follow. -/
def operator? (r : AssignmentRule) (text : List Char) : Option (List Char) :=
  r.operators.findSome? fun op =>
    match op.isPrefixOf? text with
    | none => none
    | some rest => if rest.head? = some '=' ∨ rest.head? = some '>' then none else some rest

/-- The text before the first occurrence of a token. -/
def before? (token : List Char) : List Char → Option (List Char)
  | [] => if token.isEmpty then some [] else none
  | c :: cs => if token.isPrefixOf (c :: cs) then some [] else (before? token cs).map (c :: ·)

/-- An ASCII letter, the underscore or the dollar sign. -/
def isNameStart (c : Char) : Bool := c.isAlpha || c = '_' || c = '$'

/-- A word character or the dollar sign. -/
def isNamePart (c : Char) : Bool := Text.isWord c || c = '$'

/-- What may follow the parameters of an arrow function: nothing, or a return type. -/
def isArrowTail (text : List Char) : Bool :=
  match Text.trimStart text with
  | [] => true
  | c :: cs => c = ':' && cs.all (· ≠ '=')

/-- The parameters of an arrow function: one name, or a list in parentheses that holds none. -/
def isArrowParams : List Char → Bool
  | [] => false
  | c :: cs =>
    if c = '(' then
      match cs.dropWhile (fun c => c ≠ '(' && c ≠ ')') with
      | ')' :: tail => isArrowTail tail
      | _ => false
    else isNameStart c && isArrowTail (cs.dropWhile isNamePart)

/-- The head of an arrow function, which may be asynchronous. -/
def isArrowHead (text : List Char) : Bool :=
  (match "async".toList.isPrefixOf? text with
    | some rest => rest.head?.any Text.isBlank && isArrowParams (Text.trimStart rest)
    | none => false) ||
  isArrowParams text

/-- The kind of anchor that an assigned value makes. -/
def valueKind? (g : Grammar) (r : AssignmentRule) (value : List Char) : Option AnchorKind :=
  match r.values.find? fun v => (g.keyword? value v.1).isSome with
  | some v => some v.2
  | none => do
    let head ← before? (← r.arrow) (Text.firstLine value)
    if isArrowHead (Text.trimEnd head) then some .functionDecl else none

/-- The anchor named by the path in front of an assignment. A function assigned to a path of
several segments is a method. -/
def assignedAnchor? (g : Grammar) (r : AssignmentRule) (text : List Char) : Option Recognition := do
  let (name, qualified, rest) ← g.dottedPath? text.length false text
  let rest ← operator? r (dropInline rest)
  let kind ← g.valueKind? r (dropInline rest)
  return ⟨if kind = .functionDecl ∧ qualified then .methodDecl else kind, name, rest⟩

/-! ## Methods without a keyword -/

/-- The words that may stand before a method's name. -/
def methodModifiers : List (List Char) :=
  ["static", "async", "get", "set", "public", "private", "protected", "readonly"].map String.toList

/-- The words that are followed by a parenthesis and name no method. -/
def controlKeywords : List (List Char) :=
  ["if", "for", "while", "switch", "catch", "return", "function", "with", "do", "else", "new",
   "typeof", "await", "yield", "super"].map String.toList

/-- A method's name, with a star before it or not, when a parenthesis follows, and the text after
the name. -/
def methodName? (text : List Char) : Option (List Char × List Char) :=
  let text := Text.trimStart (match text with
    | '*' :: rest => rest
    | _ => text)
  match text with
  | [] => none
  | c :: cs =>
    let rest := cs.dropWhile isNamePart
    if (isNameStart c || c = '#') && (Text.trimStart rest).head? = some '(' then
      some (c :: cs.takeWhile isNamePart, rest)
    else none

/-- A method's name after as many modifiers as leave one. -/
def methodHead? : (fuel : Nat) → List Char → Option (List Char × List Char)
  | 0, _ => none
  | fuel + 1, text =>
    let modified := methodModifiers.findSome? fun m =>
      match m.isPrefixOf? text with
      | none => none
      | some rest => if rest.head?.any Text.isBlank then some (Text.trimStart rest) else none
    match modified.bind (methodHead? fuel) with
    | some found => some found
    | none => methodName? text

/-- The method that starts here without a keyword. -/
def shorthandMethod? (text : List Char) : Option Recognition :=
  match methodHead? (text.length + 1) text with
  | none => none
  | some (name, rest) =>
    if controlKeywords.contains name then none else some ⟨.methodDecl, name, rest⟩

/-! ## Anchors -/

/-- The anchor that starts here, given the kind of the anchor whose body encloses it. A function
in a class body is a method. -/
def recognise? (g : Grammar) (text : List Char) (enclosing : Option AnchorKind) :
    Option Recognition :=
  let body := g.skipModifiers text
  let found :=
    (g.keywordAnchor? body).or
      ((g.assignment.bind (g.assignedAnchor? · body)).or
        (if g.methodShorthand && enclosing = some .classDecl then shorthandMethod? text else none))
  found.map fun r =>
    if r.kind = .functionDecl ∧ enclosing = some .classDecl then { r with kind := .methodDecl }
    else r

end Grammar

end Marginalia
