import Marginalia.Json.Value

/-!
# Reading JSON

Each reader takes a text and returns a value and the text after it. Nesting is not limited: the
bound that makes the reader total is the length of the text.
-/

namespace Marginalia.Json

/-- A text without the blanks it starts with. -/
def skipBlanks (s : List Char) : List Char :=
  s.dropWhile fun c => c = ' ' || c = '\t' || c = '\n' || c = '\r'

/-! ## Texts -/

/-- The value of a hexadecimal digit. -/
def hexValue? (c : Char) : Option Nat :=
  if c.isDigit then some (c.toNat - 48)
  else if 'a' ≤ c ∧ c ≤ 'f' then some (c.toNat - 87)
  else if 'A' ≤ c ∧ c ≤ 'F' then some (c.toNat - 55)
  else none

/-- The code unit of four hexadecimal digits, and the text after them. -/
def codeUnit? : List Char → Option (Nat × List Char)
  | a :: b :: c :: d :: rest => do
    return (4096 * (← hexValue? a) + 256 * (← hexValue? b) + 16 * (← hexValue? c) + (← hexValue? d),
      rest)
  | _ => none

/-- The character of an escaped code unit, or of two that make a surrogate pair. -/
def escapedUnit? (s : List Char) : Option (Char × List Char) := do
  let (high, rest) ← codeUnit? s
  if 0xD800 ≤ high ∧ high < 0xDC00 then
    match rest with
    | '\\' :: 'u' :: rest =>
      let (low, rest) ← codeUnit? rest
      if 0xDC00 ≤ low ∧ low < 0xE000 then
        return (Char.ofNat (0x10000 + 1024 * (high - 0xD800) + (low - 0xDC00)), rest)
      else none
    | _ => none
  else if 0xDC00 ≤ high ∧ high < 0xE000 then none
  else return (Char.ofNat high, rest)

/-- The character of an escape, after its backslash. -/
def escaped? : List Char → Option (Char × List Char)
  | '\x22' :: rest => some ('\x22', rest)
  | '\\' :: rest => some ('\\', rest)
  | '/' :: rest => some ('/', rest)
  | 'b' :: rest => some ('\x08', rest)
  | 'f' :: rest => some ('\x0c', rest)
  | 'n' :: rest => some ('\n', rest)
  | 'r' :: rest => some ('\r', rest)
  | 't' :: rest => some ('\t', rest)
  | 'u' :: rest => escapedUnit? rest
  | _ => none

/-- The characters of a text after its opening quote, up to the closing one. -/
def readText : (fuel : Nat) → List Char → Option (List Char × List Char)
  | 0, _ => none
  | _ + 1, [] => none
  | fuel + 1, c :: cs =>
    if c = '\x22' then some ([], cs)
    else if c = '\\' then do
      let (d, rest) ← escaped? cs
      let (ds, rest) ← readText fuel rest
      return (d :: ds, rest)
    else if c.toNat < 32 then none
    else do
      let (ds, rest) ← readText fuel cs
      return (c :: ds, rest)

/-- A text after its opening quote. -/
def text? (s : List Char) : Option (String × List Char) :=
  (readText s.length s).map fun (cs, rest) => (String.ofList cs, rest)

/-! ## Numbers -/

/-- The number that decimal digits write. -/
def ofDigits (digits : List Char) : Nat := digits.foldl (fun n c => 10 * n + (c.toNat - 48)) 0

/-- Digits without a needless zero in front. -/
def isWhole (digits : List Char) : Bool :=
  !digits.isEmpty && (digits.length = 1 || digits.head? ≠ some '0')

/-- A fraction, and the text after it. -/
def fraction? : List Char → Option (List Char × List Char)
  | '.' :: rest =>
    let digits := rest.takeWhile Char.isDigit
    if digits.isEmpty then none else some ('.' :: digits, rest.drop digits.length)
  | rest => some ([], rest)

/-- An exponent, and the text after it. -/
def exponent? : List Char → Option (List Char × List Char)
  | e :: rest =>
    if e = 'e' || e = 'E' then
      let sign := rest.takeWhile fun c => c = '+' || c = '-'
      let digits := (rest.drop sign.length).takeWhile Char.isDigit
      if digits.isEmpty || 1 < sign.length then none
      else some (e :: sign ++ digits, rest.drop (sign.length + digits.length))
    else some ([], e :: rest)
  | [] => some ([], [])

/-- A number, and the text after it. -/
def number? (s : List Char) : Option (Json × List Char) := do
  let (sign, s) := match s with
    | '-' :: rest => (['-'], rest)
    | _ => ([], s)
  let digits := s.takeWhile Char.isDigit
  if !isWhole digits then none
  else
    let (frac, rest) ← fraction? (s.drop digits.length)
    let (expo, rest) ← exponent? rest
    if sign.isEmpty && frac.isEmpty && expo.isEmpty then return (natural (ofDigits digits), rest)
    else return (decimal (String.ofList (sign ++ digits ++ frac ++ expo)), rest)

/-! ## Values -/

mutual

/-- A value, and the text after it. -/
def read : (fuel : Nat) → List Char → Option (Json × List Char)
  | 0, _ => none
  | fuel + 1, s =>
    match skipBlanks s with
    | 'n' :: 'u' :: 'l' :: 'l' :: rest => some (null, rest)
    | 't' :: 'r' :: 'u' :: 'e' :: rest => some (bool true, rest)
    | 'f' :: 'a' :: 'l' :: 's' :: 'e' :: rest => some (bool false, rest)
    | '\x22' :: rest => (text? rest).map fun (s, rest) => (string s, rest)
    | '[' :: rest =>
      match skipBlanks rest with
      | ']' :: rest => some (array [], rest)
      | rest => (readItems fuel rest).map fun (js, rest) => (array js, rest)
    | '\x7b' :: rest =>
      match skipBlanks rest with
      | '\x7d' :: rest => some (object [], rest)
      | rest => (readFields fuel rest).map fun (fields, rest) => (object fields, rest)
    | rest => number? rest

/-- The items of an array that has some, up to its closing bracket. -/
def readItems : (fuel : Nat) → List Char → Option (List Json × List Char)
  | 0, _ => none
  | fuel + 1, s =>
    match read fuel s with
    | none => none
    | some (j, rest) =>
      match skipBlanks rest with
      | ',' :: rest => (readItems fuel rest).map fun (js, rest) => (j :: js, rest)
      | ']' :: rest => some ([j], rest)
      | _ => none

/-- The fields of an object that has some, up to its closing brace. -/
def readFields : (fuel : Nat) → List Char → Option (List (String × Json) × List Char)
  | 0, _ => none
  | fuel + 1, s =>
    match skipBlanks s with
    | '\x22' :: rest =>
      match text? rest with
      | none => none
      | some (name, rest) =>
        match skipBlanks rest with
        | ':' :: rest =>
          match read fuel rest with
          | none => none
          | some (j, rest) =>
            match skipBlanks rest with
            | ',' :: rest =>
              (readFields fuel rest).map fun (fields, rest) => ((name, j) :: fields, rest)
            | '\x7d' :: rest => some ([(name, j)], rest)
            | _ => none
        | _ => none
    | _ => none

end

/-- The value that a whole text writes. -/
def parse? (s : List Char) : Option Json :=
  match read (2 * s.length + 1) s with
  | none => none
  | some (j, rest) => if (skipBlanks rest).isEmpty then some j else none

end Marginalia.Json
