import Marginalia.Json.Value

/-!
# Writing JSON

In one line, or indented by two spaces a level with one item or field a line. In texts only the
double quote, the backslash and control characters are escaped.
-/

namespace Marginalia.Json

/-- A hexadecimal digit in lower case. -/
def hexDigit (n : Nat) : Char := if n < 10 then Char.ofNat (48 + n) else Char.ofNat (87 + n)

/-- A character inside a text. -/
def escape (c : Char) : List Char :=
  if c = '\x22' then ['\\', '\x22']
  else if c = '\\' then ['\\', '\\']
  else if c = '\x08' then ['\\', 'b']
  else if c = '\t' then ['\\', 't']
  else if c = '\n' then ['\\', 'n']
  else if c = '\x0c' then ['\\', 'f']
  else if c = '\r' then ['\\', 'r']
  else if c.toNat < 32 then
    ['\\', 'u', '0', '0', hexDigit (c.toNat / 16), hexDigit (c.toNat % 16)]
  else [c]

/-- A text in quotes. -/
def quoted (s : String) : List Char := '\x22' :: s.toList.flatMap escape ++ ['\x22']

/-- A newline and the indentation of a level. -/
def newline (level : Nat) : List Char := '\n' :: List.replicate (2 * level) ' '

mutual

/-- A value over several lines, its own lines indented to a level. -/
def pretty (level : Nat) : Json → List Char
  | null => "null".toList
  | bool b => (if b then "true" else "false").toList
  | natural n => Nat.toDigits 10 n
  | decimal digits => digits.toList
  | string s => quoted s
  | array [] => ['[', ']']
  | array (j :: js) =>
    '[' :: newline (level + 1) ++ pretty (level + 1) j ++ prettyItems (level + 1) js ++
      newline level ++ [']']
  | object [] => ['\x7b', '\x7d']
  | object ((name, j) :: fields) =>
    '\x7b' :: newline (level + 1) ++ quoted name ++ [':', ' '] ++ pretty (level + 1) j ++
      prettyFields (level + 1) fields ++ newline level ++ ['\x7d']

/-- The items of an array after the first. -/
def prettyItems (level : Nat) : List Json → List Char
  | [] => []
  | j :: js => ',' :: newline level ++ pretty level j ++ prettyItems level js

/-- The fields of an object after the first. -/
def prettyFields (level : Nat) : List (String × Json) → List Char
  | [] => []
  | (name, j) :: fields =>
    ',' :: newline level ++ quoted name ++ [':', ' '] ++ pretty level j ++
      prettyFields level fields

end

mutual

/-- A value in one line. -/
def compact : Json → List Char
  | null => "null".toList
  | bool b => (if b then "true" else "false").toList
  | natural n => Nat.toDigits 10 n
  | decimal digits => digits.toList
  | string s => quoted s
  | array [] => ['[', ']']
  | array (j :: js) => '[' :: compact j ++ compactItems js ++ [']']
  | object [] => ['\x7b', '\x7d']
  | object ((name, j) :: fields) =>
    '\x7b' :: quoted name ++ [':'] ++ compact j ++ compactFields fields ++ ['\x7d']

/-- The items of an array after the first. -/
def compactItems : List Json → List Char
  | [] => []
  | j :: js => ',' :: compact j ++ compactItems js

/-- The fields of an object after the first. -/
def compactFields : List (String × Json) → List Char
  | [] => []
  | (name, j) :: fields => ',' :: quoted name ++ [':'] ++ compact j ++ compactFields fields

end

end Marginalia.Json
