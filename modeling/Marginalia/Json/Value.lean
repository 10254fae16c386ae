import Marginalia.Count

/-!
# JSON values

Natural numbers are kept as such, every other number as it is written.
-/

namespace Marginalia

/-- A JSON value. -/
inductive Json where
  | null
  | bool (b : Bool)
  | natural (n : Nat)
  /-- A number with a sign, a fraction or an exponent, as it is written. -/
  | decimal (digits : String)
  | string (s : String)
  | array (items : List Json)
  | object (fields : List (String × Json))
deriving Repr, Inhabited

namespace Json

/-- The value of a field of an object. The last one counts if a name stands twice. -/
def field? (name : String) : Json → Option Json
  | object fields => (fields.reverse.find? (·.1 = name)).map (·.2)
  | _ => none

/-- The value of a field of an object, nothing if it is null. -/
def given? (name : String) (j : Json) : Option Json :=
  match j.field? name with
  | some null => none
  | found => found

/-- A truth value. -/
def bool? : Json → Option Bool
  | bool b => some b
  | _ => none

/-- A natural number that a 64-bit word holds. -/
def word? : Json → Option Nat
  | natural n => if n < wordBound then some n else none
  | _ => none

/-- A text. -/
def string? : Json → Option String
  | string s => some s
  | _ => none

/-- A list of values. -/
def array? : Json → Option (List Json)
  | array items => some items
  | _ => none

/-- A list whose items are all read alike. -/
def list? {α : Type} (read : Json → Option α) (j : Json) : Option (List α) :=
  j.array?.bind (·.mapM read)

/-- A value that may be null. -/
def optional? {α : Type} (read : Json → Option α) : Json → Option (Option α)
  | null => some none
  | j => (read j).map some

/-- A value that may be null, or nothing. -/
def ofOption {α : Type} (write : α → Json) : Option α → Json
  | none => null
  | some a => write a

/-- A list written item by item. -/
def ofList {α : Type} (write : α → Json) (as : List α) : Json := array (as.map write)

/-- The fields of an object by their names. -/
def fields? (names : List String) (j : Json) : Option (List (Option Json)) :=
  match j with
  | object _ => some (names.map j.field?)
  | _ => none

/-- The fields of a record: those of an object by their names, or the items of an array that has
as many. -/
def record? (names : List String) (j : Json) : Option (List (Option Json)) :=
  match j with
  | array items => if items.length = names.length then some (items.map some) else none
  | _ => j.fields? names

/-- A choice by its name, with what comes with it: a text alone, or an object of one field. -/
def choice? : Json → Option (String × Option Json)
  | string s => some (s, none)
  | object [(name, value)] => some (name, some value)
  | _ => none

/-- A choice that nothing comes with. -/
def plainChoice? (j : Json) : Option String :=
  match j.choice? with
  | some (name, none) | some (name, some null) => some name
  | _ => none

end Json

end Marginalia
