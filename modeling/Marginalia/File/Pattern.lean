/-!
# File name patterns

A question mark stands for any character, a star for any number of them, brackets for one of a set,
and a component of two stars for any number of directories.
-/

namespace Marginalia

/-- Characters in a set. -/
inductive CharSet where
  | single (c : Char)
  | range (first last : Char)
deriving DecidableEq, Repr

/-- Whether a set holds a character. -/
def CharSet.contains (c : Char) : CharSet → Bool
  | single d => c = d
  | range first last => first ≤ c && c ≤ last

/-- A part of a pattern. -/
inductive Glyph where
  | char (c : Char)
  | anyChar
  | anySequence
  | anyDirectories
  | within (sets : List CharSet)
  | outside (sets : List CharSet)
deriving DecidableEq, Repr

/-- What is wrong with a pattern, and where, in characters from its start. -/
structure PatternError where
  position : Nat
  reason : String
deriving DecidableEq, Repr

/-- The text of a pattern error. -/
def PatternError.message (e : PatternError) : String :=
  s!"Pattern syntax error near position {e.position}: {e.reason}"

namespace Pattern

/-- The sets between brackets: single characters and ranges. -/
def charSets : List Char → List CharSet
  | a :: '-' :: b :: rest => .range a b :: charSets rest
  | a :: rest => .single a :: charSets rest
  | [] => []

/-- The set that starts after an opening bracket, and the text after the closing one. A closing
bracket in first place belongs to the set. -/
def bracket? (text : List Char) : Option (Glyph × List Char) :=
  match text with
  | '!' :: first :: rest =>
    match rest.dropWhile (· ≠ ']') with
    | [] => none
    | _ :: after => some (.outside (charSets (first :: rest.takeWhile (· ≠ ']'))), after)
  | first :: rest =>
    if first = '!' then none
    else
      match rest.dropWhile (· ≠ ']') with
      | [] => none
      | _ :: after => some (.within (charSets (first :: rest.takeWhile (· ≠ ']'))), after)
  | [] => none

/-- The glyphs of the rest of a pattern, which starts at `position` after the character `before`.
Two stars have to be a component of their own. -/
def compileFrom : (fuel position : Nat) → (before : Option Char) → List Char →
    Except PatternError (List Glyph)
  | 0, _, _, _ => .ok []
  | _ + 1, _, _, [] => .ok []
  | fuel + 1, position, before, c :: cs =>
    if c = '?' then return .anyChar :: (← compileFrom fuel (position + 1) (some c) cs)
    else if c = '*' then
      let stars := 1 + (cs.takeWhile (· = '*')).length
      let rest := (c :: cs).drop stars
      if 2 < stars then
        .error ⟨position + 2, "wildcards are either regular `*` or recursive `**`"⟩
      else if stars = 2 then
        if before.all (· = '/') then
          match rest with
          | [] => .ok [.anyDirectories]
          | d :: rest =>
            if d = '/' then
              return .anyDirectories :: (← compileFrom fuel (position + 3) (some d) rest)
            else
              .error ⟨position + 2, "recursive wildcards must form a single path component"⟩
        else .error ⟨position - 1, "recursive wildcards must form a single path component"⟩
      else return .anySequence :: (← compileFrom fuel (position + 1) (some c) cs)
    else if c = '[' then
      match bracket? cs with
      | none => .error ⟨position, "invalid range pattern"⟩
      | some (glyph, after) =>
        return glyph ::
          (← compileFrom fuel (position + 1 + (cs.length - after.length)) (some ']') after)
    else return .char c :: (← compileFrom fuel (position + 1) (some c) cs)

/-- The glyphs of a pattern. -/
def compile (pattern : List Char) : Except PatternError (List Glyph) :=
  compileFrom pattern.length 0 none pattern

/-- Whether glyphs match a whole text. -/
def matchesText : List Glyph → List Char → Bool
  | [], text => text.isEmpty
  | .anySequence :: gs, text | .anyDirectories :: gs, text =>
    (List.range (text.length + 1)).any fun k => matchesText gs (text.drop k)
  | _ :: _, [] => false
  | .char d :: gs, c :: cs => c = d && matchesText gs cs
  | .anyChar :: gs, _ :: cs => matchesText gs cs
  | .within sets :: gs, c :: cs => sets.any (·.contains c) && matchesText gs cs
  | .outside sets :: gs, c :: cs => !sets.any (·.contains c) && matchesText gs cs

/-- The text that glyphs stand for, if they are all characters. -/
def literal? (glyphs : List Glyph) : Option String :=
  (glyphs.mapM fun (g : Glyph) =>
    match g with
    | .char c => some c
    | _ => none).map String.ofList

/-- Whether a pattern stands for any number of directories. -/
def isRecursive (glyphs : List Glyph) : Bool := glyphs.contains .anyDirectories

end Pattern

end Marginalia
