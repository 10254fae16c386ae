import Marginalia.Proofs.Offside

/-!
# How Python reads a line of code

The grammar of Python recognises the headers of classes and functions whatever follows their names.
In a header it sees no token of its own but the parentheses and the colon, and none at all in other
lines.
-/

namespace Marginalia

namespace Text

theorem isBlank_of_isInlineBlank {c : Char} (h : isInlineBlank c = true) :
    isBlank c = true ∧ c ≠ '\n' := by
  rw [isInlineBlank, Bool.or_eq_true, decide_eq_true_eq, decide_eq_true_eq] at h
  rcases h with rfl | rfl <;> decide

/-- A run of characters ends where the next one is of another kind. -/
theorem takeWhile_append_of_head? {p : Char → Bool} {s rest : List Char} (hs : ∀ c ∈ s, p c = true)
    (hrest : ∀ c, rest.head? = some c → p c = false) : (s ++ rest).takeWhile p = s := by
  have hnone : rest.takeWhile p = [] := by
    cases rest with
    | nil => rfl
    | cons c rest => exact List.takeWhile_cons_of_neg (by simp [hrest c rfl])
  rw [List.takeWhile_append_of_pos hs, hnone, List.append_nil]

end Text

namespace Statement

/-- The letters that statements start with, and those of a statement that is no header. -/
def letters : List Char := "cdpas".toList

theorem mem_letters {d : Char} : d ∈ letters ↔ d = 'c' ∨ d = 'd' ∨ d = 'p' ∨ d = 'a' ∨ d = 's' := by
  simp [letters]

theorem mem_letters_of_pass : ∀ d ∈ pass.text, d ∈ letters := by
  have hall : pass.text.all (letters.contains ·) = true := by decide
  exact fun d hd ↦ List.contains_iff_mem.mp (List.all_eq_true.mp hall d hd)

theorem not_isBlank_of_mem_letters {d : Char} (hd : d ∈ letters) : Text.isBlank d = false := by
  rcases mem_letters.mp hd with rfl | rfl | rfl | rfl | rfl <;> decide

theorem not_isInlineBlank_of_mem_letters {d : Char} (hd : d ∈ letters) :
    Text.isInlineBlank d = false := by
  by_contra hinline
  rw [Bool.not_eq_false] at hinline
  exact absurd (Text.isBlank_of_isInlineBlank hinline).1 (by simp [not_isBlank_of_mem_letters hd])

end Statement

namespace Grammar

variable {rest : List Char}

/-! ## Headers -/

theorem python_ident? (name : Identifier)
    (hrest : ∀ c, rest.head? = some c → python.isIdentPart c = false) :
    python.ident? (name.text ++ rest) = some name.text := by
  obtain ⟨text, hvalid⟩ := name
  cases text with
  | nil => cases hvalid
  | cons c cs =>
    rw [isAsciiIdent, Bool.and_eq_true] at hvalid
    obtain ⟨hstart, hparts⟩ := hvalid
    have hall : ∀ d ∈ cs, python.isIdentPart d = true := by
      intro d hd
      have hd := List.all_eq_true.mp hparts d hd
      simpa [isIdentPart, python] using hd
    have hfirst : python.isIdentStart c = true := by
      simpa [isIdentStart, python] using hstart
    rw [List.cons_append, ident?, if_pos hfirst, Text.takeWhile_append_of_head? hall hrest]

/-- A name after a keyword and a space is found. -/
theorem python_followingIdent? (name : Identifier) (kind : AnchorKind)
    (hrest : ∀ c, rest.head? = some c → python.isIdentPart c = false) :
    python.followingIdent? kind (dropInline (' ' :: (name.text ++ rest))) =
      some ⟨kind, name.text, rest⟩ := by
  obtain ⟨text, hvalid⟩ := name
  cases text with
  | nil => cases hvalid
  | cons c cs =>
    have hident : python.ident? (c :: cs ++ rest) = some (c :: cs) :=
      python_ident? ⟨c :: cs, hvalid⟩ hrest
    rw [isAsciiIdent, Bool.and_eq_true] at hvalid
    have hblank : Text.isInlineBlank c = false := by
      by_contra hblank
      rw [Bool.not_eq_false, Text.isInlineBlank, Bool.or_eq_true, decide_eq_true_eq,
        decide_eq_true_eq] at hblank
      rcases hblank with rfl | rfl
      · exact absurd hvalid.1 (by decide)
      · exact absurd hvalid.1 (by decide)
    have hstar : c ≠ '*' := by
      rintro rfl
      exact absurd hvalid.1 (by decide)
    have hdrop : dropInline (' ' :: (c :: cs ++ rest)) = c :: cs ++ rest := by
      rw [dropInline, List.dropWhile_cons_of_pos (by decide), List.cons_append,
        List.dropWhile_cons_of_neg (by simp [hblank])]
    rw [hdrop, followingIdent?]
    · rw [hident]
      simp
    · rintro rest' heq
      exact hstar (List.cons.inj heq).1

theorem python_anchorRules : python.anchorRules =
    [⟨"def".toList, .functionDecl, .followingIdent⟩,
      ⟨"class".toList, .classDecl, .followingIdent⟩] :=
  rfl

/-- The header of a class is recognised. -/
theorem python_recognise?_class (name : Identifier) (enclosing : Option AnchorKind)
    (hrest : ∀ c, rest.head? = some c → python.isIdentPart c = false) :
    python.recognise? ("class ".toList ++ (name.text ++ rest)) enclosing =
      some ⟨.classDecl, name.text, rest⟩ := by
  have hname := python_followingIdent? name .classDecl hrest
  generalize name.text ++ rest = after at hname ⊢
  have hmodifier : python.modifier? ("class ".toList ++ after) = none := rfl
  have hdef : python.keyword? ("class ".toList ++ after) "def".toList = none := rfl
  have hclass : python.keyword? ("class ".toList ++ after) "class".toList = some (' ' :: after) :=
    rfl
  have hanchor : python.keywordAnchor? ("class ".toList ++ after) =
      some ⟨.classDecl, name.text, rest⟩ := by
    rw [keywordAnchor?, python_anchorRules, List.findSome?_cons, List.findSome?_cons, hdef, hclass]
    simp only [Option.bind_none, Option.bind_some, ruleName?, hname]
  rw [recognise?, skipModifiers, iterate_of_none hmodifier, hanchor]
  rfl

/-- The header of a function is recognised, in the body of a class as that of a method. -/
theorem python_recognise?_def (name : Identifier) (enclosing : Option AnchorKind)
    (hrest : ∀ c, rest.head? = some c → python.isIdentPart c = false) :
    python.recognise? ("def ".toList ++ (name.text ++ rest)) enclosing =
      some ⟨if enclosing = some .classDecl then .methodDecl else .functionDecl, name.text,
        rest⟩ := by
  have hname := python_followingIdent? name .functionDecl hrest
  generalize name.text ++ rest = after at hname ⊢
  have hmodifier : python.modifier? ("def ".toList ++ after) = none := rfl
  have hdef : python.keyword? ("def ".toList ++ after) "def".toList = some (' ' :: after) := rfl
  have hanchor : python.keywordAnchor? ("def ".toList ++ after) =
      some ⟨.functionDecl, name.text, rest⟩ := by
    rw [keywordAnchor?, python_anchorRules, List.findSome?_cons, hdef]
    simp only [Option.bind_some, ruleName?, hname]
  rw [recognise?, skipModifiers, iterate_of_none hmodifier, hanchor]
  simp only [Option.some_or, Option.map_some, true_and]
  split <;> rfl

theorem python_recognise?_pass (rest : List Char) (enclosing : Option AnchorKind) :
    python.recognise? ("pass".toList ++ rest) enclosing = none := by
  have hmodifier : python.modifier? ("pass".toList ++ rest) = none := rfl
  rw [recognise?, skipModifiers, iterate_of_none hmodifier]
  rfl

/-! ## Tokens -/

/-- No token of its own starts with one of these letters. -/
theorem python_lookups_eq_none {c : Cursor} {d : Char} (hd : d ∈ Statement.letters)
    (hc : c.ahead = d :: rest) :
    python.commentStart? c = none ∧ python.stringStart? c = none ∧ python.regexLiteral? c = none ∧
      python.blockClose? c = none ∧ python.blockOpen? c = none ∧ python.bodyOpener? c = none ∧
      python.statementEnd? c = none := by
  obtain ⟨position, behind, ahead⟩ := c
  subst hc
  rcases Statement.mem_letters.mp hd with rfl | rfl | rfl | rfl | rfl <;>
    exact ⟨rfl, rfl, rfl, rfl, rfl, rfl, rfl⟩

theorem python_lookups_open {c : Cursor} (hc : c.ahead = '(' :: rest) :
    python.commentStart? c = none ∧ python.stringStart? c = none ∧ python.regexLiteral? c = none ∧
      python.blockClose? c = none ∧ python.blockOpen? c = some 0 := by
  obtain ⟨position, behind, ahead⟩ := c
  subst hc
  exact ⟨rfl, rfl, rfl, rfl, rfl⟩

theorem python_lookups_close {c : Cursor} (hc : c.ahead = ')' :: rest) :
    python.commentStart? c = none ∧ python.stringStart? c = none ∧ python.regexLiteral? c = none ∧
      python.blockClose? c = some 0 := by
  obtain ⟨position, behind, ahead⟩ := c
  subst hc
  exact ⟨rfl, rfl, rfl, rfl⟩

/-- A colon at the end of its line. -/
theorem python_lookups_colon {c : Cursor} (hc : c.ahead = ':' :: rest)
    (hrest : ∀ d, rest.head? = some d → d = '\n') :
    python.commentStart? c = none ∧ python.stringStart? c = none ∧ python.regexLiteral? c = none ∧
      python.blockClose? c = none ∧ python.blockOpen? c = none ∧
      python.bodyOpener? c = some [':'] := by
  obtain ⟨position, behind, ahead⟩ := c
  subst hc
  refine ⟨rfl, rfl, rfl, rfl, rfl, ?_⟩
  cases rest with
  | nil => rfl
  | cons d rest =>
    obtain rfl := hrest d rfl
    rfl

end Grammar

end Marginalia
