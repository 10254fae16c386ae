import Marginalia.Json.Parser
import Marginalia.Json.Printer
import Mathlib.Data.List.DropRight

/-!
# JSON texts read back

What is written over several lines is read as the value that was written, whatever stands after it.
Each reader is given a text that starts with what the printer writes and leaves the rest. The
length of what is written bounds how far the readers have to go.
-/

namespace Marginalia.Json

variable {rest : List Char}

/-! ## Blanks -/

theorem skipBlanks_newline (level : Nat) (s : List Char) :
    skipBlanks (newline level ++ s) = skipBlanks s := by
  unfold newline skipBlanks
  rw [List.cons_append, List.dropWhile_cons_of_pos (by rfl)]
  refine List.dropWhile_append_of_pos fun c hc ↦ ?_
  rw [List.eq_of_mem_replicate hc]
  rfl

/-- Only the text after the blanks matters to a value. -/
theorem read_newline (fuel level : Nat) (s : List Char) :
    read fuel (newline level ++ s) = read fuel s := by
  cases fuel with
  | zero => rfl
  | succ fuel => rw [read, read, skipBlanks_newline]

/-! ## Texts -/

theorem hexValue?_hexDigit : ∀ n < 16, hexValue? (hexDigit n) = some n := by decide

/-- A control character is read back from its code unit. -/
theorem escaped?_control {c : Char} (h : c.toNat < 32) (s : List Char) :
    escaped? ('u' :: '0' :: '0' :: hexDigit (c.toNat / 16) :: hexDigit (c.toNat % 16) :: s) =
      some (c, s) := by
  have hhigh := hexValue?_hexDigit (c.toNat / 16) (by omega)
  have hlow := hexValue?_hexDigit (c.toNat % 16) (by omega)
  have hzero : hexValue? '0' = some 0 := rfl
  have hunit : 16 * (c.toNat / 16) + c.toNat % 16 = c.toNat := Nat.div_add_mod _ _
  have hcode : codeUnit? ('0' :: '0' :: hexDigit (c.toNat / 16) :: hexDigit (c.toNat % 16) :: s) =
      some (c.toNat, s) := by
    simp [codeUnit?, hhigh, hlow, hzero, hunit]
  have hhigh' : ¬(0xD800 ≤ c.toNat ∧ c.toNat < 0xDC00) := by omega
  have hlow' : ¬(0xDC00 ≤ c.toNat ∧ c.toNat < 0xE000) := by omega
  simp [escaped?, escapedUnit?, hcode, hhigh', hlow']

/-- A character stands for itself, or behind a backslash for what its escape reads as. -/
theorem escape_cases (c : Char) :
    (escape c = [c] ∧ c ≠ '\x22' ∧ c ≠ '\\' ∧ ¬c.toNat < 32) ∨
      ∃ code, escape c = '\\' :: code ∧ ∀ s, escaped? (code ++ s) = some (c, s) := by
  unfold escape
  split
  · exact .inr ⟨_, rfl, fun s ↦ by subst c; rfl⟩
  split
  · exact .inr ⟨_, rfl, fun s ↦ by subst c; rfl⟩
  split
  · exact .inr ⟨_, rfl, fun s ↦ by subst c; rfl⟩
  split
  · exact .inr ⟨_, rfl, fun s ↦ by subst c; rfl⟩
  split
  · exact .inr ⟨_, rfl, fun s ↦ by subst c; rfl⟩
  split
  · exact .inr ⟨_, rfl, fun s ↦ by subst c; rfl⟩
  split
  · exact .inr ⟨_, rfl, fun s ↦ by subst c; rfl⟩
  split
  · rename_i hcontrol
    exact .inr ⟨_, rfl, escaped?_control hcontrol⟩
  · rename_i hquote hslash _ _ _ _ _ hcontrol
    exact .inl ⟨rfl, hquote, hslash, hcontrol⟩

/-- A character inside a text is read back, and the text goes on after it. -/
theorem readText_escape (fuel : Nat) (c : Char) (s : List Char) :
    readText (fuel + 1) (escape c ++ s) =
      (readText fuel s).map fun (cs, rest) ↦ (c :: cs, rest) := by
  rcases escape_cases c with ⟨heq, hquote, hslash, hcontrol⟩ | ⟨code, heq, hread⟩
  · rw [heq, List.singleton_append, readText, if_neg hquote, if_neg hslash, if_neg hcontrol]
    cases readText fuel s <;> rfl
  · rw [heq, List.cons_append, readText, if_neg (by decide), if_pos rfl, hread]
    cases h : readText fuel s <;> simp [h]

theorem length_le_escaped (cs : List Char) : cs.length ≤ (cs.flatMap escape).length := by
  induction cs with
  | nil => exact Nat.le_refl _
  | cons c cs ih =>
    have hpos : 0 < (escape c).length := by
      rcases escape_cases c with ⟨heq, -⟩ | ⟨code, heq, -⟩ <;> simp [heq]
    rw [List.flatMap_cons, List.length_append, List.length_cons]
    omega

theorem readText_escaped (fuel : Nat) (cs : List Char) (h : cs.length < fuel) :
    readText fuel (cs.flatMap escape ++ '\x22' :: rest) = some (cs, rest) := by
  induction cs generalizing fuel with
  | nil =>
    obtain ⟨fuel, rfl⟩ : ∃ k, fuel = k + 1 := ⟨fuel - 1, by simp at h; omega⟩
    rfl
  | cons c cs ih =>
    rw [List.length_cons] at h
    obtain ⟨fuel, rfl⟩ : ∃ k, fuel = k + 1 := ⟨fuel - 1, by omega⟩
    rw [List.flatMap_cons, List.append_assoc, readText_escape, ih fuel (by omega)]
    rfl

/-- A text in quotes is read back after its opening quote. -/
theorem text?_quoted (s : String) :
    text? (s.toList.flatMap escape ++ '\x22' :: rest) = some (s, rest) := by
  have hlength := length_le_escaped s.toList
  rw [text?, readText_escaped _ _ (by rw [List.length_append, List.length_cons]; omega)]
  simp

/-! ## Numbers -/

/-- The text goes on with what stands after a value over several lines: a comma, a newline, or
nothing. No number goes on with these. -/
def Ends (rest : List Char) : Prop := ∀ c ∈ rest.head?, c = ',' ∨ c = '\n'

theorem ends_newline (level : Nat) (s : List Char) : Ends (newline level ++ s) := by
  rintro c ⟨⟩
  exact .inr rfl

theorem ends_comma (s : List Char) : Ends (',' :: s) := by
  rintro c ⟨⟩
  exact .inl rfl

/-- The digits of a number other than zero start with another digit. -/
theorem head?_toDigits {n : Nat} (h : 0 < n) : (Nat.toDigits 10 n).head? ≠ some '0' := by
  induction n using Nat.strongRecOn with
  | ind n ih =>
    rw [Nat.toDigits_eq_if (by decide)]
    split
    · rename_i hlt
      have hdigit : ∀ d < 10, 0 < d → d.digitChar ≠ '0' := by decide
      simpa using hdigit n hlt h
    · have hrest := ih (n / 10) (by omega) (by omega)
      cases hd : Nat.toDigits 10 (n / 10) with
      | nil => exact absurd hd Nat.toDigits_ne_nil
      | cons d ds => rwa [hd] at hrest

theorem isWhole_toDigits (n : Nat) : isWhole (Nat.toDigits 10 n) = true := by
  have hne : (Nat.toDigits 10 n).isEmpty = false := by simp
  rw [isWhole, hne]
  rcases Nat.eq_zero_or_pos n with rfl | hpos
  · rfl
  · simp [head?_toDigits hpos]

theorem takeWhile_toDigits (n : Nat) (h : Ends rest) :
    (Nat.toDigits 10 n ++ rest).takeWhile Char.isDigit = Nat.toDigits 10 n := by
  rw [List.takeWhile_append_of_pos fun c hc ↦
    Nat.isDigit_of_mem_toDigits (by decide) (by decide) hc]
  cases rest with
  | nil => simp
  | cons c rest => rcases h c rfl with rfl | rfl <;> simp [Char.isDigit]

/-- A number is read back. -/
theorem number?_toDigits (n : Nat) (h : Ends rest) :
    number? (Nat.toDigits 10 n ++ rest) = some (natural n, rest) := by
  have hfraction : fraction? rest = some ([], rest) := by
    cases rest with
    | nil => rfl
    | cons c rest => rcases h c rfl with rfl | rfl <;> rfl
  have hexponent : exponent? rest = some ([], rest) := by
    cases rest with
    | nil => rfl
    | cons c rest => rcases h c rfl with rfl | rfl <;> rfl
  have hsign : ∀ s, Nat.toDigits 10 n ++ rest ≠ '-' :: s := by
    intro s hs
    have hmem : '-' ∈ Nat.toDigits 10 n := by
      cases hd : Nat.toDigits 10 n with
      | nil => exact absurd hd Nat.toDigits_ne_nil
      | cons d ds =>
        rw [hd] at hs
        cases hs
        exact List.mem_cons_self
    exact absurd (Nat.isDigit_of_mem_toDigits (by decide) (by decide) hmem) (by decide)
  unfold number?
  split
  rename_i sign s hmatch
  split at hmatch
  · rename_i s' hs'
    exact absurd hs' (hsign s')
  · cases hmatch
    have hdigits : ofDigits (Nat.toDigits 10 n) = n := Nat.ofDigitChars_ten_toDigits
    rw [takeWhile_toDigits n h]
    simp [isWhole_toDigits, hfraction, hexponent, hdigits]

/-! ## Values -/

/-- A value whose numbers are all natural. -/
inductive IsNatural : Json → Prop
  | null : IsNatural null
  | bool (b : Bool) : IsNatural (bool b)
  | natural (n : Nat) : IsNatural (natural n)
  | string (s : String) : IsNatural (string s)
  | array {items : List Json} (each : ∀ j ∈ items, IsNatural j) : IsNatural (array items)
  | object {fields : List (String × Json)} (each : ∀ f ∈ fields, IsNatural f.2) :
      IsNatural (object fields)

/-- A value is read back from its text over several lines, whatever stands after that. -/
def ReadsBack (level : Nat) (j : Json) : Prop :=
  ∀ fuel rest, Ends rest → (pretty level j).length ≤ fuel →
    read fuel (pretty level j ++ rest) = some (j, rest)

/-- The items of an array are read back up to its closing bracket. -/
theorem readItems_pretty {level outer fuel : Nat} {j : Json} {js : List Json}
    (h : ∀ k ∈ j :: js, ReadsBack level k)
    (hfuel : (pretty level j).length + (prettyItems level js).length < fuel) :
    readItems fuel (newline level ++ pretty level j ++ prettyItems level js ++
      newline outer ++ ']' :: rest) = some (j :: js, rest) := by
  induction js generalizing j fuel with
  | nil =>
    obtain ⟨fuel, rfl⟩ : ∃ k, fuel = k + 1 := ⟨fuel - 1, by omega⟩
    have hj := h j List.mem_cons_self fuel _ (ends_newline outer (']' :: rest)) (by omega)
    rw [readItems]
    simp only [prettyItems, List.append_assoc, List.nil_append, read_newline, hj,
      skipBlanks_newline]
    rfl
  | cons k ks ih =>
    obtain ⟨fuel, rfl⟩ : ∃ k, fuel = k + 1 := ⟨fuel - 1, by omega⟩
    simp only [prettyItems, List.length_append, List.length_cons] at hfuel
    have hj := h j List.mem_cons_self fuel _ (ends_comma (newline level ++ pretty level k ++
      prettyItems level ks ++ newline outer ++ ']' :: rest)) (by omega)
    have hks : readItems fuel (newline level ++ pretty level k ++ prettyItems level ks ++
        newline outer ++ ']' :: rest) = some (k :: ks, rest) :=
      ih (fun m hm ↦ h m (List.mem_cons_of_mem _ hm)) (by omega)
    simp only [List.append_assoc] at hj hks
    rw [readItems]
    simp only [prettyItems, List.append_assoc, List.cons_append, read_newline, hj]
    rw [show skipBlanks (',' :: _) = ',' :: _ from rfl]
    simp only [hks, Option.map_some]

/-- A field is read back up to what stands after its value. -/
theorem readFields_field {fuel level : Nat} {name : String} {j : Json} {s : List Char}
    (h : read fuel s = some (j, rest)) :
    readFields (fuel + 1) (newline level ++ quoted name ++ [':', ' '] ++ s) =
      match skipBlanks rest with
      | ',' :: rest => (readFields fuel rest).map fun (fields, rest) ↦ ((name, j) :: fields, rest)
      | '\x7d' :: rest => some ([(name, j)], rest)
      | _ => none := by
  have hblank : read fuel (' ' :: s) = read fuel s := by
    cases fuel with
    | zero => rfl
    | succ fuel => rw [read, read, show skipBlanks (' ' :: s) = skipBlanks s from rfl]
  rw [readFields]
  simp only [List.append_assoc, skipBlanks_newline, quoted, List.cons_append, List.nil_append]
  rw [show skipBlanks ('\x22' :: _) = '\x22' :: _ from rfl]
  simp only [text?_quoted]
  rw [show skipBlanks (':' :: _) = ':' :: _ from rfl]
  grind

/-- The fields of an object are read back up to its closing brace. -/
theorem readFields_pretty {level outer fuel : Nat} {name : String} {j : Json}
    {fields : List (String × Json)} (h : ∀ f ∈ (name, j) :: fields, ReadsBack level f.2)
    (hfuel : (pretty level j).length + (prettyFields level fields).length < fuel) :
    readFields fuel (newline level ++ quoted name ++ [':', ' '] ++ (pretty level j ++
      (prettyFields level fields ++ (newline outer ++ '\x7d' :: rest)))) =
        some ((name, j) :: fields, rest) := by
  induction fields generalizing name j fuel with
  | nil =>
    obtain ⟨fuel, rfl⟩ : ∃ k, fuel = k + 1 := ⟨fuel - 1, by omega⟩
    have hj := h _ List.mem_cons_self fuel _ (ends_newline outer ('\x7d' :: rest)) (by
      dsimp only; omega)
    rw [prettyFields, List.nil_append, readFields_field hj, skipBlanks_newline]
    rfl
  | cons f fields ih =>
    obtain ⟨next, k⟩ := f
    obtain ⟨fuel, rfl⟩ : ∃ k, fuel = k + 1 := ⟨fuel - 1, by omega⟩
    simp only [prettyFields, List.length_append, List.length_cons] at hfuel
    have hj := h _ List.mem_cons_self fuel _ (ends_comma (newline level ++ quoted next ++
      [':', ' '] ++ (pretty level k ++ (prettyFields level fields ++
        (newline outer ++ '\x7d' :: rest))))) (by dsimp only; omega)
    have hfields : readFields fuel (newline level ++ quoted next ++ [':', ' '] ++
        (pretty level k ++ (prettyFields level fields ++ (newline outer ++ '\x7d' :: rest)))) =
          some ((next, k) :: fields, rest) :=
      ih (fun m hm ↦ h m (List.mem_cons_of_mem _ hm)) (by omega)
    rw [show prettyFields level ((next, k) :: fields) ++ (newline outer ++ '\x7d' :: rest) =
        ',' :: (newline level ++ quoted next ++ [':', ' '] ++ (pretty level k ++
          (prettyFields level fields ++ (newline outer ++ '\x7d' :: rest)))) by simp [prettyFields],
      readFields_field hj]
    rw [show skipBlanks (',' :: _) = ',' :: _ from rfl]
    simp only [hfields, Option.map_some]

/-! ## Values by their first characters -/

theorem skipBlanks_skipBlanks (s : List Char) : skipBlanks (skipBlanks s) = skipBlanks s :=
  List.dropWhile_idempotent _ s

theorem read_skipBlanks (fuel : Nat) (s : List Char) : read fuel (skipBlanks s) = read fuel s := by
  cases fuel with
  | zero => rfl
  | succ fuel => rw [read, read, skipBlanks_skipBlanks]

/-- No value starts with a closing bracket. -/
theorem read_eq_none_of_close {s t : List Char} (h : skipBlanks s = ']' :: t) (fuel : Nat) :
    read fuel s = none := by
  cases fuel with
  | zero => rfl
  | succ fuel =>
    rw [read, h]
    rfl

/-- An array whose items are read is read. -/
theorem read_array {fuel : Nat} {s : List Char} {js : List Json}
    (h : readItems fuel s = some (js, rest)) :
    read (fuel + 1) ('[' :: s) = some (array js, rest) := by
  obtain ⟨fuel, rfl⟩ : ∃ k, fuel = k + 1 := by
    cases fuel with
    | zero => cases h
    | succ k => exact ⟨k, rfl⟩
  have hitems : readItems (fuel + 1) (skipBlanks s) = some (js, rest) := by
    rwa [readItems, read_skipBlanks, ← readItems.eq_2]
  rw [read, show skipBlanks ('[' :: s) = '[' :: s from rfl]
  simp only []
  split
  · rename_i t hclose
    rw [readItems, read_eq_none_of_close hclose] at h
    cases h
  · rw [hitems]
    rfl

/-- An object whose fields are read is read. -/
theorem read_object {fuel : Nat} {s : List Char} {fields : List (String × Json)}
    (h : readFields fuel s = some (fields, rest)) :
    read (fuel + 1) ('\x7b' :: s) = some (object fields, rest) := by
  obtain ⟨fuel, rfl⟩ : ∃ k, fuel = k + 1 := by
    cases fuel with
    | zero => cases h
    | succ k => exact ⟨k, rfl⟩
  have hfields : readFields (fuel + 1) (skipBlanks s) = some (fields, rest) := by
    rwa [readFields, skipBlanks_skipBlanks, ← readFields.eq_2]
  rw [read, show skipBlanks ('\x7b' :: s) = '\x7b' :: s from rfl]
  simp only []
  split
  · rename_i t hclose
    rw [readFields, hclose] at h
    cases h
  · rw [hfields]
    rfl

theorem read_digit (fuel : Nat) {c : Char} (hc : c.isDigit = true) (s : List Char) :
    read (fuel + 1) (c :: s) = number? (c :: s) := by
  have hskip : skipBlanks (c :: s) = c :: s := by
    refine List.dropWhile_cons_of_neg ?_
    intro hblank
    simp only [Bool.or_eq_true, decide_eq_true_eq] at hblank
    rcases hblank with ((rfl | rfl) | rfl) | rfl <;> cases hc
  rw [read, hskip]
  split <;> first | (rename_i heq; cases heq; cases hc) | rfl

/-- A number is read back digit by digit. -/
theorem readsBack_natural (level n : Nat) : ReadsBack level (natural n) := by
  intro fuel rest hrest hfuel
  have hnumber := number?_toDigits n hrest
  simp only [pretty] at hfuel ⊢
  cases hd : Nat.toDigits 10 n with
  | nil => exact absurd hd Nat.toDigits_ne_nil
  | cons d ds =>
    rw [hd, List.length_cons] at hfuel
    rw [hd] at hnumber
    obtain ⟨fuel, rfl⟩ : ∃ k, fuel = k + 1 := ⟨fuel - 1, by omega⟩
    have hdigit : d.isDigit = true :=
      Nat.isDigit_of_mem_toDigits (b := 10) (n := n) (by decide) (by decide)
        (hd ▸ List.mem_cons_self)
    exact (read_digit fuel hdigit _).trans hnumber

/-- Values with natural numbers are read back. -/
theorem readsBack (level : Nat) {j : Json} (hj : j.IsNatural) : ReadsBack level j := by
  induction hj generalizing level with
  | null =>
    intro fuel rest _ hfuel
    obtain ⟨fuel, rfl⟩ : ∃ k, fuel = k + 1 := ⟨fuel - 1, by simp [pretty] at hfuel; omega⟩
    simp [pretty, read, skipBlanks]
  | bool b =>
    intro fuel rest _ hfuel
    obtain ⟨fuel, rfl⟩ : ∃ k, fuel = k + 1 :=
      ⟨fuel - 1, by cases b <;> simp [pretty] at hfuel <;> omega⟩
    cases b <;> simp [pretty, read, skipBlanks]
  | natural n => exact readsBack_natural level n
  | string s =>
    intro fuel rest _ hfuel
    obtain ⟨fuel, rfl⟩ : ∃ k, fuel = k + 1 := ⟨fuel - 1, by simp [pretty, quoted] at hfuel; omega⟩
    simp [pretty, quoted, read, skipBlanks, text?_quoted]
  | @array items each ih =>
    intro fuel rest _ hfuel
    cases items with
    | nil =>
      obtain ⟨fuel, rfl⟩ : ∃ k, fuel = k + 1 := ⟨fuel - 1, by simp [pretty] at hfuel; omega⟩
      simp [pretty, read, skipBlanks]
    | cons j js =>
      simp only [pretty, List.length_cons, List.length_append] at hfuel
      obtain ⟨fuel, rfl⟩ : ∃ k, fuel = k + 1 := ⟨fuel - 1, by omega⟩
      have hitems : readItems fuel (newline (level + 1) ++ pretty (level + 1) j ++
          prettyItems (level + 1) js ++ newline level ++ ']' :: rest) = some (j :: js, rest) :=
        readItems_pretty (fun k hk ↦ ih k hk (level + 1)) (by omega)
      simpa [pretty] using read_array hitems
  | @object fields each ih =>
    intro fuel rest _ hfuel
    cases fields with
    | nil =>
      obtain ⟨fuel, rfl⟩ : ∃ k, fuel = k + 1 := ⟨fuel - 1, by simp [pretty] at hfuel; omega⟩
      simp [pretty, read, skipBlanks]
    | cons f fields =>
      obtain ⟨name, j⟩ := f
      simp only [pretty, List.length_cons, List.length_append] at hfuel
      obtain ⟨fuel, rfl⟩ : ∃ k, fuel = k + 1 := ⟨fuel - 1, by omega⟩
      have hfields : readFields fuel (newline (level + 1) ++ quoted name ++ [':', ' '] ++
          (pretty (level + 1) j ++ (prettyFields (level + 1) fields ++
            (newline level ++ '\x7d' :: rest)))) = some ((name, j) :: fields, rest) :=
        readFields_pretty (fun k hk ↦ ih k hk (level + 1)) (by omega)
      simpa [pretty] using read_object hfields

/-- A text over several lines with a newline at its end is read as the value it was written for. -/
theorem parse?_pretty {j : Json} (hj : j.IsNatural) :
    parse? (pretty 0 j ++ ['\n']) = some j := by
  have hread := readsBack 0 hj (2 * (pretty 0 j ++ ['\n']).length + 1) ['\n']
    (ends_newline 0 []) (by rw [List.length_append]; omega)
  rw [parse?, hread]
  rfl

end Marginalia.Json
