import Marginalia.Proofs.ArgumentForms
import Marginalia.Proofs.TagOrder

/-!
# Unknown tags as they are listed

A tag that is not registered is listed with a header made of its name and its arguments, which are
joined by commas and spaces. Such a header reads back as the tag: each argument leaves the splitter
where it found it, whatever quotations, stray closers and blanks it holds, so that the commas
between the arguments are the only ones to split at.
-/

namespace Marginalia

open Text (trim trimEnd)

theorem Text.trim_trim (s : List Char) : trim (trim s) = trim s := by
  have htrimEnd : trimEnd (trim s) = trim s := by
    rw [trim, trimEnd, trimEnd, List.reverse_reverse, List.dropWhile_idempotent]
  rcases hhead : (trim s).head? with _ | c
  · rw [List.head?_eq_none_iff.mp hhead]
    rfl
  · obtain ⟨blanks, hblanks⟩ := trimEnd_prefix (trimStart s)
    have hstart : (trimStart s).head? = some c := by
      rw [← hblanks, List.head?_append, ← trim, hhead]
      rfl
    have hc : isBlank c = false := by
      have hspec := List.head?_dropWhile_not isBlank s
      rw [← trimStart, hstart] at hspec
      simpa using hspec
    rw [trim, trimStart_eq_self hhead hc, htrimEnd]

theorem CommentLine.isTagName_of_tagName? {l : CommentLine} {name : List Char}
    (h : l.tagName? = some name) : isTagName name = true := by
  unfold tagName? at h
  split at h
  · rename_i c cs _
    split at h
    · rename_i hstart
      cases h
      rw [isTagName, hstart, Bool.true_and, List.all_takeWhile]
    · cases h
  · cases h

namespace Arguments

variable {inner rest : List Char} {parts : List (List Char)}

/-- An argument list made of texts; nothing, without texts. -/
def listText : List (List Char) → List Char
  | [] => []
  | text :: texts => '(' :: ([',', ' '].intercalate (text :: texts) ++ [')'])

theorem isTagNamePart_head?_listText {texts : List (List Char)} {c : Char}
    (h : (listText texts).head? = some c) : isTagNamePart c = false := by
  cases texts with
  | nil => cases h
  | cons text texts =>
    cases h
    decide

theorem trimEnd_listText (texts : List (List Char)) :
    trimEnd (listText texts) = listText texts := by
  cases texts with
  | nil => rfl
  | cons text texts =>
    rw [listText, ← List.cons_append]
    exact Text.trimEnd_eq_self List.getLast?_concat (by decide)

theorem trimParts_trimmed (parts : List (List Char)) :
    (trimParts parts).map trim = trimParts parts := by
  rw [trimParts]
  split
  · rfl
  · rw [List.map_map]
    exact List.map_congr_left fun part _ ↦ Text.trim_trim part

theorem trimParts_eq_of_map_trim {again : List (List Char)}
    (h : again.map trim = trimParts parts) : trimParts again = trimParts parts := by
  have hne : trimParts parts ≠ [[]] := by
    rw [trimParts]
    split
    · exact (List.cons_ne_nil _ _).symm
    · assumption
  rw [trimParts, h, if_neg hne]

/-- The arguments of an unknown tag are read back from a list of them. -/
theorem read_listText (s : Site) (h : split? {} inner = some (parts, rest)) :
    read s none (listText (trimParts parts)) =
      ⟨(trimParts parts).map (.raw <| String.ofList ·), [], []⟩ := by
  have hwhole : ∀ text ∈ trimParts parts, Splitter.Whole {} text :=
    fun _ ↦ whole_of_mem_trimParts h
  have htrimmed := trimParts_trimmed parts
  cases htexts : trimParts parts with
  | nil => rfl
  | cons text texts =>
    rw [htexts] at hwhole htrimmed
    obtain ⟨part, more, hsplit, hmap⟩ := split?_joined hwhole []
    have hparts : trimParts (part :: more) = text :: texts := by
      rw [← htexts]
      exact trimParts_eq_of_map_trim (hmap.trans (htrimmed.trans htexts.symm))
    rw [listText, read, parenthesised, hsplit]
    dsimp only
    rw [hparts]

end Arguments

open Arguments (listText trimParts)

/-- The header of a tag whose arguments are raw texts. -/
theorem Tag.toList_header {t : Tag} {texts : List (List Char)}
    (h : t.arguments = texts.map (.raw <| String.ofList ·)) :
    t.header.toList = '@' :: (t.name.toList ++ listText texts) := by
  cases texts with
  | nil => simp [header, h, listText]
  | cons text texts =>
    have htexts : t.arguments.map Argument.text = (text :: texts).map String.ofList := by
      rw [h, List.map_map]
      rfl
    have hempty : t.arguments.isEmpty = false := by
      rw [h]
      rfl
    rw [header, hempty, htexts]
    simp [listText, String.toList_intercalate, Function.comp_def]

namespace TagLines

variable {registry : Registry} {t : TagLines}

theorem parse_name (registry : Registry) {name : List Char} (h : t.first.tagName? = some name) :
    (t.parse registry).tag.name = String.ofList name := by
  simp only [parse, h, Option.getD_some]

/-- The arguments of an unknown tag are texts that an argument list reads back. -/
theorem exists_texts (hunknown : registry.get? (t.parse registry).tag.name = none)
    (hlist : ∀ inner, t.afterName = '(' :: inner → (Arguments.split? {} inner).isSome = true) :
    ∃ texts, (t.parse registry).tag.arguments = texts.map (.raw <| String.ofList ·) ∧
      ∀ s, Arguments.read s none (listText texts) =
        ⟨(t.parse registry).tag.arguments, [], []⟩ := by
  rw [parse_arguments, hunknown]
  by_cases hafter : ∃ inner, t.afterName = '(' :: inner
  · obtain ⟨inner, hinner⟩ := hafter
    obtain ⟨⟨parts, rest⟩, hsplit⟩ := Option.isSome_iff_exists.mp (hlist inner hinner)
    have hread : (Arguments.read t.site none t.afterName).arguments =
        (trimParts parts).map (.raw <| String.ofList ·) := by
      rw [hinner, Arguments.read, Arguments.parenthesised, hsplit]
    rw [hread]
    exact ⟨trimParts parts, rfl, fun s ↦ Arguments.read_listText s hsplit⟩
  · have hread : (Arguments.read t.site none t.afterName).arguments = [] := by
      unfold Arguments.read
      split
      · rename_i hinner
        exact absurd ⟨_, hinner⟩ hafter
      · rename_i heq _
        cases heq
      · rfl
    rw [hread]
    exact ⟨[], rfl, fun s ↦ rfl⟩

/-- What a line makes that starts with the name of an unknown tag and an argument list. -/
theorem parse_listText {name : List Char} (hname : isTagName name = true)
    (hunknown : registry.get? (String.ofList name) = none) {texts : List (List Char)}
    {arguments : List Argument}
    (hread : ∀ s, Arguments.read s none (listText texts) = ⟨arguments, [], []⟩)
    (htext : t.first.text = '@' :: (name ++ listText texts)) (hone : t.continuation = []) :
    (t.parse registry).tag.name = String.ofList name ∧
      (t.parse registry).tag.arguments = arguments ∧ (t.parse registry).tag.body = "" := by
  have hrest : ∀ c, (listText texts).head? = some c → isTagNamePart c = false :=
    fun _ ↦ Arguments.isTagNamePart_head?_listText
  have hafter : t.afterName = listText texts :=
    (afterName_append hname hrest htext).trans (Arguments.trimEnd_listText texts)
  have hparsed := parse_name registry (tagName?_append hname hrest htext)
  have hget : registry.get? (t.parse registry).tag.name = none := hparsed ▸ hunknown
  have hbody : (t.parse registry).tag.body = String.ofList
      (body (Arguments.read t.site (registry.get? (t.parse registry).tag.name) t.afterName).rest
        t.continuation) := rfl
  refine ⟨hparsed, ?_, ?_⟩
  · rw [parse_arguments, hget, hafter, hread]
  · rw [hbody, hget, hafter, hread, hone]
    rfl

end TagLines

/-- The header that an unknown tag is listed with reads back as a tag of the same name with the same
arguments and no body, unless an argument list of the tag was not closed. -/
theorem Comment.tags_of_header (registry : Registry) (c : Comment) {t : TagLines}
    (ht : t ∈ TagLines.ofLines 0 c.lines)
    (hunknown : registry.get? (t.parse registry).tag.name = none)
    (hlist : ∀ inner, t.afterName = '(' :: inner → (Arguments.split? {} inner).isSome = true)
    (start : Position) (span : Span) :
    let tag := (t.parse registry).tag
    ∃ again, (tags registry ⟨[⟨tag.header.toList, start⟩], span⟩).map (·.tag) = [again] ∧
      again.name = tag.name ∧ again.arguments = tag.arguments ∧ again.body = "" := by
  intro tag
  obtain ⟨name, hname⟩ := Option.isSome_iff_exists.mp (TagLines.mem_ofLines ht).2.1
  have htag : tag.name = String.ofList name := TagLines.parse_name registry hname
  have hvalid := CommentLine.isTagName_of_tagName? hname
  obtain ⟨texts, harguments, hread⟩ := TagLines.exists_texts hunknown hlist
  have hheader : tag.header.toList = '@' :: (name ++ listText texts) := by
    rw [Tag.toList_header harguments, show (t.parse registry).tag.name = _ from htag,
      String.toList_ofList]
  let again : TagLines := ⟨⟨tag.header.toList, start⟩, [], 1⟩
  obtain ⟨hagain, hsame, hbody⟩ := TagLines.parse_listText (t := again) hvalid
    (htag ▸ hunknown) hread hheader rfl
  refine ⟨(again.parse registry).tag, ?_, hagain.trans htag.symm, hsame, hbody⟩
  have hstarts : again.first.startsTag = true := by
    rw [CommentLine.startsTag, TagLines.tagName?_append hvalid
      (fun _ ↦ Arguments.isTagNamePart_head?_listText) hheader]
    rfl
  have hlines : TagLines.ofLines 0 [again.first] = [again] := if_pos hstarts
  rw [tags, map_tag_tagsAfter, hlines]
  rfl

/-- A quotation with a comma in it, a bracket that nothing opens and an empty argument are read
back. -/
theorem Comment.tags_of_header_route :
    let t : TagLines :=
      ⟨⟨" @route(GET,\u3000\"/u,\\\"s\" ,],) List users".toList, .start⟩,
        [⟨"by name".toList, ⟨40, 2, 1⟩⟩], 2⟩
    let arguments : List Argument := [.raw "GET", .raw "\"/u,\\\"s\"", .raw "]", .raw ""]
    (t.parse .standard).tag.arguments = arguments ∧
      (t.parse .standard).tag.header = "@route(GET, \"/u,\\\"s\", ], )" ∧
      ∃ again,
        (tags .standard ⟨[⟨(t.parse .standard).tag.header.toList, .start⟩], t.span⟩).map (·.tag) =
          [again] ∧
        again.name = "route" ∧ again.arguments = arguments ∧ again.body = "" := by
  intro t arguments
  have hname : (t.parse .standard).tag.name = "route" := by decide +kernel
  have harguments : (t.parse .standard).tag.arguments = arguments := by decide +kernel
  have hunknown : Registry.standard.get? (t.parse .standard).tag.name = none := by decide +kernel
  have hafter : t.afterName = '(' :: "GET,\u3000\"/u,\\\"s\" ,],) List users".toList := by
    decide +kernel
  have hlist : ∀ inner, t.afterName = '(' :: inner →
      (Arguments.split? {} inner).isSome = true := by
    intro inner hinner
    rw [← (List.cons.inj (hafter.symm.trans hinner)).2]
    decide +kernel
  refine ⟨harguments, by decide +kernel, ?_⟩
  rw [← hname, ← harguments]
  exact tags_of_header .standard ⟨t.first :: t.continuation, t.span⟩ (t := t) (by decide +kernel)
    hunknown hlist .start t.span

end Marginalia
