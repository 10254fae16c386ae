import Marginalia.File.Tree
import Marginalia.Proofs.Partition

/-!
# Texts written into a directory

A text written into a directory changes what stands at one place and nothing else: no directory
appears or goes away, so every path leads where it led before. After many of them a name holds the
last text that was written under it.
-/

namespace Marginalia

/-! ## Names in a directory -/

namespace Text

/-- No piece has a separator in it. -/
theorem notMem_of_mem_pieces {p : Char → Bool} {s piece : List Char} {c : Char} (hc : p c = true)
    (h : piece ∈ pieces p s) : c ∉ piece := by
  induction s generalizing piece with
  | nil =>
    obtain rfl := List.mem_singleton.mp h
    exact List.not_mem_nil
  | cons d s ih =>
    rw [pieces] at h
    split at h
    · rcases List.mem_cons.mp h with rfl | h
      · exact List.not_mem_nil
      · exact ih h
    · next hd =>
      obtain ⟨w, ws, hws⟩ := List.exists_cons_of_ne_nil (pieces_ne_nil p s)
      rw [hws] at h ih
      rcases List.mem_cons.mp h with rfl | h
      · refine List.not_mem_cons_of_ne_of_not_mem ?_ (ih List.mem_cons_self)
        rintro rfl
        exact hd hc
      · exact ih (List.mem_cons_of_mem _ h)
end Text

namespace Path

/-- A text that stands for one entry of a directory when it is put after a slash. -/
structure IsName (name : String) : Prop where
  notMem_slash : '/' ∉ name.toList
  ne_empty : name ≠ ""
  ne_dot : name ≠ "."
  ne_dots : name ≠ ".."

variable {path name : String}

theorem segments_append_slash (s t : String) :
    segments (s ++ "/" ++ t) = segments s ++ segments t := by
  have hlist : (s ++ "/" ++ t).toList = s.toList ++ '/' :: t.toList := by simp
  rw [segments, hlist, Text.pieces_append_cons (by decide), List.map_append]
  rfl

theorem IsName.segments_eq (h : IsName name) : segments name = [name] := by
  have hpieces : ∀ s : List Char, '/' ∉ s → Text.pieces (· = '/') s = [s] := by
    intro s hs
    induction s with
    | nil => rfl
    | cons c s ih =>
      obtain ⟨hc, hs⟩ := List.ne_and_not_mem_of_not_mem_cons hs
      rw [Text.pieces, if_neg (by simpa using hc.symm), ih hs]
  rw [segments, hpieces _ h.notMem_slash, List.map_singleton, String.ofList_toList]

/-- A name comes after a directory and one slash. -/
theorem IsName.exists_join_eq (h : IsName name) (hpath : path ≠ "") :
    ∃ s, (path = s ∨ path = s ++ "/") ∧ join path name = s ++ "/" ++ name := by
  have hslash : name.startsWith "/" = false := by
    rw [Bool.eq_false_iff]
    intro hstart
    rw [String.startsWith_string_iff] at hstart
    exact h.notMem_slash (hstart.subset (by decide))
  have hempty : path.isEmpty = false := by simpa using hpath
  rw [join, hslash, hempty, Bool.or_self, if_neg Bool.false_ne_true]
  split
  · next hend =>
    rw [← String.endsWith_toSlice, String.Slice.endsWith_string_iff] at hend
    obtain ⟨s, hs⟩ := hend
    refine ⟨String.ofList s, .inr ?_, ?_⟩
    · refine String.toList_injective ?_
      simpa using hs.symm
    · refine String.toList_injective ?_
      have hs' : s ++ ['/'] = path.toList := by simpa using hs
      simp [← hs']
  · exact ⟨path, .inl rfl, rfl⟩

variable {s : String}

theorem eq_of_inner? (h : inner? s = some (.name name)) : name = s := by
  unfold inner? at h
  split_ifs at h
  · exact nomatch Option.some.inj h
  · exact (Component.name.inj (Option.some.inj h)).symm

theorem mem_segments_of_name_mem (h : .name name ∈ components path) : name ∈ segments path := by
  have hsingle : ∀ {s : String}, .name name ∈ (inner? s).toList → name = s := fun h ↦
    eq_of_inner? (Option.mem_toList.mp h)
  unfold components at h
  split at h
  · contradiction
  · next hs =>
    rw [hs]
    split_ifs at h
    · simp at h
    · exact List.mem_singleton.mpr (hsingle h)
  · next hs =>
    rw [hs]
    rcases List.mem_append.mp h with h | h
    · split_ifs at h
      · simp at h
      · simp at h
      · exact hsingle h ▸ List.mem_cons_self
    · obtain ⟨s, hs, hname⟩ := List.mem_filterMap.mp h
      exact List.mem_cons_of_mem _ (eq_of_inner? hname ▸ hs)

theorem notMem_slash_of_fileName? (h : fileName? path = some name) : '/' ∉ name.toList := by
  unfold fileName? at h
  split at h
  · next s hlast =>
    obtain rfl := Option.some.inj h
    obtain ⟨piece, hpiece, rfl⟩ :=
      List.mem_map.mp (mem_segments_of_name_mem (List.mem_of_getLast? hlast))
    rw [String.toList_ofList]
    exact Text.notMem_of_mem_pieces (by decide) hpiece
  · contradiction

theorem splitName_fst_subset (name : List Char) : (splitName name).1 ⊆ name := by
  unfold splitName
  dsimp only
  split
  · exact List.Subset.refl name
  · exact List.Subset.trans (List.dropLast_subset _) (List.take_subset _ _)

theorem notMem_slash_of_stem? (h : stem? path = some name) : '/' ∉ name.toList := by
  obtain ⟨file, hfile, rfl⟩ := Option.map_eq_some_iff.mp h
  rw [String.toList_ofList]
  exact fun hslash ↦ notMem_slash_of_fileName? hfile (splitName_fst_subset _ hslash)

/-- Paths that are in order and not the same stay as they are. -/
theorem sortDistinct_of_pairwise {paths : List String}
    (h : paths.Pairwise fun p q ↦ notAfter p q = true ∧ components q ≠ components p) :
    sortDistinct paths = paths := by
  rw [sortDistinct, List.mergeSort_of_pairwise (h.imp And.left)]
  induction paths with
  | nil => rfl
  | cons path paths ih =>
    obtain ⟨hpath, h⟩ := List.pairwise_cons.mp h
    rw [List.foldr_cons, ih h]
    cases paths with
    | nil => rfl
    | cons next paths =>
      rw [List.dropWhile_cons_of_neg]
      simpa using (hpath next List.mem_cons_self).2

end Path

namespace FileTree

variable {t t' u : FileTree} {d place r : List String} {dir name path text : String} {e : Entry}

/-! ## What stands at a place -/

/-- Whether there is something at a place although no entry says what. -/
def implies (t : FileTree) (place : List String) : Bool :=
  isAbove place || isRoot place || t.entries.any (place.isPrefixOf ·.1)

theorem get?_eq (t : FileTree) (place : List String) :
    t.get? place =
      (t.entries.lookup place).or (if t.implies place then some .directory else none) := by
  rw [get?]
  cases t.entries.lookup place <;> rfl

theorem mem_entries_of_lookup (h : t.entries.lookup place = some e) : (place, e) ∈ t.entries := by
  obtain ⟨before, after, hentries, -⟩ := List.lookup_eq_some_iff.mp h
  rw [hentries]
  exact List.mem_append_cons_self

/-- What lies on the way to a directory is known, too. -/
theorem implies_of_isPrefix (h : t.isDirectoryAt d = true) (hr : r <+: d) : t.implies r = true := by
  simp only [implies, Bool.or_eq_true, List.any_eq_true, List.isPrefixOf_iff_prefix]
  rw [isDirectoryAt, get?_eq] at h
  cases hlookup : t.entries.lookup d with
  | some e => exact .inr ⟨(d, e), mem_entries_of_lookup hlookup, hr⟩
  | none =>
    have himplies : t.implies d = true := by
      by_contra hnot
      simp [hlookup, hnot] at h
    simp only [implies, Bool.or_eq_true, List.any_eq_true, List.isPrefixOf_iff_prefix] at himplies
    rcases himplies with (habove | hroot) | ⟨x, hx, hd⟩
    · refine .inl (.inl (List.all_eq_true.mpr fun s hs ↦ ?_))
      exact List.all_eq_true.mp habove s (hr.subset hs)
    · rw [of_decide_eq_true hroot, List.prefix_cons_iff] at hr
      rcases hr with rfl | ⟨rest, rfl, hrest⟩
      · exact .inl (.inl rfl)
      · rw [List.prefix_nil.mp hrest]
        exact .inl (.inr rfl)
    · exact .inr ⟨x, hx, hr.trans hd⟩

theorem lookup_filter_ne (h : r ≠ place) (entries : List (List String × Entry)) :
    (entries.filter (·.1 ≠ place)).lookup r = entries.lookup r := by
  induction entries with
  | nil => rfl
  | cons x entries ih =>
    by_cases hx : x.1 = place
    · rw [List.filter_cons_of_neg (by simpa using hx), ih, List.lookup_cons,
        beq_false_of_ne (hx ▸ h)]
    · rw [List.filter_cons_of_pos (by simpa using hx), List.lookup_cons, List.lookup_cons, ih]

@[simp]
theorem get?_set_self (t : FileTree) (place : List String) (e : Entry) :
    (t.set place e).get? place = some e := by
  rw [get?_eq, set, List.lookup_cons_self, Option.or]

theorem implies_set : (t.set place e).implies r = (t.implies r || r.isPrefixOf place) := by
  rw [Bool.eq_iff_iff]
  simp only [implies, set, Bool.or_eq_true, List.any_eq_true, List.mem_cons, List.mem_filter,
    exists_eq_or_imp, decide_eq_true_eq]
  constructor
  · rintro (h | hplace | ⟨x, ⟨hx, -⟩, hr⟩)
    · exact .inl (.inl h)
    · exact .inr hplace
    · exact .inl (.inr ⟨x, hx, hr⟩)
  · rintro ((h | ⟨x, hx, hr⟩) | hplace)
    · exact .inl h
    · by_cases heq : x.1 = place
      · exact .inr (.inl (heq ▸ hr))
      · exact .inr (.inr ⟨x, ⟨hx, heq⟩, hr⟩)
    · exact .inr (.inl hplace)

theorem lookup_entries_set_of_ne (h : r ≠ place) :
    (t.set place e).entries.lookup r = t.entries.lookup r := by
  rw [set, List.lookup_cons, beq_false_of_ne h]
  exact lookup_filter_ne h _

/-- An entry changes no other place, as long as the way to it was known. -/
theorem get?_set_of_ne (h : r ≠ place) (hway : r <+: place → t.implies r = true) :
    (t.set place e).get? r = t.get? r := by
  have himplies : (t.set place e).implies r = t.implies r := by
    rw [implies_set, Bool.or_eq_left_iff_imp]
    intro hr
    exact hway (List.isPrefixOf_iff_prefix.mp hr)
  rw [get?_eq, get?_eq, himplies, lookup_entries_set_of_ne h]

/-! ## Where a path leads -/

theorem isDirectoryAt_iff : t.isDirectoryAt place = true ↔ t.get? place = some .directory := by
  rw [isDirectoryAt]
  split
  · next h => simp [h]
  · next h => simpa using h

theorem follow_of_isDirectoryAt (h : t.isDirectoryAt place = true) (s : String)
    (ss : List String) :
    t.follow place (s :: ss) =
      if s = "" ∨ s = "." then t.follow place ss
      else if s = ".." then t.follow (above place) ss
      else if longestName < s.utf8ByteSize then .error .nameTooLong
      else t.follow (place ++ [s]) ss := by
  rw [follow, isDirectoryAt_iff.mp h]

/-- Every place that a path goes on from is a directory. -/
theorem isDirectoryAt_of_follow {s : String} {ss : List String}
    (h : t.follow place (s :: ss) = .ok r) : t.isDirectoryAt place = true := by
  rw [isDirectoryAt_iff]
  unfold follow at h
  split at h
  · contradiction
  · contradiction
  · assumption

theorem follow_append (t : FileTree) (place : List String) (ss ss' : List String) :
    t.follow place (ss ++ ss') = t.follow place ss >>= (t.follow · ss') := by
  induction ss generalizing place with
  | nil => rfl
  | cons s ss ih =>
    rw [List.cons_append, follow, follow]
    cases t.get? place with
    | none => rfl
    | some e =>
      cases e with
      | file content => rfl
      | directory =>
        dsimp only
        split_ifs
        · exact ih _
        · exact ih _
        · rfl
        · exact ih _

theorem follow_append_eq_ok {ss ss' : List String} :
    t.follow place (ss ++ ss') = .ok r ↔
      ∃ d, t.follow place ss = .ok d ∧ t.follow d ss' = .ok r := by
  rw [follow_append]
  cases t.follow place ss with
  | error e => simp [bind, Except.bind]
  | ok d => simp [bind, Except.bind]

/-- With the same directories paths lead to the same places. -/
theorem follow_eq_ok (hsame : ∀ place, t.isDirectoryAt place = u.isDirectoryAt place)
    {segments : List String} (h : t.follow place segments = .ok r) :
    u.follow place segments = .ok r := by
  induction segments generalizing place with
  | nil => exact h
  | cons s ss ih =>
    have hdirectory := isDirectoryAt_of_follow h
    rw [follow_of_isDirectoryAt hdirectory] at h
    rw [follow_of_isDirectoryAt (hsame place ▸ hdirectory)]
    split_ifs at h ⊢
    · exact ih h
    · exact ih h
    · exact ih h

theorem locate_eq_ok (hsame : ∀ place, t.isDirectoryAt place = u.isDirectoryAt place)
    (h : t.locate path = .ok r) : u.locate path = .ok r := by
  rw [locate] at h ⊢
  split_ifs at h ⊢
  · exact follow_eq_ok hsame h
  · exact follow_eq_ok hsame h

/-- Where the start of a path stands, the path goes on from. -/
theorem locate_of_append {s : String} {segments : List String} (hdir : dir ≠ "")
    (hpath : Path.segments (dir ++ s) = segments ++ [name]) (h : t.locate (dir ++ s) = .ok r) :
    ∃ start d, t.follow start segments = .ok d ∧ t.follow d [name] = .ok r ∧
      t.locate dir = t.follow start (Path.segments dir) := by
  obtain ⟨c, cs, hcs⟩ := List.exists_cons_of_ne_nil (String.toList_eq_nil_iff.not.mpr hdir)
  have hstart : (dir ++ s).startsWith "/" = dir.startsWith "/" := by
    rw [Bool.eq_iff_iff, String.startsWith_string_iff, String.startsWith_string_iff]
    simp [hcs]
  rw [locate, hpath, hstart] at h
  generalize hplace : (if dir.startsWith "/" = true then ["/"] else []) = start at h
  split_ifs at h with hempty hlong
  obtain ⟨d, hd, hr⟩ := follow_append_eq_ok.mp h
  refine ⟨start, d, hd, hr, ?_⟩
  have hshort : ¬longestPath < dir.utf8ByteSize := by
    rw [String.utf8ByteSize_append] at hlong
    omega
  rw [locate, if_neg (by simpa using hdir), if_neg hshort, hplace]

/-- A name after the path of a directory leads into the directory. -/
theorem locate_join (hname : Path.IsName name) (hdir : dir ≠ "")
    (h : t.locate (Path.join dir name) = .ok r) :
    ∃ d, t.locate dir = .ok d ∧ t.isDirectoryAt d = true ∧ r = d ++ [name] := by
  obtain ⟨s, hs, hjoin⟩ := hname.exists_join_eq hdir
  have hsegments : Path.segments (Path.join dir name) = Path.segments s ++ [name] := by
    rw [hjoin, Path.segments_append_slash, hname.segments_eq]
  have hrest : ∃ rest, Path.join dir name = dir ++ rest := by
    rcases hs with rfl | rfl
    · exact ⟨"/" ++ name, by rw [hjoin, String.append_assoc]⟩
    · exact ⟨name, hjoin⟩
  obtain ⟨rest, hrest⟩ := hrest
  rw [hrest] at h hsegments
  obtain ⟨start, d, hd, hr, hlocate⟩ := locate_of_append hdir hsegments h
  have hdirectory := isDirectoryAt_of_follow hr
  refine ⟨d, ?_, hdirectory, ?_⟩
  · rw [hlocate]
    rcases hs with rfl | rfl
    · exact hd
    · -- the slash at the end leads from the directory to itself
      have hslash : Path.segments (s ++ "/") = Path.segments s ++ [""] := by
        rw [← String.append_empty (s := s ++ "/"), Path.segments_append_slash]
        rfl
      rw [hslash, follow_append_eq_ok]
      exact ⟨d, hd, follow_of_isDirectoryAt hdirectory "" []⟩
  · rw [follow_of_isDirectoryAt hdirectory, if_neg (not_or.mpr ⟨hname.ne_empty, hname.ne_dot⟩),
      if_neg hname.ne_dots] at hr
    split_ifs at hr
    exact (Except.ok.inj hr).symm

/-! ## Making directories -/

/-- Every file has an entry. -/
theorem get?_eq_file_iff {content : ByteArray} :
    t.get? place = some (.file content) ↔ t.entries.lookup place = some (.file content) := by
  rw [get?_eq]
  cases t.entries.lookup place with
  | some e => rw [Option.some_or]
  | none => simp

theorem get?_of_get?_set_directory {content : ByteArray}
    (h : (t.set place .directory).get? r = some (.file content)) :
    t.get? r = some (.file content) := by
  have hr : r ≠ place := by
    rintro rfl
    simp at h
  rwa [get?_eq_file_iff, lookup_entries_set_of_ne hr, ← get?_eq_file_iff] at h

theorem get?_of_makeDirectory {content : ByteArray} (h : t.makeDirectory path = .ok u)
    (hfile : u.get? r = some (.file content)) : t.get? r = some (.file content) := by
  unfold makeDirectory at h
  split at h
  · contradiction
  · split_ifs at h
    obtain rfl := Except.ok.inj h
    exact get?_of_get?_set_directory hfile

/-- No file comes with new directories. -/
theorem get?_of_makeDirectories {content : ByteArray} {paths : List String}
    (h : t.makeDirectories paths = .ok u) (hfile : u.get? r = some (.file content)) :
    t.get? r = some (.file content) := by
  induction paths generalizing u with
  | nil => exact Except.ok.inj h ▸ hfile
  | cons path outer ih =>
    -- a directory that was there before is settled for
    have hsettle : ∀ {t' : FileTree} {e : FileError},
        (if t'.isDirectory path then Except.ok t' else .error e) = .ok u → t' = u := by
      intro t' e hok
      split_ifs at hok
      exact Except.ok.inj hok
    unfold makeDirectories at h
    dsimp only at h
    split at h
    · next hmade => exact get?_of_makeDirectory hmade (Except.ok.inj h ▸ hfile)
    · split at h
      · contradiction
      · next t' hout =>
        refine ih hout ?_
        split at h
        · next hmade => exact get?_of_makeDirectory hmade (Except.ok.inj h ▸ hfile)
        · exact hsettle h ▸ hfile
    · exact hsettle h ▸ hfile

/-! ## Writing into a directory -/

/-- One tree comes from another by changes to files right in the directory at `d`. -/
structure Differ (d : List String) (t u : FileTree) : Prop where
  isDirectoryAt_eq : ∀ place, t.isDirectoryAt place = u.isDirectoryAt place
  get?_eq : ∀ place, (∀ name, place ≠ d ++ [name]) → u.get? place = t.get? place

namespace Differ

theorem refl (d : List String) (t : FileTree) : Differ d t t := ⟨fun _ ↦ rfl, fun _ _ ↦ rfl⟩

theorem trans (h : Differ d t t') (h' : Differ d t' u) : Differ d t u where
  isDirectoryAt_eq place := (h.isDirectoryAt_eq place).trans (h'.isDirectoryAt_eq place)
  get?_eq place hne := (h'.get?_eq place hne).trans (h.get?_eq place hne)

theorem locate_iff (h : Differ d t u) : u.locate path = .ok r ↔ t.locate path = .ok r :=
  ⟨locate_eq_ok fun place ↦ (h.isDirectoryAt_eq place).symm, locate_eq_ok h.isDirectoryAt_eq⟩

/-- A file that is not right in the directory is read as before. -/
theorem readText_eq_ok (h : Differ d t u) (hplace : ∀ name, t.locate path ≠ .ok (d ++ [name]))
    (hread : u.readText path = .ok text) : t.readText path = .ok text := by
  rw [readText] at hread ⊢
  cases hlocate : u.locate path with
  | error e => rw [hlocate] at hread; contradiction
  | ok place =>
    have hlocate' := h.locate_iff.mp hlocate
    have hget := h.get?_eq place fun name hname ↦ hplace name (hname ▸ hlocate')
    rw [hlocate] at hread
    rw [hlocate']
    dsimp only at hread ⊢
    rw [← hget, hread]

end Differ

/-- A text written right into a directory stands at its place, and nowhere else is a change. -/
theorem get?_set_of_isDirectoryAt (hd : t.isDirectoryAt d = true) (h : r ≠ d ++ [name]) :
    (t.set (d ++ [name]) e).get? r = t.get? r := by
  refine get?_set_of_ne h fun hr ↦ implies_of_isPrefix hd ?_
  exact (List.prefix_concat_iff.mp hr).resolve_left h

theorem differ_set (hd : t.isDirectoryAt d = true) (hfile : t.isDirectoryAt (d ++ [name]) = false)
    (content : ByteArray) : Differ d t (t.set (d ++ [name]) (.file content)) where
  isDirectoryAt_eq place := by
    by_cases h : place = d ++ [name]
    · rw [h, hfile, isDirectoryAt, get?_set_self]
    · rw [isDirectoryAt, isDirectoryAt, get?_set_of_isDirectoryAt hd h]
  get?_eq place h := get?_set_of_isDirectoryAt hd (h name)

/-- A text that is written under a name in a directory is put right into it. -/
theorem writeText_join (hname : Path.IsName name) (hdir : dir ≠ "")
    (h : t.writeText (Path.join dir name) text = .ok u) :
    ∃ d, t.locate dir = .ok d ∧ t.isDirectoryAt d = true ∧
      t.locate (Path.join dir name) = .ok (d ++ [name]) ∧
      t.isDirectoryAt (d ++ [name]) = false ∧ u = t.set (d ++ [name]) (.file text.toUTF8) := by
  rw [writeText] at h
  split at h
  · contradiction
  · next place hplace =>
    obtain ⟨d, hd, hdirectory, rfl⟩ := locate_join hname hdir hplace
    split_ifs at h with hfile
    exact ⟨d, hd, hdirectory, hplace, by simpa using hfile, (Except.ok.inj h).symm⟩

theorem readText_of_get? (hplace : t.locate path = .ok place)
    (hget : t.get? place = some (.file text.toUTF8)) : t.readText path = .ok text := by
  have htext : String.fromUTF8? text.toUTF8 = some text := dif_pos text.isValidUTF8
  rw [readText, hplace]
  dsimp only
  rw [hget]
  dsimp only
  rw [htext]

/-- Put texts under names into the directory at `d`, one after the other. -/
def deposit (d : List String) (t : FileTree) (texts : List (String × String)) : FileTree :=
  texts.foldl (fun t (name, text) ↦ t.set (d ++ [name]) (.file text.toUTF8)) t

variable {texts : List (String × String)}

theorem differ_deposit (hd : t.isDirectoryAt d = true)
    (hfile : ∀ x ∈ texts, t.isDirectoryAt (d ++ [x.1]) = false) :
    Differ d t (deposit d t texts) := by
  induction texts generalizing t with
  | nil => exact .refl d t
  | cons x texts ih =>
    obtain ⟨hx, hfile⟩ := List.forall_mem_cons.mp hfile
    have hset := differ_set hd hx x.2.toUTF8
    refine hset.trans (ih (hset.isDirectoryAt_eq d ▸ hd) fun y hy ↦ ?_)
    rw [← hset.isDirectoryAt_eq, hfile y hy]

/-- Where no text was put, nothing changes. -/
theorem get?_deposit_of_forall_ne (hd : t.isDirectoryAt d = true)
    (hfile : ∀ x ∈ texts, t.isDirectoryAt (d ++ [x.1]) = false)
    (hplace : ∀ x ∈ texts, place ≠ d ++ [x.1]) :
    (deposit d t texts).get? place = t.get? place := by
  induction texts generalizing t with
  | nil => rfl
  | cons x texts ih =>
    obtain ⟨hx, hfile⟩ := List.forall_mem_cons.mp hfile
    obtain ⟨hne, hplace⟩ := List.forall_mem_cons.mp hplace
    have hset := differ_set hd hx x.2.toUTF8
    have hrest := ih (hset.isDirectoryAt_eq d ▸ hd)
      (fun y hy ↦ by rw [← hset.isDirectoryAt_eq, hfile y hy]) hplace
    rw [deposit, List.foldl_cons, ← deposit, hrest, get?_set_of_isDirectoryAt hd hne]

/-- A name holds the last of the texts that were put under it. -/
theorem get?_deposit (hd : t.isDirectoryAt d = true)
    (hfile : ∀ x ∈ texts, t.isDirectoryAt (d ++ [x.1]) = false) (name : String) :
    (deposit d t texts).get? (d ++ [name]) =
      ((texts.filter (·.1 = name)).getLast?.map fun x ↦ .file x.2.toUTF8).or
        (t.get? (d ++ [name])) := by
  induction texts generalizing t with
  | nil => rfl
  | cons x texts ih =>
    obtain ⟨hx, hfile⟩ := List.forall_mem_cons.mp hfile
    have hset := differ_set hd hx x.2.toUTF8
    have hrest := ih (hset.isDirectoryAt_eq d ▸ hd) fun y hy ↦ by
      rw [← hset.isDirectoryAt_eq, hfile y hy]
    rw [deposit, List.foldl_cons, ← deposit, hrest]
    by_cases hname : x.1 = name
    · subst hname
      rw [List.filter_cons_of_pos (by simp), List.getLast?_cons, get?_set_self]
      cases (texts.filter (·.1 = x.1)).getLast? <;> rfl
    · have hne : d ++ [name] ≠ d ++ [x.1] := by simpa using Ne.symm hname
      rw [List.filter_cons_of_neg (by simpa using hname), get?_set_of_isDirectoryAt hd hne]

end FileTree

end Marginalia
