import Marginalia.CommandLine.Session
import Marginalia.Proofs.Files
import Mathlib.Data.Finset.Card
import Mathlib.Data.Finset.Dedup

/-!
# What a session leaves in its output directory

A session with an output directory names the document of a file by the stem of the file's path. So
files with one stem, in different directories or in different languages, have one document between
them: the last of them that is scanned takes it. Every input file has a document of its own just
when no two of them share a stem.
-/

namespace Marginalia

theorem Catalogue.forExtension?_builtin (extension : String) :
    Catalogue.builtin.forExtension? extension =
      [Grammar.go, .javascript, .python].find? (·.extensions.contains extension) := by
  let le := fun a b : Grammar ↦ decide (a.name ≤ b.name)
  have hpython : le .javascript .python = true := by decide +kernel
  have hgo : le .javascript .go = false := by decide +kernel
  have hpair : [Grammar.javascript, .python].mergeSort le = [.javascript, .python] :=
    List.mergeSort_of_pairwise (List.pairwise_pair.mpr hpython)
  have hsorted : Catalogue.builtin.sorted = [.go, .javascript, .python] := by
    rw [sorted, builtin, List.mergeSort]
    change ([Grammar.javascript, .python].mergeSort le).merge ([Grammar.go].mergeSort le) le = _
    rw [hpair, List.mergeSort_singleton, List.cons_merge_cons, hgo, if_neg Bool.false_ne_true,
      List.merge_right]
  rw [forExtension?, hsorted]

namespace CommandLine

open FileTree (Differ deposit)

variable {α β : Type}

/-! ## Tasks that succeed -/

namespace Task

variable {s s' : Session} {x : Task α} {f : α → Task β} {b : β}

theorem run_bind (x : Task α) (f : α → Task β) (s : Session) :
    (x >>= f).run s =
      match x.run s with
      | (.ok a, s₁) => (f a).run s₁
      | (.error e, s₁) => (.error e, s₁) := by
  rw [ExceptT.run_bind]
  rcases h : x.run s with ⟨e | a, s₁⟩
  · simp only [bind, StateT.bind, h]
    rfl
  · simp only [bind, StateT.bind, h]

/-- A task that goes through goes through in both of its steps. -/
theorem run_bind_eq_ok :
    (x >>= f).run s = (.ok b, s') ↔
      ∃ a s₁, x.run s = (.ok a, s₁) ∧ (f a).run s₁ = (.ok b, s') := by
  rw [run_bind]
  rcases x.run s with ⟨e | a, s₁⟩
  · constructor
    · exact fun h ↦ nomatch congrArg Prod.fst h
    · exact fun ⟨_, _, h, _⟩ ↦ nomatch congrArg Prod.fst h
  · constructor
    · exact fun h ↦ ⟨a, s₁, rfl, h⟩
    · rintro ⟨a', s₁', h, hf⟩
      obtain ⟨rfl, rfl⟩ : a = a' ∧ s₁ = s₁' := by simpa using Prod.mk.inj h
      exact hf

theorem run_get_bind {f : Session → Task β} : (get >>= f).run s = (f s).run s := rfl

theorem run_pure_eq_ok {a b : α} : (pure a : Task α).run s = (.ok b, s') ↔ a = b ∧ s = s' := by
  change ((.ok a, s) : Except Failure α × Session) = (.ok b, s') ↔ _
  simp

theorem run_modify_eq_ok {g : Session → Session} {u : Unit} :
    (modify g : Task Unit).run s = (.ok u, s') ↔ g s = s' := by
  change ((.ok (), g s) : Except Failure Unit × Session) = (.ok u, s') ↔ _
  simp

theorem run_fail_ne_ok {message : String} {a : α} : (fail message : Task α).run s ≠ (.ok a, s') :=
  fun h ↦ nomatch congrArg Prod.fst h

theorem run_failBecause_ne_ok {message cause : String} {a : α} :
    (failBecause message cause : Task α).run s ≠ (.ok a, s') :=
  fun h ↦ nomatch congrArg Prod.fst h

end Task

/-! ## Tasks that write no file -/

/-- A task that leaves the file tree alone, whether it succeeds or not. -/
def Task.KeepsFiles (x : Task α) : Prop := ∀ s, (x.run s).2.files = s.files

namespace Task.KeepsFiles

variable {x : Task α} {f : α → Task β} {g : Session → Task β}

theorem pure (a : α) : KeepsFiles (pure a : Task α) := fun _ ↦ rfl

theorem fail (message : String) : KeepsFiles (fail message : Task α) := fun _ ↦ rfl

theorem failBecause (message cause : String) : KeepsFiles (failBecause message cause : Task α) :=
  fun _ ↦ rfl

theorem warn (line : String) : KeepsFiles (warn line) := fun _ ↦ rfl

theorem bind (hx : KeepsFiles x) (hf : ∀ a, KeepsFiles (f a)) : KeepsFiles (x >>= f) := by
  intro s
  rw [run_bind]
  rcases h : x.run s with ⟨r, s₁⟩
  have hs : s₁.files = s.files := by rw [← hx s, h]
  cases r with
  | error e => exact hs
  | ok a => exact (hf a s₁).trans hs

theorem get_bind (hg : ∀ s, KeepsFiles (g s)) : KeepsFiles (get >>= g) := fun s ↦ hg s s

theorem mapM {f : α → Task β} (hf : ∀ a, KeepsFiles (f a)) (as : List α) :
    KeepsFiles (as.mapM f) := by
  induction as with
  | nil => exact pure []
  | cons a as ih =>
    rw [List.mapM_cons]
    exact bind (hf a) fun b ↦ bind ih fun bs ↦ pure (b :: bs)

theorem forM {f : α → Task PUnit} (hf : ∀ a, KeepsFiles (f a)) (as : List α) :
    KeepsFiles (as.forM f) := by
  induction as with
  | nil => exact pure _
  | cons a as ih => exact bind (hf a) fun _ ↦ ih

end Task.KeepsFiles

open Marginalia.CommandLine.Task (KeepsFiles run_bind_eq_ok run_get_bind run_pure_eq_ok
  run_modify_eq_ok run_fail_ne_ok run_failBecause_ne_ok)

variable (a : Arguments)

theorem keepsFiles_scanText (label language source : String) :
    KeepsFiles (scanText a label language source) := by
  rw [scanText]
  split
  · exact .failBecause _ _
  · next found _ =>
    refine .bind (.forM (fun _ ↦ .warn _) _) fun _ ↦ .bind (fun _ ↦ rfl) fun _ ↦ .pure _

theorem keepsFiles_expand (pattern : String) : KeepsFiles (expand a pattern) := by
  refine .get_bind fun s ↦ ?_
  dsimp only
  split_ifs
  · exact .pure _
  · exact .pure _
  · split
    · exact .failBecause _ _
    · exact .bind (.warn _) fun _ ↦ .pure _
    · exact .pure _

theorem keepsFiles_inputFiles : KeepsFiles (inputFiles a) :=
  .bind (.mapM (keepsFiles_expand a) _) fun _ ↦ .pure _

/-! ## Documents and their names -/

/-- The stem of a file's path, which its document is named by. -/
def stem (path : String) : String := (Path.stem? path).getD "out"

/-- The name of the document of a file. -/
def documentName (format : Format) (path : String) : String :=
  stem path ++ "." ++ format.fileExtension

theorem documentPath_eq (dir path : String) (format : Format) :
    documentPath dir path format = Path.join dir (documentName format path) := rfl

theorem documentName_inj {format : Format} {p q : String} :
    documentName format p = documentName format q ↔ stem p = stem q := by
  refine ⟨fun h ↦ ?_, fun h ↦ by rw [documentName, h, documentName]⟩
  exact (String.append_left_inj _).mp ((String.append_left_inj _).mp h)

theorem notMem_slash_stem (path : String) : '/' ∉ (stem path).toList := by
  rw [stem]
  cases h : Path.stem? path with
  | none => decide
  | some name => exact Path.notMem_slash_of_stem? h

theorem isName_documentName (format : Format) (path : String) :
    Path.IsName (documentName format path) := by
  have hlist : (documentName format path).toList =
      (stem path).toList ++ '.' :: format.fileExtension.toList := by
    simp [documentName]
  have hextension : '/' ∉ '.' :: format.fileExtension.toList ∧
      2 < ('.' :: format.fileExtension.toList).length := by
    cases format <;> decide
  -- with its extension it is longer than two dots
  have hlong : ∀ {s : String}, s.toList.length ≤ 2 → documentName format path ≠ s := by
    rintro s hs rfl
    rw [hlist, List.length_append] at hs
    omega
  refine ⟨?_, hlong (by decide), hlong (by decide), hlong (by decide)⟩
  rw [hlist, List.mem_append, not_or]
  exact ⟨notMem_slash_stem path, hextension.1⟩

/-- The document of a file in a tree, if its language is known and its text can be read. -/
def Arguments.document? (a : Arguments) (format : Format) (t : FileTree) (path : String) :
    Option String := do
  let language ← a.languageFor? path
  let source ← (t.readText path).toOption
  let found ← (scan .builtin .standard a.scanOptions language source).toOption
  return format.render path found

/-- The file tree after the output directory is made. -/
def Arguments.prepared (a : Arguments) (t : FileTree) : FileTree :=
  ((prepareOutput a).run { files := t }).2.files

/-- The input files of a session that starts with a file tree, expanded, sorted and without
repetition. -/
def Arguments.inputs (a : Arguments) (t : FileTree) : List String :=
  match (inputFiles a).run { files := a.prepared t } with
  | (.ok paths, _) => paths
  | (.error _, _) => []

/-! ## One file -/

variable {a} {format : Format} {dir path text : String} {s s' : Session}

theorem document?_eq_some_iff {t : FileTree} :
    a.document? format t path = some text ↔
      ∃ language source found, a.languageFor? path = some language ∧
        t.readText path = .ok source ∧
        scan .builtin .standard a.scanOptions language source = .ok found ∧
        format.render path found = text := by
  have hoption : ∀ {ε α : Type} {x : Except ε α} {b : α}, x.toOption = some b ↔ x = .ok b := by
    rintro ε α (e | a) b
    · simp [Except.toOption]
    · simp [Except.toOption]
  simp only [Arguments.document?, bind, Option.bind_eq_some_iff, hoption, pure, Option.some.injEq]
  grind

theorem writeDocument_eq_ok (hdir : a.output = some dir)
    (h : (writeDocument a format path text).run s = (.ok (), s')) :
    s.files.writeText (documentPath dir path format) text = .ok s'.files := by
  rw [writeDocument, hdir] at h
  dsimp only at h
  rw [run_get_bind] at h
  split at h
  · exact absurd h run_failBecause_ne_ok
  · next files hfiles =>
    rw [run_modify_eq_ok] at h
    rw [hfiles, ← h]

theorem scanText_eq_ok {language source : String} {found : Findings}
    (h : (scanText a path language source).run s = (.ok found, s')) :
    scan .builtin .standard a.scanOptions language source = .ok found ∧ s'.files = s.files := by
  have hfiles := keepsFiles_scanText a path language source s
  rw [h] at hfiles
  refine ⟨?_, hfiles⟩
  rw [scanText] at h
  split at h
  · exact absurd h run_failBecause_ne_ok
  · next found' hscan =>
    obtain ⟨_, _, -, h⟩ := run_bind_eq_ok.mp h
    obtain ⟨_, _, -, h⟩ := run_bind_eq_ok.mp h
    rw [hscan, (run_pure_eq_ok.mp h).1]

/-- A file whose language is known gets its document written. -/
theorem fromFile_eq_ok (hdir : a.output = some dir) (hlanguage : (a.languageFor? path).isSome)
    (h : (fromFile a format path).run s = (.ok (), s')) :
    ∃ text, a.document? format s.files path = some text ∧
      s.files.writeText (documentPath dir path format) text = .ok s'.files := by
  obtain ⟨language, hlanguage⟩ := Option.isSome_iff_exists.mp hlanguage
  rw [fromFile, hlanguage] at h
  dsimp only at h
  rw [run_get_bind] at h
  split at h
  · exact absurd h run_failBecause_ne_ok
  · next source hsource =>
    obtain ⟨found, s₁, hscan, hwrite⟩ := run_bind_eq_ok.mp h
    obtain ⟨hscan, hfiles⟩ := scanText_eq_ok hscan
    refine ⟨format.render path found, ?_, hfiles ▸ writeDocument_eq_ok hdir hwrite⟩
    exact document?_eq_some_iff.mpr ⟨language, source, found, hlanguage, hsource, hscan, rfl⟩

/-! ## All files -/

variable {t : FileTree} {d : List String} {paths : List String}

/-- The documents of files under their names. -/
def Arguments.documents (a : Arguments) (format : Format) (t : FileTree) (paths : List String) :
    List (String × String) :=
  paths.map fun path ↦ (documentName format path, (a.document? format t path).getD "")

/-- A file has a document, and there is room for it in a directory. -/
structure Deliverable (a : Arguments) (format : Format) (t : FileTree) (dir : String)
    (d : List String) (path : String) : Prop where
  isSome : (a.document? format t path).isSome = true
  locate_eq : t.locate (documentPath dir path format) = .ok (d ++ [documentName format path])
  isDirectoryAt : t.isDirectoryAt d = true
  isFree : t.isDirectoryAt (d ++ [documentName format path]) = false

/-- The document of a file is written as the tree was at first, whatever documents were written
since. -/
theorem fromFile_delivers (hdir : a.output = some dir) (hne : dir ≠ "")
    (hlocate : t.locate dir = .ok d) (hdiffer : Differ d t s.files)
    (hlanguage : (a.languageFor? path).isSome)
    (hplace : ∀ name, t.locate path ≠ .ok (d ++ [name]))
    (h : (fromFile a format path).run s = (.ok (), s')) :
    Deliverable a format t dir d path ∧ Differ d t s'.files ∧
      s'.files = deposit d s.files (a.documents format t [path]) := by
  obtain ⟨text, hdocument, hwrite⟩ := fromFile_eq_ok hdir hlanguage h
  obtain ⟨language, source, found, hlang, hread, hscan, hrender⟩ :=
    document?_eq_some_iff.mp hdocument
  have hdocument' : a.document? format t path = some text := document?_eq_some_iff.mpr
    ⟨language, source, found, hlang, hdiffer.readText_eq_ok hplace hread, hscan, hrender⟩
  rw [documentPath_eq] at hwrite
  obtain ⟨d', hd', hdirectory, hdocumentPlace, hfree, hfiles⟩ :=
    FileTree.writeText_join (isName_documentName format path) hne hwrite
  obtain rfl : d = d' := Except.ok.inj (hlocate.symm.trans (hdiffer.locate_iff.mp hd'))
  refine ⟨⟨?_, hdiffer.locate_iff.mp hdocumentPlace, ?_, ?_⟩, ?_, ?_⟩
  · rw [hdocument', Option.isSome_some]
  · rw [hdiffer.isDirectoryAt_eq, hdirectory]
  · rw [hdiffer.isDirectoryAt_eq, hfree]
  · rw [hfiles]
    exact hdiffer.trans (FileTree.differ_set hdirectory hfree _)
  · rw [hfiles, Arguments.documents, List.map_singleton, hdocument']
    rfl

/-- The files get their documents one after the other. -/
theorem forM_fromFile_delivers (hdir : a.output = some dir) (hne : dir ≠ "")
    (hlocate : t.locate dir = .ok d) (hdiffer : Differ d t s.files)
    (hlanguage : ∀ path ∈ paths, (a.languageFor? path).isSome)
    (hplace : ∀ path ∈ paths, ∀ name, t.locate path ≠ .ok (d ++ [name]))
    (h : (paths.forM (fromFile a format)).run s = (.ok (), s')) :
    (∀ path ∈ paths, Deliverable a format t dir d path) ∧
      s'.files = deposit d s.files (a.documents format t paths) := by
  induction paths generalizing s with
  | nil =>
    obtain ⟨-, rfl⟩ := run_pure_eq_ok.mp h
    exact ⟨List.forall_mem_nil _, rfl⟩
  | cons path paths ih =>
    obtain ⟨hlanguage, hlanguages⟩ := List.forall_mem_cons.mp hlanguage
    obtain ⟨hplace, hplaces⟩ := List.forall_mem_cons.mp hplace
    obtain ⟨⟨⟩, s₁, hfirst, hrest⟩ := run_bind_eq_ok.mp h
    obtain ⟨hdeliverable, hdiffer₁, hfiles₁⟩ :=
      fromFile_delivers hdir hne hlocate hdiffer hlanguage hplace hfirst
    obtain ⟨hdeliverables, hfiles⟩ := ih hdiffer₁ hlanguages hplaces hrest
    refine ⟨List.forall_mem_cons.mpr ⟨hdeliverable, hdeliverables⟩, ?_⟩
    rw [hfiles, hfiles₁]
    rfl

/-! ## Runs -/

theorem prepareOutput_eq_ok (hdir : a.output = some dir)
    (h : (prepareOutput a).run { files := t } = (.ok (), s)) :
    t.makeDirectories (Path.ancestors dir) = .ok (a.prepared t) ∧
      s = { files := a.prepared t } := by
  have hprepared : a.prepared t = s.files := by rw [Arguments.prepared, h]
  rw [prepareOutput, hdir] at h
  dsimp only at h
  rw [run_get_bind] at h
  split at h
  · exact absurd h run_failBecause_ne_ok
  · next files hfiles =>
    obtain rfl := run_modify_eq_ok.mp h
    rw [hprepared]
    exact ⟨hfiles, rfl⟩

theorem requireFormat_eq_ok (h : (requireFormat a).run s = (.ok format, s')) :
    a.documentFormat = .ok format ∧ s = s' := by
  rw [requireFormat] at h
  split at h
  · next format' hformat =>
    obtain ⟨rfl, hs⟩ := run_pure_eq_ok.mp h
    exact ⟨hformat, hs⟩
  · exact absurd h run_fail_ne_ok

/-- A run on files that goes through wrote the documents of its input files. -/
theorem run_eq_ok {args : List String} {stdin : ByteArray} (hread : Arguments.read args = .ok a)
    (hfiles : a.files ≠ []) (hdir : a.output = some dir) (hcode : (run args stdin t).code = 0) :
    ∃ format s, a.documentFormat = .ok format ∧
      t.makeDirectories (Path.ancestors dir) = .ok (a.prepared t) ∧
      s.files = a.prepared t ∧
      ∃ s', ((a.inputs t).forM (fromFile a format)).run s = (.ok (), s') ∧
        (run args stdin t).files = s'.files := by
  have hnonempty : a.files.isEmpty = false := by simpa using hfiles
  rcases hsession : (session a stdin).run { files := t } with ⟨e | ⟨⟩, s'⟩
  · rw [run, hread] at hcode
    simp [hsession] at hcode
  · have hrun : (run args stdin t).files = s'.files := by
      rw [run, hread]
      simp [hsession]
    rw [hrun]
    rw [session, hnonempty, if_neg Bool.false_ne_true] at hsession
    obtain ⟨⟨⟩, s₁, hall, hreport⟩ := run_bind_eq_ok.mp hsession
    -- the report at the end writes nothing
    obtain rfl : s₁ = s' := by
      dsimp only at hreport
      rw [run_get_bind] at hreport
      split_ifs at hreport
      · exact absurd hreport run_fail_ne_ok
      · exact (run_pure_eq_ok.mp hreport).2
    obtain ⟨format, s₂, hrequire, hall⟩ := run_bind_eq_ok.mp hall
    obtain ⟨hformat, rfl⟩ := requireFormat_eq_ok hrequire
    obtain ⟨⟨⟩, s₃, hprepare, hall⟩ := run_bind_eq_ok.mp hall
    obtain ⟨hmade, rfl⟩ := prepareOutput_eq_ok hdir hprepare
    obtain ⟨paths, s₄, hinputs, hall⟩ := run_bind_eq_ok.mp hall
    have hpaths : a.inputs t = paths := by rw [Arguments.inputs, hinputs]
    have hkept := keepsFiles_inputFiles a { files := a.prepared t }
    rw [hinputs] at hkept
    exact ⟨format, s₄, hformat, hmade, hkept, s₁, hpaths ▸ hall, rfl⟩

/-- The last of some files that share their stem with a path. -/
def lastWithStem? (paths : List String) (path : String) : Option String :=
  (paths.filter (stem · = stem path)).getLast?

/-- Each of some files has a place of its own below a directory, and its document stands there. -/
def HoldsEach (t : FileTree) (dir : String) (document? : String → Option String)
    (paths : List String) : Prop :=
  ∃ place : String → List String, Set.InjOn place {path | path ∈ paths} ∧
    ∀ path ∈ paths, ∃ d text, t.locate dir = .ok d ∧ d <+: place path ∧
      document? path = some text ∧ t.get? (place path) = some (.file text.toUTF8)

/-- The path of an output directory is not empty. -/
theorem ne_empty_of_makeDirectories {u : FileTree}
    (h : t.makeDirectories (Path.ancestors dir) = .ok u) : dir ≠ "" := by
  rintro rfl
  have hancestors : Path.ancestors "" = [""] := by decide
  rw [hancestors] at h
  simp [FileTree.makeDirectories, FileTree.makeDirectory, FileTree.locate, Path.dropSlashes,
    FileTree.isDirectory, FileTree.entry?] at h

theorem lastWithStem?_eq_some {last : String} (h : lastWithStem? paths path = some last) :
    last ∈ paths ∧ stem last = stem path := by
  simpa using List.mem_of_getLast? h

theorem isSome_lastWithStem? (h : path ∈ paths) : (lastWithStem? paths path).isSome = true := by
  rw [lastWithStem?, List.getLast?_isSome]
  exact List.ne_nil_of_mem (List.mem_filter.mpr ⟨h, decide_eq_true rfl⟩)

/-- The documents that have one name are those of the files with one stem. -/
theorem getLast?_documents (paths : List String) (path : String) :
    ((a.documents format t paths).filter (·.1 = documentName format path)).getLast? =
      (lastWithStem? paths path).map fun last ↦
        (documentName format last, (a.document? format t last).getD "") := by
  have hstem : ∀ p, decide (documentName format p = documentName format path) =
      decide (stem p = stem path) := fun p ↦ decide_eq_decide.mpr documentName_inj
  rw [Arguments.documents, List.filter_map, List.getLast?_map, lastWithStem?]
  simp only [Function.comp_def, hstem]

section

variable (hpaths : ∀ path ∈ paths, Deliverable a format t dir d path)
include hpaths

theorem isFree_of_mem_documents {x : String × String} (hx : x ∈ a.documents format t paths) :
    t.isDirectoryAt (d ++ [x.1]) = false := by
  obtain ⟨path, hpath, rfl⟩ := List.mem_map.mp hx
  exact (hpaths path hpath).isFree

/-- The place of a document holds the one of the last file with the stem. -/
theorem exists_delivered (hpath : path ∈ paths) :
    ∃ last text, lastWithStem? paths path = some last ∧ a.document? format t last = some text ∧
      (deposit d t (a.documents format t paths)).get? (d ++ [documentName format path]) =
        some (.file text.toUTF8) := by
  obtain ⟨last, hlast⟩ := Option.isSome_iff_exists.mp (isSome_lastWithStem? hpath)
  obtain ⟨text, htext⟩ := Option.isSome_iff_exists.mp
    (hpaths last (lastWithStem?_eq_some hlast).1).isSome
  refine ⟨last, text, hlast, htext, ?_⟩
  rw [FileTree.get?_deposit (hpaths path hpath).isDirectoryAt
    (fun _ ↦ isFree_of_mem_documents hpaths), getLast?_documents, hlast]
  rw [Option.map_some, Option.map_some, htext]
  rfl

theorem differ_delivered (hd : t.isDirectoryAt d = true) :
    Differ d t (deposit d t (a.documents format t paths)) :=
  FileTree.differ_deposit hd fun _ ↦ isFree_of_mem_documents hpaths

theorem readText_delivered (hpath : path ∈ paths) :
    ∃ last text, lastWithStem? paths path = some last ∧ a.document? format t last = some text ∧
      (deposit d t (a.documents format t paths)).readText (documentPath dir path format) =
        .ok text := by
  obtain ⟨last, text, hlast, htext, hget⟩ := exists_delivered hpaths hpath
  have hpath' := hpaths path hpath
  have hlocate := (differ_delivered hpaths hpath'.isDirectoryAt).locate_iff.mpr hpath'.locate_eq
  exact ⟨last, text, hlast, htext, FileTree.readText_of_get? hlocate hget⟩

/-- Files whose stems are distinct have documents of their own. -/
theorem holdsEach_of_injOn (hlocate : t.locate dir = .ok d)
    (hinj : Set.InjOn stem {path | path ∈ paths}) :
    HoldsEach (deposit d t (a.documents format t paths)) dir (a.document? format t) paths := by
  refine ⟨fun path ↦ d ++ [documentName format path], ?_, fun path hpath ↦ ?_⟩
  · intro p hp q hq heq
    have hname : documentName format p = documentName format q :=
      List.singleton_inj.mp (List.append_cancel_left heq)
    exact hinj hp hq (documentName_inj.mp hname)
  · obtain ⟨last, text, hlast, htext, hget⟩ := exists_delivered hpaths hpath
    obtain ⟨hmem, hstem⟩ := lastWithStem?_eq_some hlast
    obtain rfl : last = path := hinj hmem hpath hstem
    have hd := (hpaths last hpath).isDirectoryAt
    exact ⟨d, text, (differ_delivered hpaths hd).locate_iff.mpr hlocate, List.prefix_append _ _,
      htext, hget⟩

/-- There are no more new files in the directory than there are stems. -/
theorem injOn_of_holdsEach (hlocate : t.locate dir = .ok d)
    (hempty : ∀ place content, d <+: place → t.get? place ≠ some (.file content))
    (h : HoldsEach (deposit d t (a.documents format t paths)) dir (a.document? format t) paths) :
    Set.InjOn stem {path | path ∈ paths} := by
  obtain ⟨place, hinj, hplace⟩ := h
  have hnew : ∀ path ∈ paths, ∃ q ∈ paths, d ++ [documentName format q] = place path := by
    intro path hpath
    obtain ⟨d', text, hd', hprefix, -, hget⟩ := hplace path hpath
    have hd := (hpaths path hpath).isDirectoryAt
    obtain rfl : d = d' := Except.ok.inj
      (hlocate.symm.trans ((differ_delivered hpaths hd).locate_iff.mp hd'))
    by_contra hnone
    push Not at hnone
    rw [FileTree.get?_deposit_of_forall_ne hd fun _ ↦ isFree_of_mem_documents hpaths] at hget
    · exact hempty _ _ hprefix hget
    · intro x hx
      obtain ⟨q, hq, rfl⟩ := List.mem_map.mp hx
      exact (hnone q hq).symm
  let name := fun path ↦ d ++ [documentName format path]
  have hcard : paths.toFinset.card ≤ (paths.toFinset.image name).card := by
    calc paths.toFinset.card
        = (paths.toFinset.image place).card := by
          refine (Finset.card_image_of_injOn ?_).symm
          simpa using hinj
      _ ≤ (paths.toFinset.image name).card := by
          refine Finset.card_le_card fun r hr ↦ ?_
          obtain ⟨path, hpath, rfl⟩ := Finset.mem_image.mp hr
          obtain ⟨q, hq, heq⟩ := hnew path (List.mem_toFinset.mp hpath)
          exact Finset.mem_image.mpr ⟨q, List.mem_toFinset.mpr hq, heq⟩
  have hname : Set.InjOn name {path | path ∈ paths} := by
    have himage := Finset.card_image_iff.mp (le_antisymm Finset.card_image_le hcard)
    simpa using himage
  intro p hp q hq heq
  refine hname hp hq ?_
  simp only [name, documentName_inj.mpr heq]

end

section

variable {args : List String} {stdin : ByteArray}

/-- All that a run that goes through does to the files: it puts the documents of its input files
into the output directory, in order. -/
theorem run_eq_deposit (hread : Arguments.read args = .ok a) (hfiles : a.files ≠ [])
    (hdir : a.output = some dir) (hcode : (run args stdin t).code = 0)
    (hlanguage : ∀ path ∈ a.inputs t, (a.languageFor? path).isSome)
    (hplace : ∀ path ∈ a.inputs t, ∀ d name,
      (a.prepared t).locate dir = .ok d → (a.prepared t).locate path ≠ .ok (d ++ [name])) :
    ∃ format, a.documentFormat = .ok format ∧ (a.inputs t = [] ∨
      ∃ d, (a.prepared t).locate dir = .ok d ∧
        (∀ path ∈ a.inputs t, Deliverable a format (a.prepared t) dir d path) ∧
        (run args stdin t).files =
          deposit d (a.prepared t) (a.documents format (a.prepared t) (a.inputs t))) := by
  obtain ⟨format, s, hformat, hmade, hs, s', hall, hrun⟩ := run_eq_ok hread hfiles hdir hcode
  have hne := ne_empty_of_makeDirectories hmade
  refine ⟨format, hformat, ?_⟩
  rcases hinputs : a.inputs t with - | ⟨first, rest⟩
  · exact .inl rfl
  · right
    obtain ⟨d, hlocate⟩ : ∃ d, (a.prepared t).locate dir = .ok d := by
      -- the first document could not be written otherwise
      rw [hinputs] at hall
      obtain ⟨⟨⟩, s₁, hfirst, -⟩ := run_bind_eq_ok.mp hall
      obtain ⟨text, -, hwrite⟩ :=
        fromFile_eq_ok hdir (hlanguage first (hinputs ▸ List.mem_cons_self)) hfirst
      rw [hs, documentPath_eq] at hwrite
      obtain ⟨d, hlocate, -⟩ :=
        FileTree.writeText_join (isName_documentName format first) hne hwrite
      exact ⟨d, hlocate⟩
    obtain ⟨hdeliverable, hfinal⟩ := forM_fromFile_delivers hdir hne hlocate (hs ▸ .refl d _)
      hlanguage (fun path hpath name ↦ hplace path hpath d name hlocate) hall
    rw [hinputs] at hdeliverable hfinal
    exact ⟨d, hlocate, hdeliverable, by rw [hrun, hfinal, hs]⟩

theorem inputs_eq {found : List (List String)}
    (hexpand : ((a.files.mapM (expand a)).run { files := a.prepared t }).1 = .ok found)
    (hsorted : found.flatten.Pairwise fun p q ↦
      Path.notAfter p q = true ∧ Path.components q ≠ Path.components p) :
    a.inputs t = found.flatten ∧
      (inputFiles a).run { files := a.prepared t } = (.ok found.flatten,
        ((a.files.mapM (expand a)).run { files := a.prepared t }).2) := by
  have hinputs : (inputFiles a).run { files := a.prepared t } = (.ok found.flatten,
      ((a.files.mapM (expand a)).run { files := a.prepared t }).2) := by
    refine run_bind_eq_ok.mpr ⟨found, _, Prod.ext hexpand rfl, run_pure_eq_ok.mpr ⟨?_, rfl⟩⟩
    exact Path.sortDistinct_of_pairwise hsorted
  exact ⟨by rw [Arguments.inputs, hinputs], hinputs⟩

/-- A run goes through if each of its steps does. -/
theorem run_code_eq_zero (hread : Arguments.read args = .ok a) (hfiles : a.files ≠ [])
    (hdir : a.output = some dir) (hstrict : a.strict = false)
    (hformat : a.documentFormat = .ok format)
    (hprepare : ((prepareOutput a).run { files := t }).1 = .ok ())
    (hinputs : (inputFiles a).run { files := a.prepared t } = (.ok paths, s))
    (hall : ((paths.forM (fromFile a format)).run s).1 = .ok ()) :
    (run args stdin t).code = 0 := by
  have hnonempty : a.files.isEmpty = false := by simpa using hfiles
  have hprepared := (prepareOutput_eq_ok hdir (Prod.ext hprepare rfl)).2
  obtain ⟨s', hs'⟩ : ∃ s', (paths.forM (fromFile a format)).run s = (.ok (), s') :=
    ⟨_, Prod.ext hall rfl⟩
  have hrequire : (requireFormat a).run { files := t } = (.ok format, { files := t }) := by
    rw [requireFormat, hformat]
    exact run_pure_eq_ok.mpr ⟨rfl, rfl⟩
  have hfromFiles : (fromFiles a).run { files := t } = (.ok (), s') := by
    refine run_bind_eq_ok.mpr ⟨format, _, hrequire, ?_⟩
    refine run_bind_eq_ok.mpr ⟨(), _, Prod.ext hprepare hprepared, ?_⟩
    exact run_bind_eq_ok.mpr ⟨paths, s, hinputs, hs'⟩
  have hsession : (session a stdin).run { files := t } = (.ok (), s') := by
    rw [session, hnonempty, if_neg Bool.false_ne_true]
    refine run_bind_eq_ok.mpr ⟨(), s', hfromFiles, ?_⟩
    dsimp only
    rw [run_get_bind, hstrict]
    exact run_pure_eq_ok.mpr ⟨rfl, rfl⟩
  rw [run, hread]
  simp [hsession]

/-- A run on files that goes through leaves the document of the last input file of each stem. Every
input file has a document of its own if stems are distinct, and, in a directory without files, only
then. -/
theorem run_leaves_document_of_each_stem (hread : Arguments.read args = .ok a)
    (hfiles : a.files ≠ []) (hdir : a.output = some dir) (hcode : (run args stdin t).code = 0)
    (hlanguage : ∀ path ∈ a.inputs t, (a.languageFor? path).isSome)
    (hplace : ∀ path ∈ a.inputs t, ∀ d name,
      (a.prepared t).locate dir = .ok d → (a.prepared t).locate path ≠ .ok (d ++ [name])) :
    ∃ format, a.documentFormat = .ok format ∧
      (∀ path ∈ a.inputs t, ∃ last text, lastWithStem? (a.inputs t) path = some last ∧
        a.document? format (a.prepared t) last = some text ∧
        (run args stdin t).files.readText (documentPath dir path format) = .ok text) ∧
      (Set.InjOn stem {path | path ∈ a.inputs t} →
        HoldsEach (run args stdin t).files dir (a.document? format (a.prepared t)) (a.inputs t)) ∧
      ((∀ d place content, (a.prepared t).locate dir = .ok d → d <+: place →
          t.get? place ≠ some (.file content)) →
        HoldsEach (run args stdin t).files dir (a.document? format (a.prepared t)) (a.inputs t) →
        Set.InjOn stem {path | path ∈ a.inputs t}) := by
  obtain ⟨format, hformat, hrun⟩ := run_eq_deposit hread hfiles hdir hcode hlanguage hplace
  refine ⟨format, hformat, ?_⟩
  rcases hrun with hnil | ⟨d, hlocate, hdeliverable, hrun⟩
  · rw [hnil]
    refine ⟨List.forall_mem_nil _, fun _ ↦ ⟨fun _ ↦ [], ?_, List.forall_mem_nil _⟩, fun _ _ ↦ ?_⟩
    · exact fun _ h ↦ nomatch h
    · exact fun _ h ↦ nomatch h
  · rw [hrun]
    refine ⟨fun path ↦ readText_delivered hdeliverable, holdsEach_of_injOn hdeliverable hlocate,
      fun hempty ↦ injOn_of_holdsEach hdeliverable hlocate fun place content hprefix hfile ↦ ?_⟩
    obtain ⟨_, _, -, hmade, -⟩ := run_eq_ok hread hfiles hdir hcode
    exact hempty d place content hlocate hprefix (FileTree.get?_of_makeDirectories hmade hfile)

end

/-! ## Two files -/

/-- Two empty files in the working directory. -/
def twoFiles (p q : String) : FileTree := ⟨[([p], .file .empty), ([q], .file .empty)]⟩

/-- Arguments that ask for the documents of two files. -/
def twoArguments (p q : String) : Arguments := { files := [p, q], output := some "docs" }

/-- A run that goes through and finds two files of known languages outside the output directory. -/
structure FindsBoth (p q : String) : Prop where
  read_eq : Arguments.read ["-o", "docs", p, q] = .ok (twoArguments p q)
  code_eq : (run ["-o", "docs", p, q] .empty (twoFiles p q)).code = 0
  inputs_eq : (twoArguments p q).inputs (twoFiles p q) = [p, q]
  languageFor? : ∀ path ∈ (twoArguments p q).inputs (twoFiles p q),
    ((twoArguments p q).languageFor? path).isSome = true
  outside : ∀ path ∈ (twoArguments p q).inputs (twoFiles p q), ∀ d name,
    ((twoArguments p q).prepared (twoFiles p q)).locate "docs" = .ok d →
      ((twoArguments p q).prepared (twoFiles p q)).locate path ≠ .ok (d ++ [name])

theorem findsBoth {p q : String}
    (hread : Arguments.read ["-o", "docs", p, q] = .ok (twoArguments p q))
    (hprepare : ((prepareOutput (twoArguments p q)).run { files := twoFiles p q }).1 = .ok ())
    (hexpand : (([p, q].mapM (expand (twoArguments p q))).run
      { files := (twoArguments p q).prepared (twoFiles p q) }).1 = .ok [[p], [q]])
    (hsorted : [p, q].Pairwise fun p q ↦
      Path.notAfter p q = true ∧ Path.components q ≠ Path.components p)
    (hlanguage : ∀ path ∈ [p, q], ((twoArguments p q).languageFor? path).isSome = true)
    (hdocs : ((twoArguments p q).prepared (twoFiles p q)).locate "docs" = .ok ["docs"])
    (hplace : ∀ path ∈ [p, q],
      ((twoArguments p q).prepared (twoFiles p q)).locate path = .ok [path])
    (hall : (([p, q].forM (fromFile (twoArguments p q) .markdown)).run
      (([p, q].mapM (expand (twoArguments p q))).run
        { files := (twoArguments p q).prepared (twoFiles p q) }).2).1 = .ok ()) :
    FindsBoth p q := by
  obtain ⟨hinputs, hrun⟩ := inputs_eq (a := twoArguments p q) hexpand hsorted
  refine ⟨hread, ?_, hinputs, ?_, ?_⟩
  · exact run_code_eq_zero hread (List.cons_ne_nil _ _) rfl rfl rfl hprepare hrun hall
  · exact hinputs ▸ hlanguage
  · intro path hpath d name hd hpath'
    rw [hinputs] at hpath
    rw [hdocs] at hd
    rw [hplace path hpath, ← Except.ok.inj hd] at hpath'
    simpa using congrArg List.length (Except.ok.inj hpath')

theorem findsBoth_python {q : String} (hq : q = "b.py" ∨ q = "a.py") : FindsBoth "a.js" q := by
  rcases hq with rfl | rfl
  all_goals
    refine findsBoth (by decide +kernel) (by decide +kernel) (by decide +kernel)
      (by decide +kernel) ?_ (by decide +kernel) (by decide +kernel) ?_
    · unfold Arguments.languageFor?
      simp only [Catalogue.forExtension?_builtin]
      decide +kernel
    · unfold fromFile Arguments.languageFor?
      simp only [Catalogue.forExtension?_builtin]
      decide +kernel

/-- Two files with two stems have a document each. -/
theorem run_leaves_both_documents :
    (run ["-o", "docs", "a.js", "b.py"] .empty (twoFiles "a.js" "b.py")).code = 0 ∧
      HoldsEach (run ["-o", "docs", "a.js", "b.py"] .empty (twoFiles "a.js" "b.py")).files "docs"
        ((twoArguments "a.js" "b.py").document? .markdown
          ((twoArguments "a.js" "b.py").prepared (twoFiles "a.js" "b.py")))
        ["a.js", "b.py"] := by
  have h := findsBoth_python (.inl rfl)
  obtain ⟨format, hformat, -, heach, -⟩ := run_leaves_document_of_each_stem h.read_eq
    (List.cons_ne_nil _ _) rfl h.code_eq h.languageFor? h.outside
  obtain rfl : .markdown = format := Except.ok.inj hformat
  rw [h.inputs_eq] at heach
  have hstems : ∀ p ∈ ["a.js", "b.py"], ∀ q ∈ ["a.js", "b.py"], stem p = stem q → p = q := by
    decide +kernel
  exact ⟨h.code_eq, heach fun p hp q hq ↦ hstems p hp q hq⟩

/-- Two files with one stem do not, though the run goes through. -/
theorem run_loses_document :
    (twoArguments "a.js" "a.py").inputs (twoFiles "a.js" "a.py") = ["a.js", "a.py"] ∧
      (run ["-o", "docs", "a.js", "a.py"] .empty (twoFiles "a.js" "a.py")).code = 0 ∧
      ¬ HoldsEach (run ["-o", "docs", "a.js", "a.py"] .empty (twoFiles "a.js" "a.py")).files "docs"
        ((twoArguments "a.js" "a.py").document? .markdown
          ((twoArguments "a.js" "a.py").prepared (twoFiles "a.js" "a.py")))
        ["a.js", "a.py"] := by
  have h := findsBoth_python (.inr rfl)
  refine ⟨h.inputs_eq, h.code_eq, fun heach ↦ ?_⟩
  obtain ⟨format, hformat, hrun⟩ := run_eq_deposit h.read_eq (List.cons_ne_nil _ _) rfl h.code_eq
    h.languageFor? h.outside
  obtain rfl : .markdown = format := Except.ok.inj hformat
  rw [h.inputs_eq] at hrun
  obtain hnil | ⟨d, hlocate, hdeliverable, hrun⟩ := hrun
  · contradiction
  have hempty : ∀ place content, d <+: place →
      ((twoArguments "a.js" "a.py").prepared (twoFiles "a.js" "a.py")).get? place ≠
        some (.file content) := by
    intro place content hprefix hfile
    obtain ⟨_, _, -, hmade, -⟩ := run_eq_ok h.read_eq (List.cons_ne_nil _ _) rfl h.code_eq
    have hmem := FileTree.mem_entries_of_lookup
      (FileTree.get?_eq_file_iff.mp (FileTree.get?_of_makeDirectories hmade hfile))
    have hdocs : ["docs"] = d := Except.ok.inj (Eq.trans (by decide +kernel) hlocate)
    subst hdocs
    simp only [twoFiles, List.mem_cons, Prod.mk.injEq, List.not_mem_nil, or_false] at hmem
    rcases hmem with ⟨rfl, -⟩ | ⟨rfl, -⟩
    · exact absurd hprefix (by decide)
    · exact absurd hprefix (by decide)
  have hinj := injOn_of_holdsEach hdeliverable hlocate hempty (hrun ▸ heach)
  have hstems : stem "a.js" = stem "a.py" := by decide +kernel
  exact absurd (hinj List.mem_cons_self (List.mem_cons_of_mem _ List.mem_cons_self) hstems)
    (by decide)

end CommandLine

end Marginalia
