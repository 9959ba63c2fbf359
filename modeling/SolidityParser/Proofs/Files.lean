import SolidityParser.CommandLine
import SolidityParser.FileTree

/-!
# Files in a tree, and on the command line

What is written at a path is read back there (`FileTree.read_write`), and what could be read at
another path still can (`FileTree.read_write_other`), so a written source is what the program takes
its content from (`SourceFile.ofBytes_write`).

The command line answers for files one by one: what is printed is that for each file in turn, and an
error in one changes nothing for the others (`CommandLine.run_files`). Hence files that are not
named do not count (`CommandLine.run_write_other`).
-/

namespace SolidityParser

namespace FileTree

variable {tree : FileTree} {place : List String} {names : List String} {path other name : String}
  {bytes contents : ByteArray}

/-! ### Following names -/

/-- Names without slashes are the names of the path that they make. -/
theorem names_intercalate (hslash : ∀ name ∈ names, '/' ∉ name.toList) (hne : names ≠ []) :
    FileTree.names ("/".intercalate names) = names := by
  have hsplit : List.splitOn '/' (['/'].intercalate (names.map String.toList)) =
      names.map String.toList :=
    List.splitOn_intercalate '/' (by simpa using hslash) (by simpa using hne)
  rw [FileTree.names, String.toList_intercalate]
  change (List.splitOn '/' (['/'].intercalate _)).map String.ofList = names
  rw [hsplit, List.map_map]
  simp [Function.comp_def]

/-- The place that a path leads to, if all on the way is there. -/
def placeOf (tree : FileTree) (path : String) : List String :=
  (FileTree.names path).foldl enter (tree.startOf path)

/-- A name that does not go up leads on from a place. -/
theorem prefix_enter (hup : name ≠ "..") : place <+: enter place name := by
  unfold enter
  split
  · exact List.prefix_rfl
  · exact List.prefix_append place [name]

theorem prefix_foldl_enter (hup : ".." ∉ names) : place <+: names.foldl enter place := by
  induction names generalizing place with
  | nil => exact List.prefix_rfl
  | cons name names ih =>
    have hname : place <+: enter place name := prefix_enter (List.ne_of_not_mem_cons hup).symm
    exact hname.trans (ih (List.not_mem_of_not_mem_cons hup))

theorem follow_eq_ok_iff {next : List String} :
    tree.follow place name = .ok next ↔
      tree.file? place = none ∧ name.utf8ByteSize ≤ nameLimit ∧
        tree.hasPlace (enter place name) = true ∧ next = enter place name := by
  unfold follow
  split
  · next hfile => simp [Option.isSome_iff_ne_none.mp hfile]
  · next hfile =>
    have hnone : tree.file? place = none := by simpa using hfile
    split
    · next hlong => simp [Nat.not_le.mpr hlong]
    · next hshort =>
      have hle := Nat.not_lt.mp hshort
      split
      · next hplace => simp [hnone, hle, hplace, eq_comm]
      · next hplace => simp [hplace]

/-- Names are followed to where they lead, if there is a directory at every place on the way. -/
theorem foldlM_follow (hup : ".." ∉ names) (hshort : ∀ name ∈ names, name.utf8ByteSize ≤ nameLimit)
    (hway : ∀ p, p <+: names.foldl enter place → tree.file? p = none ∧ tree.hasPlace p = true) :
    names.foldlM tree.follow place = .ok (names.foldl enter place) := by
  induction names generalizing place with
  | nil => rfl
  | cons name names ih =>
    have hnext : enter place name <+: names.foldl enter (enter place name) :=
      prefix_foldl_enter (List.not_mem_of_not_mem_cons hup)
    have hname : place <+: enter place name := prefix_enter (List.ne_of_not_mem_cons hup).symm
    have hstep : tree.follow place name = .ok (enter place name) :=
      follow_eq_ok_iff.mpr ⟨(hway place (hname.trans hnext)).1, hshort name List.mem_cons_self,
        (hway (enter place name) hnext).2, rfl⟩
    rw [List.foldlM_cons, hstep]
    exact ih (List.not_mem_of_not_mem_cons hup) (fun n hn => hshort n (List.mem_cons_of_mem _ hn))
      hway

/-! ### Trees with a file written -/

theorem file?_write_self : (tree.write path bytes).file? (tree.placeOf path) = some bytes :=
  List.lookup_cons_self

theorem file?_write_of_ne (h : place ≠ tree.placeOf path) :
    (tree.write path bytes).file? place = tree.file? place := by
  change List.lookup place ((tree.placeOf path, bytes) :: tree.files) = _
  rw [List.lookup_cons, beq_false_of_ne h]
  rfl

/-- The directories that the file is in are there. -/
theorem hasPlace_write_of_prefix (h : place <+: tree.placeOf path) :
    (tree.write path bytes).hasPlace place = true := by
  have hfile : (tree.write path bytes).files.any (fun file => place.isPrefixOf file.1) = true :=
    List.any_eq_true.mpr ⟨_, List.mem_cons_self, List.isPrefixOf_iff_prefix.mpr h⟩
  rw [hasPlace, hfile, Bool.or_true]

/-- What was there still is. -/
theorem hasPlace_write_of_hasPlace (h : tree.hasPlace place = true) :
    (tree.write path bytes).hasPlace place = true := by
  unfold hasPlace at h ⊢
  change (_ || _ || (place.isPrefixOf _ || _)) = true
  rw [Bool.or_eq_true] at h ⊢
  exact h.imp_right fun hfile => by rw [hfile, Bool.or_true]

/-- A path starts at a place that is there. -/
theorem hasPlace_startOf : tree.hasPlace (tree.startOf path) = true := by
  have hprefix : tree.startOf path <+: tree.working := by
    unfold startOf
    split
    · exact List.nil_prefix
    · exact List.prefix_rfl
  rw [hasPlace, List.isPrefixOf_iff_prefix.mpr hprefix, Bool.true_or, Bool.true_or]

/-! ### Reading -/

theorem read_eq_ok_iff :
    tree.read path = .ok bytes ↔
      '\x00' ∉ path.toList ∧ path ≠ "" ∧ path.utf8ByteSize ≤ pathLimit ∧
        ∃ p, (FileTree.names path).foldlM tree.follow (tree.startOf path) = .ok p ∧
          tree.file? p = some bytes := by
  unfold read
  split
  · next hnul => simp [hnul]
  · next hnul =>
    split
    · next hempty => simp [hempty]
    · next hempty =>
      split
      · next hlong => simp [Nat.not_le.mpr hlong]
      · next hshort =>
        have hle := Nat.not_lt.mp hshort
        cases hfollow : (FileTree.names path).foldlM tree.follow (tree.startOf path) with
        | error failure => simp
        | ok p => cases hfile : tree.file? p <;> simp [hnul, hempty, hle, hfile]

/-- A file may be written at a path and read there: the path is no longer than paths and names may
be, ends in a name and does not go up, and no file is in its way. -/
structure Admits (tree : FileTree) (path : String) : Prop where
  /-- The path does not end before its last character. -/
  plain : '\x00' ∉ path.toList
  /-- The path is not too long. -/
  fits : path.utf8ByteSize ≤ pathLimit
  /-- No name in it is too long. -/
  short : ∀ name ∈ FileTree.names path, name.utf8ByteSize ≤ nameLimit
  /-- It does not go up. -/
  up : ".." ∉ FileTree.names path
  /-- It ends in the name of the file. -/
  last : ∃ front name, FileTree.names path = front ++ [name] ∧ name ≠ "" ∧ name ≠ "."
  /-- Where it goes on, there is no file. -/
  way : ∀ p, p <+: tree.placeOf path → p ≠ tree.placeOf path → tree.file? p = none

/-- A file that was written is read back. -/
theorem read_write (h : tree.Admits path) (bytes : ByteArray) :
    (tree.write path bytes).read path = .ok bytes := by
  obtain ⟨front, name, hnames, hempty, hdot⟩ := h.last
  have hne : path ≠ "" := by
    rintro rfl
    have hnil : [""] = front ++ [name] := hnames
    cases front with
    | nil => exact hempty (List.cons.inj hnil).1.symm
    | cons first rest => simp at hnil
  have hup : ".." ∉ front ++ [name] := hnames ▸ h.up
  have hlast : name ≠ ".." := fun hname => hup (List.mem_append_right _ (by simp [hname]))
  have hshort : ∀ n ∈ front ++ [name], n.utf8ByteSize ≤ nameLimit := hnames ▸ h.short
  let directory := front.foldl enter (tree.startOf path)
  have hplace : tree.placeOf path = directory ++ [name] := by
    rw [placeOf, hnames, List.foldl_append]
    simp [enter, hempty, hdot, hlast, directory]
  -- All places before the last one are directories, also with the file written.
  have hway (p : List String) (hp : p <+: directory) :
      (tree.write path bytes).file? p = none ∧ (tree.write path bytes).hasPlace p = true := by
    have hprefix : p <+: tree.placeOf path := hplace ▸ hp.trans (List.prefix_append _ _)
    have hne : p ≠ tree.placeOf path := by
      have hlength := hp.length_le
      rintro rfl
      rw [hplace, List.length_append, List.length_singleton] at hlength
      omega
    exact ⟨(file?_write_of_ne hne).trans (h.way p hprefix hne), hasPlace_write_of_prefix hprefix⟩
  have hfront : front.foldlM (tree.write path bytes).follow (tree.startOf path) = .ok directory :=
    foldlM_follow (fun hmem => hup (List.mem_append_left _ hmem))
      (fun n hn => hshort n (List.mem_append_left _ hn)) hway
  have hstep : (tree.write path bytes).follow directory name = .ok (tree.placeOf path) := by
    have henter : enter directory name = tree.placeOf path := by
      rw [hplace]
      simp [enter, hempty, hdot, hlast]
    refine follow_eq_ok_iff.mpr ⟨(hway directory List.prefix_rfl).1, hshort name (by simp), ?_,
      henter.symm⟩
    rw [henter]
    exact hasPlace_write_of_prefix List.prefix_rfl
  refine read_eq_ok_iff.mpr ⟨h.plain, hne, h.fits, tree.placeOf path, ?_, file?_write_self⟩
  rw [hnames, List.foldlM_append]
  change (front.foldlM (tree.write path bytes).follow (tree.startOf path) >>= _) = _
  rw [hfront]
  change [name].foldlM (tree.write path bytes).follow directory = _
  rw [List.foldlM_cons, hstep]
  rfl

/-- Names that could be followed still can, to the same place. -/
theorem foldlM_follow_write {p : List String} (hfresh : tree.hasPlace (tree.placeOf path) = true →
      (tree.file? (tree.placeOf path)).isSome) (hplace : tree.hasPlace place = true)
    (hfollow : names.foldlM tree.follow place = .ok p) :
    p = names.foldl enter place ∧ names.foldlM (tree.write path bytes).follow place = .ok p := by
  induction names generalizing place with
  | nil =>
    cases hfollow
    exact ⟨rfl, rfl⟩
  | cons name names ih =>
    rw [List.foldlM_cons] at hfollow ⊢
    cases hstep : tree.follow place name with
    | error failure => rw [hstep] at hfollow; cases hfollow
    | ok next =>
      rw [hstep] at hfollow
      obtain ⟨hfile, hshort, hnext, rfl⟩ := follow_eq_ok_iff.mp hstep
      -- There is no file here, so this is not where the file was written.
      have hne : place ≠ tree.placeOf path := by
        rintro rfl
        rw [hfile] at hfresh
        exact absurd (hfresh hplace) (by decide)
      have hagain : (tree.write path bytes).follow place name = .ok (enter place name) :=
        follow_eq_ok_iff.mpr
          ⟨(file?_write_of_ne hne).trans hfile, hshort, hasPlace_write_of_hasPlace hnext, rfl⟩
      rw [hagain]
      exact ih hnext hfollow

/-- Writing over a file, or where there was nothing, leaves all other files as they were. -/
theorem read_write_other (hfresh : tree.hasPlace (tree.placeOf path) = true →
      (tree.file? (tree.placeOf path)).isSome) (hother : tree.placeOf other ≠ tree.placeOf path)
    (hread : tree.read other = .ok contents) :
    (tree.write path bytes).read other = .ok contents := by
  obtain ⟨hplain, hne, hfits, p, hfollow, hfile⟩ := read_eq_ok_iff.mp hread
  obtain ⟨rfl, hagain⟩ := foldlM_follow_write hfresh hasPlace_startOf hfollow
  exact read_eq_ok_iff.mpr ⟨hplain, hne, hfits, _, hagain, (file?_write_of_ne hother).trans hfile⟩

/-- In an empty tree a file may be written to a directory that is not there yet. -/
example : ({ files := [], working := ["home"] } : FileTree).Admits "src/a.sol" where
  plain := by decide
  fits := by decide
  short := by decide
  up := by decide
  last := ⟨["src"], "a.sol", by decide, by decide, by decide⟩
  way := fun _ _ _ => rfl

end FileTree

/-! ### Sources in a tree -/

/-- What was written is also what the program gets. -/
theorem FileTree.contents_write {tree : FileTree} {path : String} (h : tree.Admits path)
    (bytes : ByteArray) : (tree.write path bytes).contents path = .ok bytes := by
  rw [contents, read_write h]
  rfl

/-- What is taken from a file, after a source was written to it, is what the source holds. -/
theorem SourceFile.ofBytes_write {tree : FileTree} {path : String} (h : tree.Admits path)
    (extract : Extract) (options : Options) (source : String) :
    ofBytes extract options path ((tree.write path source.toUTF8).contents path) =
      (Content.ofSource extract options source).map (⟨path, source, ·⟩) := by
  have htext : String.fromUTF8? source.toUTF8 = some source :=
    (dif_pos source.isValidUTF8).trans rfl
  rw [FileTree.contents_write h]
  unfold ofBytes
  simp only [htext]
  cases Content.ofSource extract options source <;> rfl

namespace CommandLine

/-! ### Runs over a tree -/

/-- What a list of arguments is answered with, where files are those of a tree. -/
def runIn (tree : FileTree) (arguments : List String) : Output :=
  Id.run (run (fun path => pure (tree.contents path)) arguments)

/-- What is printed for one path. -/
def printed (tree : FileTree) (extract : Extract) (options : Options) (path : String) : Output :=
  Output.report options {} (SourceFile.ofBytes extract options path (tree.contents path))

example : Request.ofArguments ["--tolerant", "a.sol", "--imports", "b.sol"] =
    .files .imports { tolerant := true } ["a.sol", "b.sol"] := by decide

variable {tree : FileTree} {arguments paths : List String} {extract : Extract} {options : Options}
  {path : String}

/-- A file adds what is printed for it alone, and leaves the exit code. -/
theorem report_eq (output : Output) (result : Except FileError SourceFile) :
    output.report options result =
      { output with
        stdout := output.stdout ++ (Output.report options {} result).stdout
        stderr := output.stderr ++ (Output.report options {} result).stderr } := by
  cases result <;> simp [Output.report, String.append_assoc]

theorem foldl_report (output : Output) (results : List (Except FileError SourceFile)) :
    results.foldl (Output.report options) output =
      { output with
        stdout := output.stdout ++
          String.join (results.map fun result => (Output.report options {} result).stdout)
        stderr := output.stderr ++
          String.join (results.map fun result => (Output.report options {} result).stderr) } := by
  induction results generalizing output with
  | nil => simp
  | cons result results ih =>
    rw [List.foldl_cons, ih, report_eq]
    simp [String.join_cons, String.append_assoc]

/-- For several files is printed what is printed for each, in turn; the exit code tells nothing of
errors. -/
theorem run_files (h : Request.ofArguments arguments = .files extract options paths) :
    runIn tree arguments =
      { stdout := String.join (paths.map fun path => (printed tree extract options path).stdout)
        stderr := String.join (paths.map fun path => (printed tree extract options path).stderr)
        code := 0 } := by
  have hresults : runIn tree arguments =
      (paths.map fun path => SourceFile.ofBytes extract options path (tree.contents path)).foldl
        (Output.report options) {} := by
    simp [runIn, run, h]
  rw [hresults, foldl_report, List.map_map, List.map_map]
  simp [printed, Function.comp_def]

/-- A file that no path leads to does not count. -/
theorem run_write_other {path : String} {bytes : ByteArray}
    (h : Request.ofArguments arguments = .files extract options paths)
    (hfresh : tree.hasPlace (tree.placeOf path) = true → (tree.file? (tree.placeOf path)).isSome)
    (hother : ∀ other ∈ paths, tree.placeOf other ≠ tree.placeOf path)
    (hread : ∀ other ∈ paths, ∃ contents, tree.read other = .ok contents) :
    runIn (tree.write path bytes) arguments = runIn tree arguments := by
  have hprinted : ∀ other ∈ paths, printed (tree.write path bytes) extract options other =
      printed tree extract options other := by
    intro other hmem
    obtain ⟨contents, hcontents⟩ := hread other hmem
    have hagain := @FileTree.read_write_other tree path other bytes contents hfresh
      (hother other hmem) hcontents
    rw [printed, printed, FileTree.contents, FileTree.contents, hagain, hcontents]
  rw [run_files h, run_files h]
  congr 2 <;> exact List.map_congr_left fun other hmem => by rw [hprinted other hmem]

/-- For a source that was written to the file that is asked for, its tree is printed, or why it has
none. -/
theorem run_write {source : String}
    (h : Request.ofArguments arguments = .files .program options [path])
    (hadmits : tree.Admits path) :
    runIn (tree.write path source.toUTF8) arguments =
      match Source.parse source options.tolerant with
      | .ok program =>
        { stdout := (program.render (Decoration.ofSource source options.range options.loc)).pretty
            "  " ++ "\n" }
      | .error error => { stderr := errorText (.malformed error) } := by
  have hcontents := SourceFile.ofBytes_write hadmits .program options source
  rw [run_files h]
  simp only [printed, hcontents, List.map_cons, List.map_nil]
  rw [Content.ofSource]
  cases Source.parse source options.tolerant with
  | ok program => simp [Except.map, Output.report, SourceFile.toJson, Content.toJson]
  | error error => simp [Except.map, Output.report]

end CommandLine

end SolidityParser
