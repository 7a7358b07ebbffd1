/-
  What a directory of save files lists.

  A file below the directory is listed under the path that gives its own path text, by the names
  that lead to it, once the extension is put behind (`SavesAt`). The file is found under that path,
  unless its path text is too long, and the search fails if the path text of a directory is.
-/
import SaveTree.Proofs.Storage.Listing
import SaveTree.Proofs.Storage.Reach

namespace SaveTree

/-! ## Listing -/

namespace FileTree

/-- The tree has a save file at the path: a file whose own path is the path with the extension
behind it. -/
structure SavesAt (t : FileTree) (extension path : String) (names : List String) (bytes : Bytes) :
    Prop where
  notEmpty : path ≠ ""
  noSlash : path.toList.getLast? ≠ some '/'
  file : t.get? names = some (.file bytes)
  text : path ++ extension = "/".intercalate names

end FileTree

namespace DirectoryConfig

open FileTree DiskPath

variable {c : DirectoryConfig} {d : Disk} {es : Fields FileTree} {test : String → Bool}
  {path extension stem : String} {names : List String} {bytes : Bytes}

/-- The path of a save file is what stands before the extension. -/
theorem stem?_eq_some_iff : stem? extension path = some stem ↔
    stem ≠ "" ∧ stem.toList.getLast? ≠ some '/' ∧ stem ++ extension = path := by
  unfold stem?
  dsimp only
  constructor
  · intro h
    split at h
    · next hsuffix =>
      split at h
      · cases h
      next hstem =>
      cases h
      obtain ⟨cs, hcs⟩ := List.isSuffixOf_iff_suffix.1 hsuffix
      have htake : path.toList.take (path.toList.length - extension.toList.length) = cs := by
        rw [← hcs, List.length_append, Nat.add_sub_cancel, List.take_left]
      rw [htake] at hstem ⊢
      obtain ⟨hne, hlast⟩ := not_or.1 hstem
      refine ⟨fun hempty => hne ?_, ?_, ?_⟩
      · rw [← String.toList_ofList (l := cs), hempty]
        rfl
      · rwa [String.toList_ofList]
      · rw [← String.toList_inj, String.toList_append, String.toList_ofList, hcs]
    · cases h
  · rintro ⟨hne, hlast, rfl⟩
    have hsuffix : extension.toList.isSuffixOf (stem ++ extension).toList = true :=
      List.isSuffixOf_iff_suffix.2 ⟨stem.toList, String.toList_append.symm⟩
    have htake : (stem ++ extension).toList.take
        ((stem ++ extension).toList.length - extension.toList.length) = stem.toList := by
      rw [String.toList_append, List.length_append, Nat.add_sub_cancel, List.take_left]
    have hstem : ¬ (stem.toList = [] ∨ stem.toList.getLast? = some '/') :=
      not_or.2 ⟨fun hnil => hne (String.toList_inj.1 hnil), hlast⟩
    rw [if_pos hsuffix, htake, if_neg hstem, String.ofList_toList]

theorem filesUnder_of_node? (h : d.node? path = some (.directory es)) :
    d.filesUnder path = (FileTree.directory es).files := by
  rw [Disk.filesUnder, h]

/-- What is listed is what passes the test of the save files below the directory. -/
theorem mem_list_iff_savesAt (h : d.node? c.directory = some (.directory es))
    (hw : (FileTree.directory es).WellNamed) : path ∈ c.list d test ↔ test path = true ∧
      ∃ names bytes, (FileTree.directory es).SavesAt c.extension path names bytes := by
  rw [list, List.mem_mergeSort, List.mem_filter, List.mem_filterMap, filesUnder_of_node? h,
    and_comm]
  refine and_congr_right fun _ => ?_
  constructor
  · rintro ⟨⟨file, bytes⟩, hmem, hstem⟩
    obtain ⟨hne, hlast, hfile⟩ := stem?_eq_some_iff.1 hstem
    obtain ⟨names, hg, rfl⟩ := (mem_files_iff hw).1 hmem
    exact ⟨names, bytes, hne, hlast, hg, hfile⟩
  · rintro ⟨names, bytes, hne, hlast, hg, hfile⟩
    exact ⟨("/".intercalate names, bytes), (mem_files_iff hw).2 ⟨names, hg, rfl⟩,
      stem?_eq_some_iff.2 ⟨hne, hlast, hfile⟩⟩

/-- The paths are in the order of their bytes, each once. -/
theorem pairwise_list (h : d.node? c.directory = some (.directory es))
    (hw : (FileTree.directory es).WellNamed) (test : String → Bool) :
    (c.list d test).Pairwise fun p q => Utf8.encode p < Utf8.encode q := by
  rw [list, filesUnder_of_node? h]
  generalize hstems : List.filter test _ = stems
  have hnodup : stems.Nodup := by
    rw [← hstems]
    refine List.Pairwise.filter _ (List.Pairwise.filterMap _ ?_ (pairwise_filesFrom hw ""))
    rintro ⟨file, kept⟩ ⟨other, bytes⟩ hne stem hstem last hlast rfl
    obtain ⟨-, -, hfile⟩ := stem?_eq_some_iff.1 hstem
    obtain ⟨-, -, hother⟩ := stem?_eq_some_iff.1 hlast
    exact hne (hfile.symm.trans hother)
  have htrans : ∀ p q r : String, decide (p ≤ q) = true → decide (q ≤ r) = true →
      decide (p ≤ r) = true := fun p q r hpq hqr =>
    decide_eq_true (String.le_trans (of_decide_eq_true hpq) (of_decide_eq_true hqr))
  have htotal : ∀ p q : String, (decide (p ≤ q) || decide (q ≤ p)) = true := by
    intro p q
    simpa using String.le_total p q
  have hsorted := List.pairwise_mergeSort htrans htotal stems
  have hdistinct : (stems.mergeSort fun a b => decide (a ≤ b)).Nodup :=
    (List.mergeSort_perm stems _).nodup_iff.2 hnodup
  refine (hsorted.and hdistinct).imp fun {p q} hpq => ?_
  rw [Utf8.encode_lt_encode_iff]
  obtain ⟨hle, hne⟩ := hpq
  refine Classical.byContradiction fun hlt => hne ?_
  exact String.le_antisymm (of_decide_eq_true hle) (String.not_lt.1 hlt)

/-- The path of a save file below the directory leads to it, unless its text is too long. -/
theorem locate_filePath (h : d.node? c.directory = some (.directory es))
    (hw : (FileTree.directory es).WellNamed)
    (hs : (FileTree.directory es).SavesAt c.extension path names bytes) :
    ∃ here, d.locate c.directory = .ok here ∧
      d.tree.get? (here ++ names) = some (.file bytes) ∧
      d.locate (c.filePath path) =
        if pathBytesLimit ≤ (c.filePath path).utf8ByteSize then .error .nameTooLong
        else .ok (here ++ names) := by
  obtain ⟨here, hlocate, hhere⟩ := Disk.node?_eq_some_iff.1 h
  refine ⟨here, hlocate, ?_, ?_⟩
  · rw [get?_append, hhere, Option.bind_some, hs.file]
  · rw [filePath, hs.text]
    exact Disk.locate_join hlocate hhere hw.entryNames hs.file

theorem exists?_and_read_of_short (h : d.node? c.directory = some (.directory es))
    (hw : (FileTree.directory es).WellNamed)
    (hs : (FileTree.directory es).SavesAt c.extension path names bytes)
    (hshort : (c.filePath path).utf8ByteSize < pathBytesLimit) :
    c.exists? d path = true ∧ c.read d path = .ok bytes := by
  obtain ⟨here, -, hfile, hlocate⟩ := locate_filePath h hw hs
  rw [if_neg (Nat.not_le.2 hshort)] at hlocate
  constructor
  · rw [exists?, Disk.isFile, Disk.node?_eq_some_iff.2 ⟨here ++ names, hlocate, hfile⟩]
  · rw [read_eq_ok_iff, Disk.read, hlocate]
    dsimp only [bind, Except.bind]
    rw [hfile]

theorem exists?_and_read_of_long (h : d.node? c.directory = some (.directory es))
    (hw : (FileTree.directory es).WellNamed)
    (hs : (FileTree.directory es).SavesAt c.extension path names bytes)
    (hlong : pathBytesLimit ≤ (c.filePath path).utf8ByteSize) :
    c.exists? d path = false ∧ c.read d path = .error (.disk .read path .nameTooLong) := by
  obtain ⟨here, -, -, hlocate⟩ := locate_filePath h hw hs
  rw [if_pos hlong] at hlocate
  constructor
  · rw [exists?, Disk.isFile, Disk.node?, hlocate]
  · rw [read, Disk.read, hlocate]
    rfl

theorem tryList_of_not_isDirectory (h : d.isDirectory c.directory = false)
    (test : String → Bool) : c.tryList d test = .ok [] := by
  have hnode : ∀ es, d.node? c.directory ≠ some (.directory es) := by
    intro es hes
    rw [Disk.isDirectory, hes] at h
    cases h
  have hopen : d.openBelow c.directory = .ok () := by
    unfold Disk.openBelow
    split
    · next es hes => exact absurd hes (hnode es)
    · rfl
  have hfiles : d.filesUnder c.directory = [] := by
    unfold Disk.filesUnder
    split
    · next es hes => exact absurd hes (hnode es)
    · rfl
  rw [tryList, hopen, list, hfiles, List.filterMap_nil, List.filter_nil, List.mergeSort_nil]

/-- A directory that is missing lists nothing. The search of a directory fails if a directory below
has a path text that is too long. Otherwise it gives, in the order of their bytes and each once, the
paths that pass the test and are not empty, do not end in a slash, and with the extension behind
them are the names that lead to a file of the tree, joined by slashes. The path text of such a file
leads to it, so it exists and is read, unless the text is too long for a path. -/
theorem tryList_sound_and_complete :
    (∀ (c : DirectoryConfig) (d : Disk) (test : String → Bool),
      d.isDirectory c.directory = false → c.tryList d test = .ok []) ∧
    ∀ {c : DirectoryConfig} {d : Disk} {es : Fields FileTree},
      d.node? c.directory = some (.directory es) → (FileTree.directory es).WellNamed →
      ∀ test : String → Bool,
      (Disk.LongBelow c.directory (.directory es) →
        c.tryList d test = .error (.disk .list c.directory .nameTooLong)) ∧
      (¬ Disk.LongBelow c.directory (.directory es) → ∃ paths, c.tryList d test = .ok paths ∧
        paths.Pairwise (fun p q => Utf8.encode p < Utf8.encode q) ∧
        ∀ path, path ∈ paths ↔ test path = true ∧
          ∃ names bytes, (FileTree.directory es).SavesAt c.extension path names bytes) ∧
      ∀ path names bytes, (FileTree.directory es).SavesAt c.extension path names bytes →
        ((c.filePath path).utf8ByteSize < pathBytesLimit →
          (∃ here, d.locate c.directory = .ok here ∧
            d.locate (c.filePath path) = .ok (here ++ names)) ∧
          c.exists? d path = true ∧ c.read d path = .ok bytes) ∧
        (pathBytesLimit ≤ (c.filePath path).utf8ByteSize → c.exists? d path = false ∧
          c.read d path = .error (.disk .read path .nameTooLong)) := by
  refine ⟨fun c d test h => tryList_of_not_isDirectory h test, fun {c d es} h hw test => ?_⟩
  have hcases := Disk.openBelow_cases h hw
  refine ⟨fun hlong => ?_, fun hshort => ?_, fun path names bytes hs => ⟨fun hshort => ?_, ?_⟩⟩
  · obtain ⟨hshort, -⟩ | ⟨-, hopen⟩ := hcases
    · exact absurd hlong hshort
    · rw [tryList, hopen]
  · obtain ⟨-, hopen⟩ | ⟨hlong, -⟩ := hcases
    · exact ⟨c.list d test, by rw [tryList, hopen], pairwise_list h hw test,
        fun path => mem_list_iff_savesAt h hw⟩
    · exact absurd hlong hshort
  · obtain ⟨here, hlocate, -, hpath⟩ := locate_filePath h hw hs
    rw [if_neg (Nat.not_le.2 hshort)] at hpath
    exact ⟨⟨here, hlocate, hpath⟩, exists?_and_read_of_short h hw hs hshort⟩
  · exact exists?_and_read_of_long h hw hs

/-- What stands in a directory: a directory with a save file, and a file of another kind. -/
def slotsEntries : Fields FileTree :=
  [("slots", .directory [("one.save", .file [0xC3])]), ("notes", .file [])]

/-- A working directory with the directory. -/
def slotsDisk : Disk :=
  ⟨.directory [("work", .directory [("Saves", .directory slotsEntries)])], ["work"]⟩

theorem wellNamed_slotsEntries : (FileTree.directory slotsEntries).WellNamed := by
  have hslots : (FileTree.directory [("one.save", .file [0xC3])]).WellNamed :=
    wellNamed_directory (by decide) (by decide) fun e he => by
      rw [List.mem_singleton.1 he]
      exact wellNamed_file _
  refine wellNamed_directory (by decide) (by decide) (List.forall_mem_cons.2 ⟨hslots, ?_⟩)
  exact List.forall_mem_singleton.2 (wellNamed_file [])

theorem tryList_sound_and_complete_slotsDisk :
    slotsDisk.node? "Saves" = some (.directory slotsEntries) ∧
      (FileTree.directory slotsEntries).WellNamed ∧
      ∃ paths, ({} : DirectoryConfig).tryList slotsDisk (fun _ => true) = .ok paths ∧
        "slots/one" ∈ paths ∧ ({} : DirectoryConfig).read slotsDisk "slots/one" = .ok [0xC3] := by
  have hnode : slotsDisk.node? "Saves" = some (.directory slotsEntries) := rfl
  have hopen : slotsDisk.openBelow "Saves" = .ok () := rfl
  have hshort : ¬ Disk.LongBelow "Saves" (.directory slotsEntries) := by
    obtain ⟨hshort, -⟩ | ⟨-, hlong⟩ := Disk.openBelow_cases hnode wellNamed_slotsEntries
    · exact hshort
    · cases hopen.symm.trans hlong
  have hsaves : (FileTree.directory slotsEntries).SavesAt ".save" "slots/one"
      ["slots", "one.save"] [0xC3] := ⟨by decide, by decide, rfl, by decide⟩
  obtain ⟨-, hdirectory⟩ := tryList_sound_and_complete
  obtain ⟨-, hlist, hfiles⟩ :=
    hdirectory (c := {}) hnode wellNamed_slotsEntries fun _ => true
  obtain ⟨paths, hpaths, -, hmem⟩ := hlist hshort
  obtain ⟨-, -, hread⟩ := (hfiles _ _ _ hsaves).1 (by decide)
  exact ⟨hnode, wellNamed_slotsEntries, paths, hpaths, (hmem _).2 ⟨rfl, _, _, hsaves⟩, hread⟩

/-! ## A file that cannot be reached -/

/-- A name that is as long as a name can be. -/
def longName : String := String.ofList (List.replicate maxNameBytes 'n')

/-- The path of a location that is so many long names deep. -/
def longPath (depth : Nat) : String := "/".intercalate (List.replicate depth longName)

/-- A file below directories with long names, each alone in the one above. -/
def deepEntries : Nat → Fields FileTree
  | 0 => [(longName, .file [1])]
  | n + 1 => [(longName, .directory (deepEntries n))]

theorem longPath_succ (n : Nat) : longPath (n + 2) = longName ++ "/" ++ longPath (n + 1) :=
  String.intercalate_cons_cons

theorem longPath_one : longPath 1 = longName := String.intercalate_singleton

theorem utf8ByteSize_longName : longName.utf8ByteSize = maxNameBytes := by decide +kernel

theorem utf8ByteSize_longPath (n : Nat) : (longPath (n + 1)).utf8ByteSize = 256 * n + 255 := by
  induction n with
  | zero => rw [longPath_one, utf8ByteSize_longName]; rfl
  | succ n ih =>
    have hslash : "/".utf8ByteSize = 1 := rfl
    rw [longPath_succ, String.utf8ByteSize_append, String.utf8ByteSize_append, ih,
      utf8ByteSize_longName, hslash, maxNameBytes]
    omega

theorem toList_longName : longName.toList = List.replicate maxNameBytes 'n' :=
  String.toList_ofList

theorem entryName_longName : EntryName longName := by
  have hshort : ∀ s : String, s.utf8ByteSize < maxNameBytes → longName ≠ s := by
    rintro s hs rfl
    exact Nat.lt_irrefl _ (utf8ByteSize_longName ▸ hs)
  have hchar : ∀ c, c ≠ 'n' → c ∉ longName.toList := by
    intro c hc
    rw [toList_longName]
    exact fun hmem => hc (List.eq_of_mem_replicate hmem)
  exact ⟨⟨hshort _ (by decide), hshort _ (by decide), hshort _ (by decide),
    Nat.le_of_eq utf8ByteSize_longName⟩, hchar _ (by decide), hchar _ (by decide)⟩

theorem getLast?_longPath (n : Nat) : (longPath (n + 1)).toList.getLast? = some 'n' := by
  induction n with
  | zero => rw [longPath_one, toList_longName]; decide
  | succ n ih => rw [longPath_succ, String.toList_append, List.getLast?_append, ih]; rfl

theorem wellNamed_deepEntries (n : Nat) : (FileTree.directory (deepEntries n)).WellNamed := by
  have hkeys : Fields.keys (deepEntries n) = [longName] := by cases n <;> rfl
  refine wellNamed_directory ?_ ?_ ?_
  · rw [hkeys]
    exact List.nodup_singleton _
  · rw [hkeys]
    exact List.forall_mem_singleton.2 entryName_longName
  · cases n with
    | zero => exact List.forall_mem_singleton.2 (wellNamed_file [1])
    | succ n => exact List.forall_mem_singleton.2 (wellNamed_deepEntries n)

theorem get?_singleton {node c : FileTree} {name : String} :
    Fields.get? [(longName, node)] name = some c ↔ name = longName ∧ c = node := by
  rw [Fields.get?_cons, Fields.get?_nil]
  split
  · next h => simp [h, eq_comm]
  · next h => simp [Ne.symm h]

theorem savesAt_deepEntries (n : Nat) : (FileTree.directory (deepEntries n)).SavesAt ""
    (longPath (n + 1)) (List.replicate (n + 1) longName) [1] := by
  refine ⟨fun hempty => ?_, ?_, ?_, String.append_empty⟩
  · have hsize := utf8ByteSize_longPath n
    rw [hempty] at hsize
    cases hsize
  · rw [getLast?_longPath]
    decide
  · induction n with
    | zero =>
      exact get?_directory_cons_eq_some_iff.2 ⟨_, get?_singleton.2 ⟨rfl, rfl⟩, get?_nil _⟩
    | succ n ih => exact get?_directory_cons_eq_some_iff.2 ⟨_, get?_singleton.2 ⟨rfl, rfl⟩, ih⟩

theorem get?_replicate (n k : Nat) : (FileTree.directory (deepEntries (n + k))).get?
    (List.replicate k longName) = some (.directory (deepEntries n)) := by
  induction k with
  | zero => exact get?_nil _
  | succ k ih => exact get?_directory_cons_eq_some_iff.2 ⟨_, get?_singleton.2 ⟨rfl, rfl⟩, ih⟩

theorem exists_replicate_of_get? {n : Nat} {fs : Fields FileTree}
    (h : (FileTree.directory (deepEntries n)).get? names = some (.directory fs)) :
    ∃ k, k ≤ n ∧ names = List.replicate k longName := by
  induction n generalizing names with
  | zero =>
    cases names with
    | nil => exact ⟨0, Nat.le_refl _, rfl⟩
    | cons name names =>
      obtain ⟨c, hc, hg⟩ := get?_directory_cons_eq_some_iff.1 h
      obtain ⟨rfl, rfl⟩ := get?_singleton.1 hc
      cases names with
      | nil => cases (get?_nil _).symm.trans hg
      | cons => cases (get?_file_cons _ _ _).symm.trans hg
  | succ n ih =>
    cases names with
    | nil => exact ⟨0, Nat.zero_le _, rfl⟩
    | cons name names =>
      obtain ⟨c, hc, hg⟩ := get?_directory_cons_eq_some_iff.1 h
      obtain ⟨rfl, rfl⟩ := get?_singleton.1 hc
      obtain ⟨k, hk, rfl⟩ := ih hg
      exact ⟨k + 1, Nat.succ_le_succ hk, rfl⟩

/-- A disk with a file so many long names deep in a directory. -/
def deepDisk (depth : Nat) : Disk := ⟨.directory [("d", .directory (deepEntries depth))], []⟩

/-- Settings of the directory, for files of all kinds. -/
def deepConfig : DirectoryConfig := { directory := "d", extension := "" }

theorem utf8ByteSize_join_longPath (n : Nat) :
    (join "d" (longPath (n + 1))).utf8ByteSize = 256 * n + 257 := by
  have hrelative : isAbsolute (longPath (n + 1)) = false := by
    refine isAbsolute_intercalate (by simp) fun name hname => ?_
    rw [List.eq_of_mem_replicate hname]
    exact entryName_longName
  have hjoin : join "d" (longPath (n + 1)) = "d" ++ "/" ++ longPath (n + 1) := by
    rw [join, hrelative]
    rfl
  have hslash : ("d" ++ "/").utf8ByteSize = 2 := rfl
  rw [hjoin, String.utf8ByteSize_append, utf8ByteSize_longPath, hslash]
  omega

theorem node?_deepDisk (n : Nat) :
    (deepDisk n).node? deepConfig.directory = some (.directory (deepEntries n)) := rfl

/-- A directory sixteen long names deep is out of reach. -/
theorem longBelow_iff (n : Nat) :
    Disk.LongBelow deepConfig.directory (.directory (deepEntries n)) ↔ 16 ≤ n := by
  have hlimit : ∀ k, pathBytesLimit ≤ (join "d" (longPath (k + 1))).utf8ByteSize ↔ 15 ≤ k := by
    intro k
    rw [utf8ByteSize_join_longPath, pathBytesLimit]
    omega
  constructor
  · rintro ⟨names, fs, hne, hg, hlong⟩
    obtain ⟨k, hk, rfl⟩ := exists_replicate_of_get? hg
    obtain ⟨k, rfl⟩ := Nat.exists_eq_succ_of_ne_zero fun h : k = 0 => hne (by rw [h]; rfl)
    have hdeep := (hlimit k).1 hlong
    omega
  · intro hn
    obtain ⟨m, rfl⟩ := Nat.exists_eq_add_of_le' hn
    exact ⟨List.replicate 16 longName, _, by simp, get?_replicate m 16,
      (hlimit 15).2 (Nat.le_refl _)⟩

/-- The search of a directory can fail. And if it goes well, a file can be listed whose path text
is too long to find it. -/
theorem not_forall_tryList :
    ¬ (∀ (c : DirectoryConfig) (d : Disk) (es : Fields FileTree) (test : String → Bool),
      d.node? c.directory = some (.directory es) → (FileTree.directory es).WellNamed →
      ∃ paths, c.tryList d test = .ok paths) ∧
    ¬ ∀ (c : DirectoryConfig) (d : Disk) (es : Fields FileTree) (test : String → Bool)
      (paths : List String) (path : String), d.node? c.directory = some (.directory es) →
      (FileTree.directory es).WellNamed → c.tryList d test = .ok paths → path ∈ paths →
      c.exists? d path = true ∧ ∃ bytes, c.read d path = .ok bytes := by
  refine ⟨fun hall => ?_, fun hall => ?_⟩
  · have hw := wellNamed_deepEntries 16
    obtain ⟨paths, hpaths⟩ := hall deepConfig (deepDisk 16) _ (fun _ => true) (node?_deepDisk 16) hw
    obtain ⟨hshort, -⟩ | ⟨-, hopen⟩ := Disk.openBelow_cases (node?_deepDisk 16) hw
    · exact hshort ((longBelow_iff 16).2 (Nat.le_refl _))
    · rw [tryList, hopen] at hpaths
      cases hpaths
  · have hw := wellNamed_deepEntries 15
    have hsaves := savesAt_deepEntries 15
    have hlist : deepConfig.tryList (deepDisk 15) (fun _ => true) =
        .ok (deepConfig.list (deepDisk 15) fun _ => true) := by
      obtain ⟨-, hopen⟩ | ⟨hlong, -⟩ := Disk.openBelow_cases (node?_deepDisk 15) hw
      · rw [tryList, hopen]
      · exact absurd ((longBelow_iff 15).1 hlong) (by decide)
    have hmem : longPath 16 ∈ deepConfig.list (deepDisk 15) fun _ => true :=
      (mem_list_iff_savesAt (node?_deepDisk 15) hw).2 ⟨rfl, _, _, hsaves⟩
    have hlong : pathBytesLimit ≤ (deepConfig.filePath (longPath 16)).utf8ByteSize := by
      have hpath : deepConfig.filePath (longPath 16) = join "d" (longPath 16) :=
        congrArg (join "d") String.append_empty
      rw [hpath, utf8ByteSize_join_longPath]
      decide
    obtain ⟨hmissing, -⟩ := exists?_and_read_of_long (node?_deepDisk 15) hw hsaves hlong
    obtain ⟨hexists, -⟩ := hall _ _ _ _ _ _ (node?_deepDisk 15) hw hlist hmem
    cases hmissing.symm.trans hexists

end DirectoryConfig

end SaveTree
