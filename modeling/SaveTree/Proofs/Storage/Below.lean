/-
  What stands below a directory, by path texts.

  An entry of a directory has a proper name without a slash (`EntryName`), so the names that lead
  down from a directory, joined by slashes, can be read off their text again. Collecting the files
  or the directories of a tree gives what stands at a location under the path of the location
  (`Collects`), and no file twice.
-/
import SaveTree.Proofs.Storage.Walk

namespace SaveTree

/-- A name that an entry of a directory can have. -/
structure EntryName (name : String) : Prop where
  proper : ProperName name
  noSlash : '/' ∉ name.toList
  noNul : '\x00' ∉ name.toList

theorem EntryName.ne_empty {name : String} (h : EntryName name) : name ≠ "" := h.proper.1

instance : DecidablePred ProperName := fun name =>
  inferInstanceAs (Decidable (name ≠ "" ∧ name ≠ "." ∧ name ≠ ".." ∧
    name.utf8ByteSize ≤ maxNameBytes))

instance : DecidablePred EntryName := fun name =>
  decidable_of_iff (ProperName name ∧ '/' ∉ name.toList ∧ '\x00' ∉ name.toList)
    ⟨fun h => ⟨h.1, h.2.1, h.2.2⟩, fun h => ⟨h.proper, h.noSlash, h.noNul⟩⟩

/-! ## Parts of path texts -/

namespace DiskPath

variable {directory path name : String} {names : List String} {part cs ds : List Char}

theorem splitFrom_append_slash (part cs ds : List Char) :
    splitFrom part (cs ++ '/' :: ds) = splitFrom part cs ++ splitFrom [] ds := by
  induction cs generalizing part with
  | nil => rfl
  | cons c cs ih =>
    rw [List.cons_append, splitFrom, splitFrom]
    split
    · rw [ih, List.cons_append]
    · exact ih _

theorem splitFrom_of_notMem (h : '/' ∉ cs) :
    splitFrom part cs = [String.ofList (part.reverse ++ cs)] := by
  induction cs generalizing part with
  | nil => rw [splitFrom, List.append_nil]
  | cons c cs ih =>
    obtain ⟨hc, hcs⟩ := not_or.1 (mt List.mem_cons.2 h)
    rw [splitFrom, if_neg (Ne.symm hc), ih hcs, List.reverse_cons, List.append_assoc,
      List.singleton_append]

theorem parts_append_slash (directory path : String) :
    parts (directory ++ "/" ++ path) = parts directory ++ parts path := by
  have htext : (directory ++ "/" ++ path).toList = directory.toList ++ '/' :: path.toList := by
    simp
  rw [parts, htext]
  exact splitFrom_append_slash _ _ _

theorem parts_of_notMem (h : '/' ∉ path.toList) : parts path = [path] := by
  rw [parts, splitFrom_of_notMem h, List.reverse_nil, List.nil_append, String.ofList_toList]

/-- Names joined by slashes are the parts of the text. -/
theorem parts_intercalate (hne : names ≠ []) (h : ∀ name ∈ names, '/' ∉ name.toList) :
    parts ("/".intercalate names) = names := by
  induction names with
  | nil => exact absurd rfl hne
  | cons name names ih =>
    obtain ⟨hname, hnames⟩ := List.forall_mem_cons.1 h
    cases names with
    | nil => rw [String.intercalate_singleton, parts_of_notMem hname]
    | cons next names =>
      rw [String.intercalate_cons_cons, parts_append_slash, parts_of_notMem hname,
        ih (List.cons_ne_nil _ _) hnames]
      rfl

end DiskPath

namespace FileTree

open DiskPath

variable {t node : FileTree} {es : Fields FileTree} {above name : String}
  {names others : List String} {bytes : Bytes}

/-- Induction over the nodes of a file tree. -/
@[elab_as_elim, induction_eliminator]
theorem nodeInduction {motive : FileTree → Prop} (file : ∀ bytes, motive (file bytes))
    (directory : ∀ es : List (String × FileTree), (∀ e ∈ es, motive e.2) → motive (directory es))
    (t : FileTree) : motive t :=
  match t with
  | .file bytes => file bytes
  | .directory es => directory es fun e he =>
    have := List.sizeOf_lt_of_mem he
    have : sizeOf e = 1 + sizeOf e.1 + sizeOf e.2 := by cases e; rfl
    nodeInduction file directory e.2
termination_by sizeOf t
decreasing_by
  simp only [FileTree.directory.sizeOf_spec]
  omega

/-! ## Names of entries -/

/-- Each entry of each directory has a name that an entry can have. -/
def EntryNames (t : FileTree) : Prop :=
  ∀ location es, t.get? location = some (.directory es) → ∀ name ∈ Fields.keys es, EntryName name

theorem entryNames_file (bytes : Bytes) : (file bytes).EntryNames := by
  intro location es h
  cases location with
  | nil => cases (get?_nil _).symm.trans h
  | cons name location => cases (get?_file_cons bytes name location).symm.trans h

theorem entryNames_directory_iff : (directory es).EntryNames ↔
    (∀ name ∈ Fields.keys es, EntryName name) ∧
      ∀ name c, Fields.get? es name = some c → c.EntryNames := by
  refine ⟨fun h => ⟨h [] es (get?_nil _), fun name c hc location fs hf => ?_⟩, fun h => ?_⟩
  · refine h (name :: location) fs ?_
    rw [get?_directory_cons, hc]
    exact hf
  · obtain ⟨hn, hc⟩ := h
    intro location fs hf
    cases location with
    | nil =>
      rw [get?_nil] at hf
      cases hf
      exact hn
    | cons name location =>
      rw [get?_directory_cons] at hf
      obtain ⟨c, hg, hf⟩ := Option.bind_eq_some_iff.1 hf
      exact hc name c hg location fs hf

/-- What stands under names in a directory is an entry or stands below one. -/
theorem get?_directory_cons_eq_some_iff : (directory es).get? (name :: names) = some node ↔
    ∃ c, Fields.get? es name = some c ∧ c.get? names = some node := by
  rw [get?_directory_cons, Option.bind_eq_some_iff]

/-- The names that lead to a node are names of entries. -/
theorem EntryNames.forall_of_get? (h : t.EntryNames) (hg : t.get? names = some node) :
    ∀ name ∈ names, EntryName name := by
  induction names generalizing t with
  | nil => exact nofun
  | cons name names ih =>
    cases t with
    | file bytes =>
      rw [get?_file_cons] at hg
      cases hg
    | directory es =>
      obtain ⟨hkeys, hbelow⟩ := entryNames_directory_iff.1 h
      obtain ⟨c, hc, hg⟩ := get?_directory_cons_eq_some_iff.1 hg
      exact List.forall_mem_cons.2
        ⟨hkeys name (Fields.mem_keys_of_get? hc), ih (hbelow name c hc) hg⟩

/-- The entries of each directory have distinct names, and names that an entry can have. -/
structure WellNamed (t : FileTree) : Prop where
  distinctNames : t.DistinctNames
  entryNames : t.EntryNames

theorem wellNamed_file (bytes : Bytes) : (file bytes).WellNamed :=
  ⟨distinctNames_file bytes, entryNames_file bytes⟩

theorem wellNamed_directory (hd : (Fields.keys es).Nodup)
    (hn : ∀ name ∈ Fields.keys es, EntryName name) (hbelow : ∀ e ∈ es, e.2.WellNamed) :
    (directory es).WellNamed := by
  have hget : ∀ name c, Fields.get? es name = some c → c.WellNamed := fun name c hc =>
    hbelow (name, c) (Fields.mem_of_get? hc)
  exact ⟨distinctNames_directory_iff.2 ⟨hd, fun name c hc => (hget name c hc).distinctNames⟩,
    entryNames_directory_iff.2 ⟨hn, fun name c hc => (hget name c hc).entryNames⟩⟩

/-- What stands under a name of a directory is again well named. -/
theorem WellNamed.below (h : (directory es).WellNamed) (hc : Fields.get? es name = some t) :
    t.WellNamed :=
  ⟨(distinctNames_directory_iff.1 h.distinctNames).2 name t hc,
    (entryNames_directory_iff.1 h.entryNames).2 name t hc⟩

/-! ## Paths of locations -/

/-- The path of what stands under names below a node whose path is `above`. -/
def pathBelow (above : String) (names : List String) : String := names.foldl joinName above

theorem pathBelow_cons (above name : String) (names : List String) :
    pathBelow above (name :: names) = pathBelow (joinName above name) names := rfl

theorem joinName_of_ne (h : above ≠ "") (name : String) :
    joinName above name = above ++ "/" ++ name := if_neg h

theorem joinName_ne_empty (h : above ≠ "") (name : String) : joinName above name ≠ "" := by
  rw [joinName_of_ne h]
  simp

theorem pathBelow_of_ne (h : above ≠ "") (names : List String) :
    pathBelow above names = "/".intercalate (above :: names) := by
  induction names generalizing above with
  | nil => rw [String.intercalate_singleton]; rfl
  | cons name names ih =>
    rw [pathBelow_cons, ih (joinName_ne_empty h name), joinName_of_ne h,
      String.intercalate_cons_append, String.intercalate_cons_cons]

/-- Below a top without a path the path is the names joined by slashes. -/
theorem pathBelow_empty (hne : names ≠ []) (h : ∀ name ∈ names, EntryName name) :
    pathBelow "" names = "/".intercalate names := by
  obtain ⟨name, names, rfl⟩ := List.exists_cons_of_ne_nil hne
  have hjoin : joinName "" name = name := if_pos rfl
  rw [pathBelow_cons, hjoin, pathBelow_of_ne (h name List.mem_cons_self).ne_empty]

/-- A path can be taken apart into the names again. -/
theorem pathBelow_injective (h : ∀ name ∈ names, EntryName name)
    (ho : ∀ name ∈ others, EntryName name) (heq : pathBelow above names = pathBelow above others) :
    names = others := by
  have hslash : ∀ {ns : List String}, (∀ name ∈ ns, EntryName name) →
      ∀ name ∈ ns, '/' ∉ name.toList := fun hns name hname => (hns name hname).noSlash
  by_cases ha : above = ""
  · subst ha
    have hempty : ∀ {ns : List String}, (∀ name ∈ ns, EntryName name) →
        pathBelow "" ns = "" → ns = [] := by
      intro ns hns hnil
      refine Classical.byContradiction fun hne => ?_
      rw [pathBelow_empty hne hns] at hnil
      have hparts := parts_intercalate hne (hslash hns)
      rw [hnil] at hparts
      have hmem : "" ∈ ns := by
        rw [← hparts]
        exact List.mem_singleton.2 rfl
      exact (hns "" hmem).ne_empty rfl
    by_cases hn : names = []
    · subst hn
      exact (hempty ho heq.symm).symm
    by_cases hon : others = []
    · subst hon
      exact hempty h heq
    rw [pathBelow_empty hn h, pathBelow_empty hon ho] at heq
    rw [← parts_intercalate hn (hslash h), heq, parts_intercalate hon (hslash ho)]
  · have hparts : ∀ {ns : List String}, (∀ name ∈ ns, EntryName name) →
        parts (pathBelow above ns) = parts above ++ ns := by
      intro ns hns
      rw [pathBelow_of_ne ha]
      cases ns with
      | nil => rw [String.intercalate_singleton, List.append_nil]
      | cons n ns =>
        rw [String.intercalate_cons_cons, parts_append_slash,
          parts_intercalate (List.cons_ne_nil _ _) (hslash hns)]
    have hsame := hparts h
    rw [heq, hparts ho] at hsame
    exact (List.append_cancel_left hsame).symm

/-! ## What is collected -/

/-- A way to collect from a tree takes `here` at each node, under the path of the node. -/
structure Collects {α : Type} (collect here : String → FileTree → List α) : Prop where
  file : ∀ path bytes, collect path (file bytes) = here path (file bytes)
  directory : ∀ path es, collect path (directory es) =
    here path (directory es) ++ es.flatMap fun e => collect (joinName path e.1) e.2

/-- What is collected comes from a node, under the path of its location. -/
theorem Collects.mem_iff {α : Type} {collect here : String → FileTree → List α}
    (hc : Collects collect here) (ht : t.DistinctNames) {x : α} : x ∈ collect above t ↔
      ∃ names node, t.get? names = some node ∧ x ∈ here (pathBelow above names) node := by
  induction t generalizing above with
  | file bytes =>
    rw [hc.file]
    constructor
    · exact fun hx => ⟨[], .file bytes, get?_nil _, hx⟩
    · rintro ⟨names, node, hg, hx⟩
      cases names with
      | nil =>
        rw [get?_nil] at hg
        cases hg
        exact hx
      | cons name names =>
        rw [get?_file_cons] at hg
        cases hg
  | directory es ih =>
    obtain ⟨hkeys, hbelow⟩ := distinctNames_directory_iff.1 ht
    rw [hc.directory, List.mem_append, List.mem_flatMap]
    constructor
    · rintro (hx | ⟨⟨name, c⟩, he, hx⟩)
      · exact ⟨[], .directory es, get?_nil _, hx⟩
      · have hget : Fields.get? es name = some c := Fields.get?_of_mem hkeys he
        obtain ⟨names, node, hg, hx⟩ := (ih _ he (hbelow name c hget)).1 hx
        exact ⟨name :: names, node, get?_directory_cons_eq_some_iff.2 ⟨c, hget, hg⟩, hx⟩
    · rintro ⟨names, node, hg, hx⟩
      cases names with
      | nil =>
        rw [get?_nil] at hg
        cases hg
        exact .inl hx
      | cons name names =>
        obtain ⟨c, hget, hg⟩ := get?_directory_cons_eq_some_iff.1 hg
        have he : (name, c) ∈ es := Fields.mem_of_get? hget
        exact .inr ⟨(name, c), he, (ih _ he (hbelow name c hget)).2 ⟨names, node, hg, hx⟩⟩

/-- The file that is collected at a node. -/
def fileHere (path : String) : FileTree → List (String × Bytes)
  | file bytes => [(path, bytes)]
  | directory _ => []

/-- The directory that is collected at a node. -/
def directoryHere (path : String) : FileTree → List String
  | file _ => []
  | directory _ => [path]

theorem entriesFrom_eq_flatMap (path : String) (es : List (String × FileTree)) :
    entriesFrom path es = es.flatMap fun e => filesFrom (joinName path e.1) e.2 := by
  induction es with
  | nil => rfl
  | cons e es ih => rw [entriesFrom, ih, List.flatMap_cons]

theorem directoriesBelow_eq_flatMap (path : String) (es : List (String × FileTree)) :
    directoriesBelow path es = es.flatMap fun e => directoriesFrom (joinName path e.1) e.2 := by
  induction es with
  | nil => rfl
  | cons e es ih => rw [directoriesBelow, ih, List.flatMap_cons]

theorem collects_filesFrom : Collects filesFrom fileHere :=
  ⟨fun _ _ => rfl, fun path es => entriesFrom_eq_flatMap path es⟩

theorem collects_directoriesFrom : Collects directoriesFrom directoryHere :=
  ⟨fun _ _ => rfl, fun path es => by rw [directoriesFrom, directoriesBelow_eq_flatMap]; rfl⟩

theorem mem_filesFrom_iff (ht : t.DistinctNames) {path : String} :
    (path, bytes) ∈ t.filesFrom above ↔
      ∃ names, t.get? names = some (.file bytes) ∧ path = pathBelow above names := by
  rw [collects_filesFrom.mem_iff ht]
  constructor
  · rintro ⟨names, node, hg, hx⟩
    cases node with
    | directory es => cases hx
    | file kept =>
      cases List.mem_singleton.1 hx
      exact ⟨names, hg, rfl⟩
  · rintro ⟨names, hg, rfl⟩
    exact ⟨names, .file bytes, hg, List.mem_singleton.2 rfl⟩

theorem mem_directoriesFrom_iff (ht : t.DistinctNames) {path : String} :
    path ∈ t.directoriesFrom above ↔
      ∃ names es, t.get? names = some (.directory es) ∧ path = pathBelow above names := by
  rw [collects_directoriesFrom.mem_iff ht]
  constructor
  · rintro ⟨names, node, hg, hx⟩
    cases node with
    | file kept => cases hx
    | directory es =>
      cases List.mem_singleton.1 hx
      exact ⟨names, es, hg, rfl⟩
  · rintro ⟨names, es, hg, rfl⟩
    exact ⟨names, .directory es, hg, List.mem_singleton.2 rfl⟩

/-- No two files of a tree have one path. -/
theorem pairwise_filesFrom (h : t.WellNamed) (above : String) :
    (t.filesFrom above).Pairwise fun f g => f.1 ≠ g.1 := by
  induction t generalizing above with
  | file bytes => exact List.pairwise_singleton _ _
  | directory es ih =>
    have hkeys := (distinctNames_directory_iff.1 h.distinctNames).1
    have hget : ∀ e ∈ es, Fields.get? es e.1 = some e.2 := fun e he => Fields.get?_of_mem hkeys he
    rw [filesFrom, entriesFrom_eq_flatMap, List.pairwise_flatMap]
    refine ⟨fun e he => ih e he (h.below (hget e he)) _, ?_⟩
    -- entries of different names have no path in common
    have hdistinct : es.Pairwise fun e f => e.1 ≠ f.1 := List.pairwise_map.1 hkeys
    refine hdistinct.imp_of_mem fun {e f} he hf hne x hx y hy hxy => hne ?_
    obtain ⟨names, hgx, hpx⟩ := (mem_filesFrom_iff (h.below (hget e he)).distinctNames).1 hx
    obtain ⟨others, hgy, hpy⟩ := (mem_filesFrom_iff (h.below (hget f hf)).distinctNames).1 hy
    have hleads := h.entryNames.forall_of_get?
      (get?_directory_cons_eq_some_iff.2 ⟨e.2, hget e he, hgx⟩)
    have hleads' := h.entryNames.forall_of_get?
      (get?_directory_cons_eq_some_iff.2 ⟨f.2, hget f hf, hgy⟩)
    have hsame : pathBelow above (e.1 :: names) = pathBelow above (f.1 :: others) := by
      rw [pathBelow_cons, pathBelow_cons, ← hpx, ← hpy, hxy]
    exact (List.cons.inj (pathBelow_injective hleads hleads' hsame)).1

/-! ## From the top -/

/-- The files of a directory by the names that lead to them, joined by slashes. -/
theorem mem_files_iff (h : (directory es).WellNamed) {path : String} :
    (path, bytes) ∈ (directory es).files ↔
      ∃ names, (directory es).get? names = some (.file bytes) ∧ path = "/".intercalate names := by
  have hpath : ∀ {names}, (directory es).get? names = some (.file bytes) →
      pathBelow "" names = "/".intercalate names := by
    intro names hg
    refine pathBelow_empty ?_ (h.entryNames.forall_of_get? hg)
    rintro rfl
    cases (get?_nil _).symm.trans hg
  rw [files, mem_filesFrom_iff h.distinctNames]
  constructor
  · rintro ⟨names, hg, rfl⟩
    exact ⟨names, hg, hpath hg⟩
  · rintro ⟨names, hg, rfl⟩
    exact ⟨names, hg, (hpath hg).symm⟩

/-- The directories below a directory by the names that lead to them, joined by slashes. -/
theorem mem_directoriesBelow_iff (h : (directory es).WellNamed) {path : String} :
    path ∈ directoriesBelow "" es ↔
      ∃ names fs, names ≠ [] ∧ (directory es).get? names = some (.directory fs) ∧
        path = "/".intercalate names := by
  have hkeys := (distinctNames_directory_iff.1 h.distinctNames).1
  rw [directoriesBelow_eq_flatMap, List.mem_flatMap]
  constructor
  · rintro ⟨⟨name, c⟩, he, hpath⟩
    have hget : Fields.get? es name = some c := Fields.get?_of_mem hkeys he
    obtain ⟨names, fs, hg, rfl⟩ :=
      (mem_directoriesFrom_iff (h.below hget).distinctNames).1 hpath
    have hg : (directory es).get? (name :: names) = some (.directory fs) :=
      get?_directory_cons_eq_some_iff.2 ⟨c, hget, hg⟩
    exact ⟨name :: names, fs, List.cons_ne_nil _ _, hg,
      pathBelow_empty (List.cons_ne_nil _ _) (h.entryNames.forall_of_get? hg)⟩
  · rintro ⟨names, fs, hne, hg, rfl⟩
    have hpath := pathBelow_empty hne (h.entryNames.forall_of_get? hg)
    obtain ⟨name, names, rfl⟩ := List.exists_cons_of_ne_nil hne
    obtain ⟨c, hget, hg⟩ := get?_directory_cons_eq_some_iff.1 hg
    refine ⟨(name, c), Fields.mem_of_get? hget, ?_⟩
    exact (mem_directoriesFrom_iff (h.below hget).distinctNames).2 ⟨names, fs, hg, hpath.symm⟩

end FileTree

end SaveTree
