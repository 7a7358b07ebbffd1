/-
  Where the paths below a directory lead.

  The path text of what stands below a directory is that of the directory with the names that lead
  down, joined by slashes, behind it. It leads where the names lead, unless it is too long for a
  path; then it is refused. Listing opens each directory below by its path text, so it can fail for
  one of them.
-/
import SaveTree.Error
import SaveTree.Proofs.Storage.Below
import SaveTree.Proofs.Storage.Disk

namespace SaveTree

/-! ## Paths from a directory -/

namespace DiskPath

variable {directory path : String} {names : List String}

theorem isAbsolute_append (h : directory ≠ "") (path : String) :
    isAbsolute (directory ++ path) = isAbsolute directory := by
  have hne : directory.toList ≠ [] := fun hnil => h (String.toList_inj.1 hnil)
  obtain ⟨c, cs, hcs⟩ := List.exists_cons_of_ne_nil hne
  rw [isAbsolute, isAbsolute, String.toList_append, hcs]
  rfl

/-- A path from the root has an empty part before its first slash. -/
theorem head?_parts_of_isAbsolute (h : isAbsolute path = true) :
    (parts path).head? = some "" := by
  obtain ⟨cs, hcs⟩ := List.head?_eq_some_iff.1 (of_decide_eq_true h)
  rw [parts, hcs]
  rfl

theorem isAbsolute_intercalate (hne : names ≠ []) (h : ∀ name ∈ names, EntryName name) :
    isAbsolute ("/".intercalate names) = false := by
  rw [Bool.eq_false_iff]
  intro habsolute
  have hhead := head?_parts_of_isAbsolute habsolute
  rw [parts_intercalate hne fun name hname => (h name hname).noSlash] at hhead
  exact (h "" (List.mem_of_head? hhead)).ne_empty rfl

/-- The characters of names joined by slashes are slashes and those of the names. -/
theorem mem_intercalate {c : Char} (h : c ∈ ("/".intercalate names).toList) :
    c = '/' ∨ ∃ name ∈ names, c ∈ name.toList := by
  induction names with
  | nil => cases h
  | cons name names ih =>
    cases names with
    | nil =>
      rw [String.intercalate_singleton] at h
      exact .inr ⟨name, List.mem_cons_self, h⟩
    | cons next names =>
      rw [String.intercalate_cons_cons, String.toList_append, String.toList_append,
        List.mem_append, List.mem_append] at h
      obtain (hc | hc) | hc := h
      · exact .inr ⟨name, List.mem_cons_self, hc⟩
      · exact .inl (List.mem_singleton.1 hc)
      · obtain hslash | ⟨other, hother, hc⟩ := ih hc
        · exact .inl hslash
        · exact .inr ⟨other, List.mem_cons_of_mem _ hother, hc⟩

/-- A relative path is put behind a directory and a slash, which the directory may bring. -/
theorem join_cases (hd : directory ≠ "") (h : isAbsolute path = false) :
    (∃ above, directory = above ++ "/" ∧ join directory path = above ++ "/" ++ path) ∨
      join directory path = directory ++ "/" ++ path := by
  unfold join
  rw [if_neg (by simp [h, hd])]
  split
  · next hlast =>
    obtain ⟨cs, hcs⟩ := List.getLast?_eq_some_iff.1 hlast
    have habove : directory = String.ofList cs ++ "/" := by
      rw [← String.toList_inj, hcs, String.toList_append, String.toList_ofList]
      rfl
    exact .inl ⟨String.ofList cs, habove, by rw [← habove]⟩
  · exact .inr rfl

end DiskPath

/-! ## Where they lead -/

namespace Disk

open FileTree DiskPath

variable {d : Disk} {t node : FileTree} {es : Fields FileTree} {directory path : String}
  {here location names : List String} {bytes : Bytes}

theorem checkPath_eq (h : path ≠ "") (hnul : '\x00' ∉ path.toList) :
    checkPath path = if pathBytesLimit ≤ path.utf8ByteSize then .error .nameTooLong else .ok () := by
  unfold checkPath
  rw [if_neg h, if_neg (by simpa using hnul)]

theorem ne_of_checkPath (h : checkPath path = .ok ()) : path ≠ "" ∧ '\x00' ∉ path.toList := by
  unfold checkPath at h
  split at h
  · cases h
  next hne =>
  split at h
  · cases h
  next hnul => exact ⟨hne, by simpa using hnul⟩

/-- A path below a directory is good unless it is too long. -/
theorem checkPath_join (h : checkPath directory = .ok ()) (hne : names ≠ [])
    (hn : ∀ name ∈ names, EntryName name) :
    checkPath (join directory ("/".intercalate names)) =
      if pathBytesLimit ≤ (join directory ("/".intercalate names)).utf8ByteSize then
        .error .nameTooLong
      else .ok () := by
  obtain ⟨hd, hnul⟩ := ne_of_checkPath h
  have hnames : '\x00' ∉ ("/".intercalate names).toList := by
    intro hmem
    obtain hslash | ⟨name, hname, hc⟩ := mem_intercalate hmem
    · cases hslash
    · exact (hn name hname).noNul hc
  obtain ⟨above, rfl, hjoin⟩ | hjoin := join_cases hd (isAbsolute_intercalate hne hn)
  · refine checkPath_eq ?_ ?_
    · simp [hjoin]
    · rw [hjoin, String.toList_append, List.mem_append]
      exact not_or.2 ⟨hnul, hnames⟩
  · refine checkPath_eq ?_ ?_
    · simp [hjoin]
    · rw [hjoin, String.toList_append, String.toList_append, List.mem_append, List.mem_append]
      exact not_or.2 ⟨not_or.2 ⟨hnul, by decide⟩, hnames⟩

/-- The names that lead to a node of the tree at a location lead there on the disk. -/
theorem arrives_of_get? (hhere : d.tree.get? here = some t) (hn : t.EntryNames)
    (hg : t.get? names = some node) : Arrives d.tree here names (here ++ names) := by
  induction names generalizing here t with
  | nil =>
    rw [List.append_nil]
    exact .nil here
  | cons name names ih =>
    cases t with
    | file bytes =>
      rw [get?_file_cons] at hg
      cases hg
    | directory es =>
      obtain ⟨hkeys, hbelow⟩ := entryNames_directory_iff.1 hn
      obtain ⟨c, hc, hg⟩ := get?_directory_cons_eq_some_iff.1 hg
      have hd : d.tree.occupant? here = some .directory :=
        occupant?_eq_directory_iff.2 ⟨es, hhere⟩
      have hnext : d.tree.get? (here ++ [name]) = some c := by
        rw [get?_append, hhere, Option.bind_some, get?_directory_cons, hc, Option.bind_some,
          get?_nil]
      have hproper := (hkeys name (Fields.mem_keys_of_get? hc)).proper
      have hpasses : Passes d.tree here name (here ++ [name]) :=
        .down hd hproper (by rw [occupant?, hnext]; rfl)
      rw [List.append_cons here name names]
      exact .cons hpasses (ih hnext (hbelow name c hc) hg)

/-- An empty part stays where it is. -/
theorem Passes.eq_of_empty (h : Passes d.tree here "" location) : location = here := by
  generalize hpart : "" = part at h
  cases h with
  | stay => rfl
  | up => exact absurd hpart (by decide)
  | down _ hp => exact absurd hpart.symm hp.1

/-- A relative path goes on from where the directory leads. -/
theorem arrives_join (h : d.locate directory = .ok here) (hpath : isAbsolute path = false)
    (ha : Arrives d.tree here (parts path) location) :
    Arrives d.tree (d.start (join directory path)) (parts (join directory path)) location := by
  obtain ⟨hcheck, hdirectory⟩ := locate_eq_ok_iff.1 h
  obtain ⟨hd, -⟩ := ne_of_checkPath hcheck
  have hstart : ∀ rest, d.start (directory ++ rest) = d.start directory := by
    intro rest
    rw [start, isAbsolute_append hd, start]
  obtain ⟨above, rfl, hjoin⟩ | hjoin := join_cases hd hpath
  · -- the slash at the end of the directory is no part of its own any more
    have hslash : parts (above ++ "/") = parts above ++ [""] := by
      have hparts := parts_append_slash above ""
      rwa [String.append_empty] at hparts
    rw [hslash] at hdirectory
    obtain ⟨middle, habove, hlast⟩ := arrives_append_iff.1 hdirectory
    have hmiddle : here = middle := by
      cases hlast with
      | cons hp hnil =>
        cases hnil
        exact hp.eq_of_empty
    rw [hjoin, hstart, parts_append_slash]
    exact arrives_append_iff.2 ⟨here, hmiddle ▸ habove, ha⟩
  · rw [hjoin, String.append_assoc, hstart, ← String.append_assoc, parts_append_slash]
    exact arrives_append_iff.2 ⟨here, hdirectory, ha⟩

theorem node?_eq_some_iff : d.node? path = some node ↔
    ∃ location, d.locate path = .ok location ∧ d.tree.get? location = some node := by
  unfold node?
  cases d.locate path with
  | error fault => simp
  | ok location => simp

/-- The path text of a file below a directory leads to the file, unless it is too long. -/
theorem locate_join (h : d.locate directory = .ok here)
    (hhere : d.tree.get? here = some (.directory es)) (hn : (FileTree.directory es).EntryNames)
    (hg : (FileTree.directory es).get? names = some (.file bytes)) :
    d.locate (join directory ("/".intercalate names)) =
      if pathBytesLimit ≤ (join directory ("/".intercalate names)).utf8ByteSize then
        .error .nameTooLong
      else .ok (here ++ names) := by
  have hnames := hn.forall_of_get? hg
  have hne : names ≠ [] := by
    rintro rfl
    cases (get?_nil _).symm.trans hg
  have hcheck := checkPath_join (locate_eq_ok_iff.1 h).1 hne hnames
  split at hcheck
  · next hlong =>
    rw [if_pos hlong, locate, resolve, hcheck]
    rfl
  · next hshort =>
    rw [if_neg hshort]
    refine locate_eq_ok_iff.2 ⟨hcheck, ?_⟩
    refine arrives_join h (isAbsolute_intercalate hne hnames) ?_
    rw [parts_intercalate hne fun name hname => (hnames name hname).noSlash]
    exact arrives_of_get? hhere hn hg

/-! ## Opening directories -/

theorem forM_eq_ok_iff {α ε : Type} {xs : List α} {f : α → Except ε Unit} :
    xs.forM f = .ok () ↔ ∀ x ∈ xs, f x = .ok () := by
  induction xs with
  | nil => simp [List.forM, pure, Except.pure]
  | cons x xs ih =>
    rw [List.forM, bind_eq_ok_iff, List.forall_mem_cons, ih]
    constructor
    · rintro ⟨⟨⟩, hx, hxs⟩
      exact ⟨hx, hxs⟩
    · rintro ⟨hx, hxs⟩
      exact ⟨(), hx, hxs⟩

theorem exists_of_forM_eq_error {α ε : Type} {xs : List α} {f : α → Except ε Unit} {e : ε}
    (h : xs.forM f = .error e) : ∃ x ∈ xs, f x = .error e := by
  induction xs with
  | nil => cases h
  | cons x xs ih =>
    rw [List.forM] at h
    cases hx : f x with
    | error e' =>
      rw [hx] at h
      cases h
      exact ⟨x, List.mem_cons_self, hx⟩
    | ok u =>
      rw [hx] at h
      obtain ⟨y, hy, he⟩ := ih h
      exact ⟨y, List.mem_cons_of_mem _ hy, he⟩

/-- A directory below has a path text that is too long. -/
def LongBelow (directory : String) (t : FileTree) : Prop :=
  ∃ names fs, names ≠ [] ∧ t.get? names = some (.directory fs) ∧
    pathBytesLimit ≤ (join directory ("/".intercalate names)).utf8ByteSize

/-- All directories below can be opened, or one has a path text that is too long. -/
theorem openBelow_cases (h : d.node? directory = some (.directory es))
    (hw : (FileTree.directory es).WellNamed) :
    (¬ LongBelow directory (.directory es) ∧ d.openBelow directory = .ok ()) ∨
      LongBelow directory (.directory es) ∧ d.openBelow directory = .error .nameTooLong := by
  obtain ⟨here, hlocate, -⟩ := node?_eq_some_iff.1 h
  have hcheck : ∀ {names fs}, names ≠ [] →
      (FileTree.directory es).get? names = some (.directory fs) →
      checkPath (join directory ("/".intercalate names)) =
        if pathBytesLimit ≤ (join directory ("/".intercalate names)).utf8ByteSize then
          .error .nameTooLong
        else .ok () := fun hne hg =>
    checkPath_join (locate_eq_ok_iff.1 hlocate).1 hne (hw.entryNames.forall_of_get? hg)
  rw [openBelow, h]
  dsimp only
  generalize hopened : (directoriesBelow "" es).forM
    (fun below => checkPath (join directory below)) = opened
  cases opened with
  | ok u =>
    refine .inl ⟨?_, rfl⟩
    rintro ⟨names, fs, hne, hg, hlong⟩
    have hmem := (mem_directoriesBelow_iff hw).2 ⟨names, fs, hne, hg, rfl⟩
    have hshort := forM_eq_ok_iff.1 hopened _ hmem
    rw [hcheck hne hg, if_pos hlong] at hshort
    cases hshort
  | error fault =>
    obtain ⟨below, hmem, hfault⟩ := exists_of_forM_eq_error hopened
    obtain ⟨names, fs, hne, hg, rfl⟩ := (mem_directoriesBelow_iff hw).1 hmem
    rw [hcheck hne hg] at hfault
    split at hfault
    · next hlong =>
      cases hfault
      exact .inr ⟨⟨names, fs, hne, hg, hlong⟩, rfl⟩
    · cases hfault

end Disk

end SaveTree
