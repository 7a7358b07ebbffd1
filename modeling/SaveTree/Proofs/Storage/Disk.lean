/-
  What the operations of the disk do.

  Every operation on a file goes through the place its path leads to. Writing puts the file
  there and removing drops it, and what stands anywhere else still stands (`KeepsBut`); creating
  directories keeps all there is (`Grows`). So a file that is written or renamed to a path can be
  read there afterwards.
-/
import SaveTree.Proofs.Storage.Walk

namespace SaveTree

namespace Disk

open FileTree

variable {d e : Disk} {path source target : String} {location directory : List String}
  {name : String} {bytes : Bytes}

/-! ## What is kept -/

/-- What stands away from a place still stands, and the place is no directory. -/
structure KeepsBut (d e : Disk) (place : List String) : Prop where
  workingDirectory : e.workingDirectory = d.workingDirectory
  noDirectory : d.tree.occupant? place ≠ some .directory
  stands : ∀ l o, l ≠ place → d.tree.occupant? l = some o → e.tree.occupant? l = some o

/-- All that stands still stands. -/
structure Grows (d e : Disk) : Prop where
  workingDirectory : e.workingDirectory = d.workingDirectory
  stands : ∀ l o, d.tree.occupant? l = some o → e.tree.occupant? l = some o

theorem KeepsBut.leads {place : List String} (h : d.KeepsBut e place)
    (hl : d.Leads path directory name) : e.Leads path directory name := by
  refine hl.of_kept h.workingDirectory fun l hd => h.stands l .directory ?_ hd
  rintro rfl
  exact h.noDirectory hd

theorem Grows.refl (d : Disk) : d.Grows d := ⟨rfl, fun _ _ h => h⟩

theorem Grows.trans {f : Disk} (h : d.Grows e) (h' : e.Grows f) : d.Grows f :=
  ⟨h'.workingDirectory.trans h.workingDirectory, fun l o ho => h'.stands l o (h.stands l o ho)⟩

theorem Grows.leads (h : d.Grows e) (hl : d.Leads path directory name) :
    e.Leads path directory name :=
  hl.of_kept h.workingDirectory fun l hd => h.stands l .directory hd

theorem keepsBut_put (h : d.tree.occupant? (directory ++ [name]) ≠ some .directory)
    (node : FileTree) (slashed : Bool) :
    d.KeepsBut (d.putEntry ⟨directory, name, slashed⟩ node) (directory ++ [name]) :=
  ⟨rfl, h, fun _ _ hl ho => occupant?_put_of_ne node h hl ho⟩

theorem keepsBut_drop (h : d.tree.occupant? (directory ++ [name]) ≠ some .directory)
    (slashed : Bool) :
    d.KeepsBut (d.dropEntry ⟨directory, name, slashed⟩) (directory ++ [name]) :=
  ⟨rfl, h, fun _ _ hl ho => occupant?_drop_of_ne h hl ho⟩

/-! ## Locations -/

theorem locate_eq_ok_iff : d.locate path = .ok location ↔
    checkPath path = .ok () ∧ Arrives d.tree (d.start path) (DiskPath.parts path) location := by
  unfold locate resolve
  rw [← walk_eq_taken_iff]
  cases checkPath path with
  | error fault => simp [bind, Except.bind]
  | ok u =>
    cases walk d.tree (d.start path) (DiskPath.parts path) with
    | error fault => simp [bind, Except.bind]
    | ok spot => cases spot <;> simp [bind, Except.bind]

theorem parts_ne_nil (path : String) : DiskPath.parts path ≠ [] := by
  have h : ∀ (cs part : List Char), DiskPath.splitFrom part cs ≠ [] := by
    intro cs
    induction cs with
    | nil => intro part; simp [DiskPath.splitFrom]
    | cons c cs ih =>
      intro part
      rw [DiskPath.splitFrom]
      split
      · exact List.cons_ne_nil _ _
      · exact ih _
  exact h _ _

theorem locate_of_leads (h : d.Leads path directory name)
    (he : (d.tree.occupant? (directory ++ [name])).isSome) :
    d.locate path = .ok (directory ++ [name]) := by
  obtain ⟨hc, hd, hn, above, hp, ha⟩ := h
  refine locate_eq_ok_iff.2 ⟨hc, ?_⟩
  rw [hp]
  exact arrives_append_iff.2 ⟨directory, ha, .cons (.down hd hn he) (.nil _)⟩

/-- A path to a file leads to its name in its directory: points and slashes at the end are
places where only directories are. -/
theorem exists_leads_of_locate (h : d.locate path = .ok location)
    (hf : d.tree.occupant? location = some (.file bytes)) :
    ∃ directory name, d.Leads path directory name ∧ location = directory ++ [name] := by
  obtain ⟨hc, ha⟩ := locate_eq_ok_iff.1 h
  obtain ⟨above, last, hp⟩ : ∃ above last, DiskPath.parts path = above ++ [last] :=
    ⟨_, _, (List.dropLast_concat_getLast (parts_ne_nil path)).symm⟩
  rw [hp] at ha
  obtain ⟨middle, habove, hlast⟩ := arrives_append_iff.1 ha
  cases hlast with
  | cons hpass hnil =>
  cases hnil
  cases hpass with
  | stay hd => cases hd.symm.trans hf
  | up hd => cases (occupant?_dropLast hd).symm.trans hf
  | down hd hn he => exact ⟨middle, last, ⟨hc, hd, hn, above, hp, habove⟩, rfl⟩

/-! ## Reading and writing files -/

theorem read_eq_ok_iff : d.read path = .ok bytes ↔
    ∃ directory name, d.Leads path directory name ∧
      d.tree.occupant? (directory ++ [name]) = some (.file bytes) := by
  refine ⟨fun h => ?_, fun h => ?_⟩
  · unfold read at h
    cases hl : d.locate path with
    | error fault =>
      rw [hl] at h
      cases h
    | ok location =>
      rw [hl] at h
      dsimp only [bind, Except.bind] at h
      have hf : d.tree.occupant? location = some (.file bytes) := by
        rw [occupant?_eq_file_iff]
        split at h
        · next hg =>
          cases h
          exact hg
        · cases h
        · cases h
      obtain ⟨directory, name, hleads, rfl⟩ := exists_leads_of_locate hl hf
      exact ⟨directory, name, hleads, hf⟩
  · obtain ⟨directory, name, hleads, hf⟩ := h
    unfold read
    rw [locate_of_leads hleads (by rw [hf]; rfl)]
    dsimp only [bind, Except.bind]
    rw [occupant?_eq_file_iff.1 hf]

theorem entry?_eq_ok_iff {l : LastName} {node? : Option FileTree} :
    d.entry? l = .ok node? ↔
      l.name.utf8ByteSize ≤ maxNameBytes ∧ node? = d.tree.get? (l.directory ++ [l.name]) := by
  unfold entry?
  split
  · next hn => exact ⟨fun h => (nomatch h), fun h => absurd h.1 (Nat.not_le.2 hn)⟩
  · next hn =>
    refine ⟨fun h => ?_, fun h => by rw [h.2]⟩
    cases h
    exact ⟨Nat.not_lt.1 hn, rfl⟩

theorem isDirectory_eq_false_iff {node? : Option FileTree} :
    node?.any FileTree.isDirectory = false ↔ node?.map occupant ≠ some .directory := by
  cases node? with
  | none => simp
  | some node => cases node <;> simp [FileTree.isDirectory, occupant]

theorem openForWriting_eq_ok_iff {l : LastName} : d.openForWriting path = .ok l ↔
    d.Leads path l.directory l.name ∧ l.slashed = false ∧
      d.tree.occupant? (l.directory ++ [l.name]) ≠ some .directory := by
  obtain ⟨directory, name, slashed⟩ := l
  refine ⟨fun h => ?_, fun h => ?_⟩
  · unfold openForWriting at h
    dsimp only [bind, Except.bind] at h
    split at h
    · cases h
    split at h
    · cases h
    next l' hl =>
    split at h
    · cases h
    next entry he =>
    obtain ⟨hn, rfl⟩ := entry?_eq_ok_iff.1 he
    split at h
    · cases h
    next hs =>
    cases h
    rw [Bool.not_eq_true, Bool.or_eq_false_iff, isDirectory_eq_false_iff] at hs
    exact ⟨leads_of_lastName hl hs.1 hn, hs⟩
  · obtain ⟨hl, hs, hd⟩ := h
    cases hs
    unfold openForWriting
    rw [lastName_of_leads hl]
    dsimp only [bind, Except.bind]
    rw [entry?_eq_ok_iff.2 ⟨hl.name_le, rfl⟩]
    dsimp only
    rw [isDirectory_eq_false_iff.2 hd, if_neg (by decide)]

/-- A write puts the file at the place its path leads to, which is no directory. -/
theorem write_eq_ok_iff : d.write path bytes = .ok e ↔
    ∃ directory name, d.Leads path directory name ∧
      d.tree.occupant? (directory ++ [name]) ≠ some .directory ∧
      e = d.putEntry ⟨directory, name, false⟩ (.file bytes) := by
  unfold write
  refine ⟨fun h => ?_, fun h => ?_⟩
  · cases ho : d.openForWriting path with
    | error fault =>
      rw [ho] at h
      cases h
    | ok l =>
      rw [ho] at h
      cases h
      obtain ⟨hl, -, hd⟩ := openForWriting_eq_ok_iff.1 ho
      exact ⟨l.directory, l.name, hl, hd, rfl⟩
  · obtain ⟨directory, name, hl, hd, rfl⟩ := h
    have ho : d.openForWriting path = .ok ⟨directory, name, false⟩ :=
      openForWriting_eq_ok_iff.2 ⟨hl, rfl, hd⟩
    rw [ho]
    rfl

/-- A file that stands where a path leads can be read there. -/
theorem read_putEntry (hl : d.Leads path directory name)
    (hd : d.tree.occupant? (directory ++ [name]) ≠ some .directory) (bytes : Bytes)
    (slashed : Bool) :
    (d.putEntry ⟨directory, name, slashed⟩ (.file bytes)).read path = .ok bytes :=
  read_eq_ok_iff.2
    ⟨directory, name, (keepsBut_put hd _ slashed).leads hl, occupant?_put_self hl.2.1 _⟩

theorem distinctNames_write (ht : d.tree.DistinctNames) (h : d.write path bytes = .ok e) :
    e.tree.DistinctNames := by
  obtain ⟨directory, name, -, -, rfl⟩ := write_eq_ok_iff.1 h
  exact distinctNames_put ht (distinctNames_file bytes) _ _

/-- What is written to a file is read from it. -/
theorem read_of_write (h : d.write path bytes = .ok e) : e.read path = .ok bytes := by
  obtain ⟨directory, name, hl, hd, rfl⟩ := write_eq_ok_iff.1 h
  exact read_putEntry hl hd bytes false

/-! ## Removing and renaming files -/

/-- Removing drops the name of the file that the path leads to. -/
theorem remove_eq_ok_iff : d.remove path = .ok e ↔
    ∃ directory name bytes, d.Leads path directory name ∧
      d.tree.occupant? (directory ++ [name]) = some (.file bytes) ∧
      e = d.dropEntry ⟨directory, name, false⟩ := by
  unfold remove
  refine ⟨fun h => ?_, fun h => ?_⟩
  · dsimp only [bind, Except.bind] at h
    split at h
    · cases h
    split at h
    · cases h
    next l hl =>
    obtain ⟨directory, name, slashed⟩ := l
    split at h
    · cases h
    next entry he =>
    obtain ⟨hn, rfl⟩ := entry?_eq_ok_iff.1 he
    split at h
    · cases h
    · cases h
    next bytes hf =>
    cases slashed with
    | true => cases h
    | false =>
      cases h
      exact ⟨directory, name, bytes, leads_of_lastName hl rfl hn, occupant?_eq_file_iff.2 hf, rfl⟩
  · obtain ⟨directory, name, bytes, hl, hf, rfl⟩ := h
    rw [lastName_of_leads hl]
    dsimp only [bind, Except.bind]
    rw [entry?_eq_ok_iff.2 ⟨hl.name_le, (occupant?_eq_file_iff.1 hf).symm⟩]
    rfl

/-- A path reads as missing once its file is dropped. -/
theorem read_dropEntry (ht : d.tree.DistinctNames) (hl : d.Leads path directory name)
    (hd : d.tree.occupant? (directory ++ [name]) ≠ some .directory) (slashed : Bool) :
    (d.dropEntry ⟨directory, name, slashed⟩).read path = .error .notFound := by
  have hnone : (d.dropEntry ⟨directory, name, slashed⟩).tree.occupant? (directory ++ [name])
      = none := occupant?_drop_self ht hl.2.1 name
  obtain ⟨hc, hd', ⟨h₁, h₂, h₃, h₄⟩, above, hp, ha⟩ := (keepsBut_drop hd slashed).leads hl
  unfold read locate resolve
  rw [hc, hp]
  dsimp only [bind, Except.bind]
  rw [walk_append ha, walk_cons_of_directory hd', if_neg (by simp [h₁, h₂]), if_neg h₃,
    if_neg (Nat.not_lt.2 h₄), hnone]
  rfl

/-- Renaming a file either finds both paths at one place and does nothing, or takes the file
from its place to another, which is no directory. -/
theorem rename_cases (hl : d.Leads source directory name)
    (hf : d.tree.occupant? (directory ++ [name]) = some (.file bytes))
    (h : d.rename source target = .ok e) :
    ∃ above last, d.Leads target above last ∧
      (directory ++ [name] = above ++ [last] ∧ e = d ∨
        ¬ directory ++ [name] <+: above ++ [last] ∧
          d.tree.occupant? (above ++ [last]) ≠ some .directory ∧
          e = (d.dropEntry ⟨directory, name, false⟩).putEntry ⟨above, last, false⟩
            (.file bytes)) := by
  unfold rename at h
  rw [lastName_of_leads hl] at h
  dsimp only [bind, Except.bind] at h
  split at h
  · cases h
  next new? hnew =>
  cases new? with
  | none => cases h
  | some new =>
  dsimp only at h
  rw [entry?_eq_ok_iff.2 ⟨hl.name_le, rfl⟩] at h
  dsimp only at h
  rw [occupant?_eq_file_iff.1 hf] at h
  dsimp only at h
  split at h
  · cases h
  next replaced hreplaced =>
  obtain ⟨hn, rfl⟩ := entry?_eq_ok_iff.1 hreplaced
  obtain ⟨above, last, slashed⟩ := new
  split at h
  · cases h
  next hs =>
  -- a file cannot be renamed to a path with a slash at its end
  cases slashed with
  | true => exact absurd rfl hs
  | false =>
  refine ⟨above, last, leads_of_lastName hnew rfl hn, ?_⟩
  split at h
  · next hsame =>
    cases h
    exact .inl ⟨hsame, rfl⟩
  split at h
  · cases h
  next hbelow =>
  split at h
  · cases h
  refine .inr ⟨by simpa using hbelow, ?_, ?_⟩
  · rw [Ne, occupant?_eq_directory_iff]
    rintro ⟨es, he⟩
    rw [he] at h
    cases es <;> cases h
  · split at h
    · cases h
      rfl
    · cases h
    · cases h
    · cases h
      rfl

/-- A file that is renamed is read under its new name. -/
theorem read_of_rename (hr : d.read source = .ok bytes) (h : d.rename source target = .ok e) :
    e.read target = .ok bytes := by
  obtain ⟨directory, name, hl, hf⟩ := read_eq_ok_iff.1 hr
  have hsource : d.tree.occupant? (directory ++ [name]) ≠ some .directory := by simp [hf]
  obtain ⟨above, last, ht, ⟨hsame, rfl⟩ | ⟨hbelow, hd, rfl⟩⟩ := rename_cases hl hf h
  · exact read_eq_ok_iff.2 ⟨above, last, ht, hsame ▸ hf⟩
  · refine read_putEntry ((keepsBut_drop hsource false).leads ht) ?_ bytes false
    rw [dropEntry, drop, occupant?_change (fun es _ hk => Fields.get?_erase_ne es hk) hbelow]
    exact hd

/-! ## Operations that change nothing if they fail -/

theorem attempt_eq_ok_iff {result : Except DiskFault Disk} :
    d.attempt result = (.ok (), e) ↔ result = .ok e := by
  cases result <;> simp [attempt]

theorem attempt_of_error {result : Except DiskFault Disk} {fault : DiskFault}
    (h : (d.attempt result).1 = .error fault) : (d.attempt result).2 = d := by
  cases result with
  | ok after => cases h
  | error fault => rfl

/-! ## Creating directories -/

/-- A new directory stands in a directory, where nothing stood. -/
theorem makeDirectory_eq_ok (h : d.makeDirectory path = .ok e) :
    ∃ l : LastName, d.tree.occupant? l.directory = some .directory ∧
      d.tree.occupant? (l.directory ++ [l.name]) = none ∧ e = d.putEntry l .empty := by
  unfold makeDirectory at h
  dsimp only [bind, Except.bind] at h
  split at h
  · cases h
  split at h
  · cases h
  next l hl =>
  split at h
  · cases h
  next entry he =>
  obtain ⟨-, rfl⟩ := entry?_eq_ok_iff.1 he
  split at h
  · cases h
  · next hnone =>
    cases h
    exact ⟨l, directory_of_lastName hl, by rw [occupant?, hnone, Option.map_none], rfl⟩

theorem grows_makeDirectory (h : d.makeDirectory path = .ok e) : d.Grows e := by
  obtain ⟨l, -, hnone, rfl⟩ := makeDirectory_eq_ok h
  refine ⟨rfl, fun k o ho => occupant?_put_of_ne _ (by simp [hnone]) ?_ ho⟩
  rintro rfl
  cases hnone.symm.trans ho

theorem distinctNames_makeDirectory (ht : d.tree.DistinctNames)
    (h : d.makeDirectory path = .ok e) : e.tree.DistinctNames := by
  obtain ⟨l, -, -, rfl⟩ := makeDirectory_eq_ok h
  exact distinctNames_put ht distinctNames_empty _ _

/-- What holds of a disk and is kept by each new directory holds after creating directories. -/
theorem makeDirectories_induction {P : Disk → Prop}
    (hstep : ∀ d e path, P d → d.makeDirectory path = .ok e → P e) (hd : P d) (absolute : Bool)
    (above parts : List String) : P (d.makeDirectories absolute above parts).2 := by
  induction parts generalizing d above with
  | nil => exact hd
  | cons p ps ih =>
    rw [makeDirectories]
    split
    · exact ih hd _
    · split
      · next e he => exact ih (hstep _ _ _ hd he) _
      · exact hd

theorem makeParents_induction {P : Disk → Prop}
    (hstep : ∀ d e path, P d → d.makeDirectory path = .ok e → P e) (hd : P d) (path : String) :
    P (d.makeParents path).2 := by
  unfold makeParents
  dsimp only
  split
  · exact hd
  · split
    · exact hd
    · exact makeDirectories_induction hstep hd _ _ _

theorem grows_makeParents (d : Disk) (path : String) : d.Grows (d.makeParents path).2 :=
  makeParents_induction (fun _ _ _ hg he => hg.trans (grows_makeDirectory he)) (.refl d) path

theorem distinctNames_makeParents (ht : d.tree.DistinctNames) (path : String) :
    (d.makeParents path).2.tree.DistinctNames :=
  makeParents_induction (fun _ _ _ hd he => distinctNames_makeDirectory hd he) ht path

end Disk

end SaveTree
