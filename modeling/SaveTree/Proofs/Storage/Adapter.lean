/-
  What the operations of an adapter do.

  Of an adapter in memory each operation is an operation on a finite map of paths. Of a directory
  it works on the file that the settings give to a path, after the directories above a target
  have been created. In both, a file that is written or moved to a path can be read there, and the
  adapter keeps its name.
-/
import SaveTree.Proofs.Storage.Disk
import SaveTree.Storage.Adapter

namespace SaveTree

/-! ## Files in memory -/

namespace Files

variable {path other : String}

theorem get?_cons (p : String) (b : Bytes) (fs : Files) (path : String) :
    get? ((p, b) :: fs) path = if p = path then some b else get? fs path := by
  unfold get?
  rw [List.lookup_cons]
  by_cases h : p = path
  · rw [if_pos h, beq_iff_eq.2 h.symm]
  · rw [if_neg h, beq_false_of_ne (Ne.symm h)]

theorem get?_insert (fs : Files) (path : String) (bytes : Bytes) (other : String) :
    (fs.insert path bytes).get? other = if path = other then some bytes else fs.get? other := by
  induction fs with
  | nil => rw [insert, get?_cons]
  | cons f fs ih =>
    obtain ⟨p, b⟩ := f
    unfold insert
    split
    · rw [get?_cons]
    split
    · next hp =>
      rw [get?_cons, get?_cons, hp]
      split <;> rfl
    · next hp =>
      rw [get?_cons, get?_cons, ih]
      split
      · next ho => rw [if_neg (fun h => hp (ho.trans h.symm))]
      · rfl

theorem erase_cons (p : String) (b : Bytes) (fs : Files) (path : String) :
    erase ((p, b) :: fs) path = if p = path then erase fs path else (p, b) :: erase fs path := by
  unfold erase
  rw [List.filter_cons]
  by_cases h : p = path <;> simp [h]

theorem get?_erase (fs : Files) (path other : String) :
    (fs.erase path).get? other = if path = other then none else fs.get? other := by
  induction fs with
  | nil => exact (ite_self none).symm
  | cons f fs ih =>
    obtain ⟨p, b⟩ := f
    rw [erase_cons, get?_cons]
    split
    · next hp =>
      rw [ih, hp]
      split <;> rfl
    · next hp =>
      rw [get?_cons, ih]
      split
      · next ho => rw [if_neg (fun h => hp (ho.trans h.symm))]
      · rfl

end Files

/-! ## Files of a directory -/

theorem mapError_eq_ok_iff {ε δ α : Type} {x : Except ε α} {g : ε → δ} {a : α} :
    x.mapError g = .ok a ↔ x = .ok a := by
  constructor
  all_goals
    intro h
    cases x <;> cases h
    rfl

theorem mapError_eq_error_iff {ε δ α : Type} {x : Except ε α} {g : ε → δ} {e : δ} :
    x.mapError g = .error e ↔ ∃ fault, x = .error fault ∧ g fault = e := by
  cases x <;> simp [Except.mapError]

namespace DirectoryConfig

variable {c : DirectoryConfig} {d e : Disk} {path destination : String} {bytes : Bytes}

theorem read_eq_ok_iff : c.read d path = .ok bytes ↔ d.read (c.filePath path) = .ok bytes := by
  unfold read
  exact mapError_eq_ok_iff

/-- An operation on a target works on a disk that has grown by the directories above it. -/
theorem withParents_eq_ok {target : String} {action : FileAction}
    {operation : Disk → Except DiskFault Unit × Disk}
    (h : withParents d target action path operation = (.ok (), e)) :
    operation (d.makeParents target).2 = (.ok (), e) := by
  unfold withParents at h
  split at h
  · cases h
  · next grown hg =>
    rw [hg]
    obtain ⟨hresult, rfl⟩ := Prod.mk.inj h
    exact Prod.ext (mapError_eq_ok_iff.1 hresult) rfl

theorem write_eq_ok (h : c.write d path bytes = (.ok (), e)) :
    (d.makeParents (c.filePath path)).2.write (c.filePath path) bytes = .ok e :=
  Disk.attempt_eq_ok_iff.1 (withParents_eq_ok h)

theorem move_eq_ok (h : c.move d path destination = (.ok (), e)) :
    (d.makeParents (c.filePath destination)).2.rename (c.filePath path) (c.filePath destination) =
      .ok e :=
  Disk.attempt_eq_ok_iff.1 (withParents_eq_ok h)

theorem read_of_write (h : c.write d path bytes = (.ok (), e)) : c.read e path = .ok bytes :=
  read_eq_ok_iff.2 (Disk.read_of_write (write_eq_ok h))

theorem read_of_move (hr : c.read d path = .ok bytes)
    (h : c.move d path destination = (.ok (), e)) : c.read e destination = .ok bytes := by
  have hm := move_eq_ok h
  have hg := Disk.grows_makeParents d (c.filePath destination)
  obtain ⟨directory, name, hl, hf⟩ := Disk.read_eq_ok_iff.1 (read_eq_ok_iff.1 hr)
  exact read_eq_ok_iff.2 (Disk.read_of_rename
    (Disk.read_eq_ok_iff.2 ⟨directory, name, hg.leads hl, hg.stands _ _ hf⟩) hm)

theorem distinctNames_write (ht : d.tree.DistinctNames)
    (h : c.write d path bytes = (.ok (), e)) : e.tree.DistinctNames :=
  Disk.distinctNames_write (Disk.distinctNames_makeParents ht _) (write_eq_ok h)

/-- Deleting either removes the file or leaves the disk as it is. -/
theorem delete_cases (c : DirectoryConfig) (d : Disk) (path : String) :
    (∃ e, d.remove (c.filePath path) = .ok e ∧ c.delete d path = (.ok (), e)) ∨
      (∃ fault, d.remove (c.filePath path) = .error fault) ∧ (c.delete d path).2 = d := by
  unfold delete
  cases hr : d.remove (c.filePath path) with
  | ok e => exact .inl ⟨e, rfl, rfl⟩
  | error fault => cases fault <;> exact .inr ⟨⟨_, rfl⟩, rfl⟩

end DirectoryConfig

/-! ## Adapters -/

namespace Adapter

variable {a b : Adapter} {d e : Disk} {path destination : String} {bytes : Bytes}

theorem write_name (a : Adapter) (d : Disk) (path : String) (bytes : Bytes) :
    (a.write d path bytes).2.1.name = a.name := by
  unfold write
  split <;> rfl

theorem move_name (a : Adapter) (d : Disk) (path destination : String) :
    (a.move d path destination).2.1.name = a.name := by
  unfold move
  split
  · split <;> rfl
  · rfl

theorem copy_name (a : Adapter) (d : Disk) (path destination : String) :
    (a.copy d path destination).2.1.name = a.name := by
  unfold copy
  split
  · split <;> rfl
  · rfl

theorem delete_name (a : Adapter) (d : Disk) (path : String) :
    (a.delete d path).2.1.name = a.name := by
  unfold delete
  split <;> rfl

/-! ## Adapters in memory -/

section Memory

variable {files : Files}

theorem holding_self (h : a.backing = .memory files) : a.holding files = a := by
  rw [holding, ← h]

theorem read_eq_ok_iff_of_memory (h : a.backing = .memory files) :
    a.read d path = .ok bytes ↔ files.get? path = some bytes := by
  unfold read
  rw [h]
  dsimp only
  cases files.get? path <;> simp

theorem exists?_of_memory (h : a.backing = .memory files) (d : Disk) (path : String) :
    a.exists? d path = (files.get? path).isSome := by
  rw [exists?, h]

theorem write_of_memory (h : a.backing = .memory files) (d : Disk) (path : String)
    (bytes : Bytes) : a.write d path bytes = (.ok (), a.holding (files.insert path bytes), d) := by
  rw [write, h]

theorem delete_of_memory (h : a.backing = .memory files) (d : Disk) (path : String) :
    a.delete d path = (.ok (), a.holding (files.erase path), d) := by
  rw [delete, h]

theorem copy_of_memory (h : a.backing = .memory files) (hb : files.get? path = some bytes)
    (d : Disk) (destination : String) :
    a.copy d path destination = (.ok (), a.holding (files.insert destination bytes), d) := by
  rw [copy, h]
  dsimp only
  rw [hb]

theorem copy_of_missing (h : a.backing = .memory files) (hb : files.get? path = none) (d : Disk)
    (destination : String) :
    a.copy d path destination = (.error (.fileNotFound path), a.holding files, d) := by
  rw [copy, h, holding_self h]
  dsimp only
  rw [hb]

theorem move_of_memory (h : a.backing = .memory files) (hb : files.get? path = some bytes)
    (d : Disk) (destination : String) :
    a.move d path destination =
      (.ok (), a.holding ((files.erase path).insert destination bytes), d) := by
  rw [move, h]
  dsimp only
  rw [hb]

theorem move_of_missing (h : a.backing = .memory files) (hb : files.get? path = none) (d : Disk)
    (destination : String) :
    a.move d path destination = (.error (.fileNotFound path), a.holding files, d) := by
  rw [move, h, holding_self h]
  dsimp only
  rw [hb]

end Memory

/-! ## Reading what was written or moved -/

theorem read_of_directory {c : DirectoryConfig} (h : a.backing = .directory c) (d : Disk)
    (path : String) : a.read d path = c.read d path := by
  unfold read
  rw [h]

/-- What is written to a file is read from it. -/
theorem read_of_write (h : (a.write d path bytes).1 = .ok ()) :
    (a.write d path bytes).2.1.read (a.write d path bytes).2.2 path = .ok bytes := by
  unfold write at h ⊢
  split
  · rw [read_eq_ok_iff_of_memory rfl, Files.get?_insert, if_pos rfl]
  · next c hc =>
    rw [hc] at h
    rw [read_of_directory hc]
    exact DirectoryConfig.read_of_write (Prod.ext h rfl)

/-- A file that is moved is read under its new path. -/
theorem read_of_move (hr : a.read d path = .ok bytes)
    (h : (a.move d path destination).1 = .ok ()) :
    (a.move d path destination).2.1.read (a.move d path destination).2.2 destination
      = .ok bytes := by
  unfold move at h ⊢
  split
  · next files hm =>
    rw [read_eq_ok_iff_of_memory hm] at hr
    rw [hr]
    dsimp only
    rw [read_eq_ok_iff_of_memory rfl, Files.get?_insert, if_pos rfl]
  · next c hc =>
    rw [hc] at h
    rw [read_of_directory hc] at hr ⊢
    exact DirectoryConfig.read_of_move hr (Prod.ext h rfl)

theorem distinctNames_write (ht : d.tree.DistinctNames) (h : (a.write d path bytes).1 = .ok ()) :
    (a.write d path bytes).2.2.tree.DistinctNames := by
  unfold write at h ⊢
  split
  · exact ht
  · next c hc =>
    rw [hc] at h
    exact DirectoryConfig.distinctNames_write ht (Prod.ext h rfl)

/-! ## Places on the disk -/

/-- The location of a file on the disk; none if the adapter keeps its files in memory. -/
def location? (a : Adapter) (d : Disk) (path : String) : Option (List String) :=
  match a.backing with
  | .memory _ => none
  | .directory c => (d.locate (c.filePath path)).toOption

theorem location?_eq_some_iff {location : List String} : a.location? d path = some location ↔
    ∃ c, a.backing = .directory c ∧ d.locate (c.filePath path) = .ok location := by
  unfold location?
  cases a.backing with
  | memory files => simp
  | directory c => cases hl : d.locate (c.filePath path) <;> simp [Except.toOption, hl]

/-- A file stays when a file at another place is deleted. -/
theorem read_of_delete (hr : b.read d destination = .ok bytes)
    (hne : ∀ location, a.location? d path = some location →
      b.location? d destination ≠ some location) :
    b.read (a.delete d path).2.2 destination = .ok bytes := by
  unfold delete
  cases hb : b.backing with
  | memory files =>
    rw [read_eq_ok_iff_of_memory hb] at hr ⊢
    exact hr
  | directory c' =>
    rw [read_of_directory hb, DirectoryConfig.read_eq_ok_iff] at hr ⊢
    cases ha : a.backing with
    | memory files => exact hr
    | directory c =>
      dsimp only
      rcases DirectoryConfig.delete_cases c d path with ⟨e, hremove, he⟩ | ⟨-, he⟩
      · rw [he]
        obtain ⟨above, last, bytes', hl, hf, rfl⟩ := Disk.remove_eq_ok_iff.1 hremove
        obtain ⟨directory, name, hl', hf'⟩ := Disk.read_eq_ok_iff.1 hr
        have hfile : d.tree.occupant? (above ++ [last]) ≠ some .directory := by simp [hf]
        have hkept := Disk.keepsBut_drop hfile false
        refine Disk.read_eq_ok_iff.2 ⟨directory, name, hkept.leads hl', hkept.stands _ _ ?_ hf'⟩
        intro heq
        refine hne (above ++ [last]) (location?_eq_some_iff.2 ⟨c, ha, ?_⟩)
          (location?_eq_some_iff.2 ⟨c', hb, ?_⟩)
        · exact Disk.locate_of_leads hl (by simp [hf])
        · rw [← heq]
          exact Disk.locate_of_leads hl' (by simp [hf'])
      · rw [he]
        exact hr

/-- A file is lost when the file at its place is deleted. -/
theorem read_of_delete_same (ht : d.tree.DistinctNames) (hr : b.read d destination = .ok bytes)
    {location : List String} (ha : a.location? d path = some location)
    (hb : b.location? d destination = some location) :
    b.read (a.delete d path).2.2 destination = .error (.fileNotFound destination) := by
  obtain ⟨c, hc, hlocate⟩ := location?_eq_some_iff.1 ha
  obtain ⟨c', hc', hlocate'⟩ := location?_eq_some_iff.1 hb
  rw [read_of_directory hc', DirectoryConfig.read_eq_ok_iff] at hr
  obtain ⟨directory, name, hl', hf⟩ := Disk.read_eq_ok_iff.1 hr
  have hplace : location = directory ++ [name] :=
    Except.ok.inj (hlocate'.symm.trans (Disk.locate_of_leads hl' (by simp [hf])))
  obtain ⟨above, last, hl, hsame⟩ :=
    Disk.exists_leads_of_locate hlocate (hplace ▸ hf)
  obtain ⟨rfl, hlast⟩ := List.append_inj' (hplace.symm.trans hsame) rfl
  cases hlast
  have hremove := Disk.remove_eq_ok_iff.2 ⟨directory, name, bytes, hl, hf, rfl⟩
  unfold delete
  rw [hc, read_of_directory hc']
  dsimp only
  rw [DirectoryConfig.delete, hremove]
  dsimp only
  rw [DirectoryConfig.read, Disk.read_dropEntry ht hl' (by simp [hf])]
  rfl

end Adapter

end SaveTree
