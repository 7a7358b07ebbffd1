/-
  What a failed operation leaves.

  Directories are created before a file is touched, and each exit of an operation comes before the
  first change of a file. Two operations change a file and could still fail: a copy has emptied its
  target once both files are open, but then the source is still a file (`copy_of_open`), and a move
  between adapters has written its target, but then the source can be deleted, because it was read
  (`delete_of_readBytes`). So an operation that ends with an error leaves every file as it was and
  tells nobody of it.
-/
import SaveTree.Proofs.Storage.Copy

namespace SaveTree

/-! ## The disk -/

namespace Disk

open FileTree

variable {d e : Disk} {path source target : String} {location : List String} {bytes : Bytes}

/-- Every file is as it was and all that stood still stands. -/
structure Spares (d e : Disk) : Prop where
  grows : d.Grows e
  files : ∀ location, e.tree.bytesAt? location = d.tree.bytesAt? location

theorem Spares.refl (d : Disk) : d.Spares d := ⟨.refl d, fun _ => rfl⟩

theorem spares_makeParents (d : Disk) (path : String) : d.Spares (d.makeParents path).2 :=
  ⟨grows_makeParents d path, bytesAt?_makeParents d path⟩

theorem Spares.read (h : d.Spares e) (hr : d.read path = .ok bytes) : e.read path = .ok bytes := by
  obtain ⟨location, hl, hf⟩ := read_eq_ok_iff_bytesAt?.1 hr
  exact read_eq_ok_iff_bytesAt?.2
    ⟨location, h.grows.finds path location bytes hl hf, (h.files location).trans hf⟩

/-- Only directories can be new. -/
theorem Spares.new (h : d.Spares e)
    (hne : e.tree.occupant? location ≠ d.tree.occupant? location) :
    d.tree.occupant? location = none ∧ e.tree.occupant? location = some .directory := by
  have hnone : d.tree.occupant? location = none := by
    cases hd : d.tree.occupant? location with
    | none => rfl
    | some o => exact absurd ((h.grows.stands location o hd).trans hd.symm) hne
  refine ⟨hnone, ?_⟩
  cases he : e.tree.occupant? location with
  | none => exact absurd (he.trans hnone.symm) hne
  | some o =>
    cases o with
    | directory => rfl
    | file bytes =>
      have hf := (h.files location).symm.trans (bytesAt?_eq_some_iff.2 he)
      cases hnone.symm.trans (bytesAt?_eq_some_iff.1 hf)

/-- Once both its files are open, a copy goes well. -/
theorem copy_of_open {l : LastName} (ho : d.openForCopy source target = .ok (location, l)) :
    ∃ e, d.copy source target = (.ok (), e) := by
  obtain ⟨-, ⟨bytes, hf⟩, ht⟩ := openForCopy_eq_ok_iff.1 ho
  obtain ⟨hleads, -, hd⟩ := openForWriting_eq_ok_iff.1 ht
  -- the source is still a file after the target is emptied, whether or not it is the target
  have hstill : ∃ kept, (d.putEntry l (.file [])).tree.bytesAt? location = some kept := by
    by_cases hsame : location = l.directory ++ [l.name]
    · exact ⟨[], bytesAt?_eq_some_iff.2 (hsame ▸ occupant?_put_self hleads.2.1 (.file []))⟩
    · have hkept := (keepsBut_put hd (.file []) l.slashed).stands location (.file bytes) hsame
        (bytesAt?_eq_some_iff.1 hf)
      exact ⟨bytes, bytesAt?_eq_some_iff.2 hkept⟩
  obtain ⟨kept, hkept⟩ := hstill
  exact ⟨_, copy_eq_ok_iff.2 ⟨location, l, kept, ho, hkept, rfl⟩⟩

/-- A copy that fails has not emptied its target. -/
theorem copy_of_error {fault : DiskFault} (h : (d.copy source target).1 = .error fault) :
    (d.copy source target).2 = d := by
  match ho : d.openForCopy source target with
  | .error fault =>
    unfold copy
    rw [ho]
  | .ok (location, l) =>
    obtain ⟨e, hcopied⟩ := copy_of_open ho
    rw [hcopied] at h
    cases h

/-- A file that can be read can be removed. -/
theorem exists_remove (hr : d.read path = .ok bytes) : ∃ e, d.remove path = .ok e := by
  obtain ⟨directory, name, hl, hf⟩ := read_eq_ok_iff.1 hr
  exact ⟨_, remove_eq_ok_iff.2 ⟨directory, name, bytes, hl, hf, rfl⟩⟩

end Disk

/-! ## Adapters -/

namespace DirectoryConfig

variable {c : DirectoryConfig} {d : Disk} {path destination : String} {bytes : Bytes} {e : Error}

/-- If the operation changes nothing where it fails, directories are all that can be new. -/
theorem spares_withParents {target : String} {action : FileAction}
    {operation : Disk → Except DiskFault Unit × Disk}
    (ho : ∀ grown fault, (operation grown).1 = .error fault → (operation grown).2 = grown)
    (h : (withParents d target action path operation).1 = .error e) :
    d.Spares (withParents d target action path operation).2 := by
  have hgrown := Disk.spares_makeParents d target
  unfold withParents at h ⊢
  match hm : d.makeParents target with
  | (.error fault, grown) =>
    rw [hm] at hgrown
    exact hgrown
  | (.ok (), grown) =>
    rw [hm] at h hgrown
    obtain ⟨fault, hfault, -⟩ := mapError_eq_error_iff.1 h
    show d.Spares (operation grown).2
    rw [ho grown fault hfault]
    exact hgrown

theorem spares_write (h : (c.write d path bytes).1 = .error e) :
    d.Spares (c.write d path bytes).2 :=
  spares_withParents (fun _ _ => Disk.attempt_of_error) h

theorem spares_move (h : (c.move d path destination).1 = .error e) :
    d.Spares (c.move d path destination).2 :=
  spares_withParents (fun _ _ => Disk.attempt_of_error) h

theorem spares_copy (h : (c.copy d path destination).1 = .error e) :
    d.Spares (c.copy d path destination).2 := by
  unfold copy at h ⊢
  split at h
  · next hsame =>
    rw [if_pos hsame]
    exact .refl d
  · next hne =>
    rw [if_neg hne]
    exact spares_withParents (fun _ _ => Disk.copy_of_error) h

theorem spares_delete (h : (c.delete d path).1 = .error e) : d.Spares (c.delete d path).2 := by
  obtain ⟨after, -, hdelete⟩ | ⟨-, hsame⟩ := c.delete_cases d path
  · rw [hdelete] at h
    cases h
  · rw [hsame]
    exact .refl d

theorem delete_of_read (hr : c.read d path = .ok bytes) : (c.delete d path).1 = .ok () := by
  obtain ⟨after, hremove⟩ := Disk.exists_remove (read_eq_ok_iff.1 hr)
  unfold delete
  rw [hremove]

end DirectoryConfig

namespace Adapter

variable {a : Adapter} {d e : Disk} {path destination : String} {bytes : Bytes}

/-- If the operation fails, it leaves the adapter and all files of the disk as they were. -/
def Careful (a : Adapter) (d : Disk) (outcome : Outcome) : Prop :=
  ∀ e, outcome.1 = .error e → outcome.2.1 = a ∧ d.Spares outcome.2.2

theorem careful_write (a : Adapter) (d : Disk) (path : String) (bytes : Bytes) :
    a.Careful d (a.write d path bytes) := by
  intro e h
  unfold write at h ⊢
  match hb : a.backing with
  | .memory files =>
    rw [hb] at h
    cases h
  | .directory c =>
    rw [hb] at h
    exact ⟨rfl, DirectoryConfig.spares_write h⟩

theorem careful_move (a : Adapter) (d : Disk) (path destination : String) :
    a.Careful d (a.move d path destination) := by
  intro e h
  unfold move at h ⊢
  match hb : a.backing with
  | .memory files =>
    rw [hb] at h
    dsimp only at h ⊢
    match hf : files.get? path with
    | some bytes =>
      rw [hf] at h
      cases h
    | none => exact ⟨rfl, .refl d⟩
  | .directory c =>
    rw [hb] at h
    exact ⟨rfl, DirectoryConfig.spares_move h⟩

theorem careful_copy (a : Adapter) (d : Disk) (path destination : String) :
    a.Careful d (a.copy d path destination) := by
  intro e h
  unfold copy at h ⊢
  match hb : a.backing with
  | .memory files =>
    rw [hb] at h
    dsimp only at h ⊢
    match hf : files.get? path with
    | some bytes =>
      rw [hf] at h
      cases h
    | none => exact ⟨rfl, .refl d⟩
  | .directory c =>
    rw [hb] at h
    exact ⟨rfl, DirectoryConfig.spares_copy h⟩

theorem careful_delete (a : Adapter) (d : Disk) (path : String) :
    a.Careful d (a.delete d path) := by
  intro e h
  unfold delete at h ⊢
  match hb : a.backing with
  | .memory files =>
    rw [hb] at h
    cases h
  | .directory c =>
    rw [hb] at h
    exact ⟨rfl, DirectoryConfig.spares_delete h⟩

theorem delete_of_read (hr : a.read d path = .ok bytes) : (a.delete d path).1 = .ok () := by
  unfold delete
  match hb : a.backing with
  | .memory files => rfl
  | .directory c =>
    rw [read_of_directory hb] at hr
    exact DirectoryConfig.delete_of_read hr

theorem read_of_spares (h : d.Spares e) (hr : a.read d path = .ok bytes) :
    a.read e path = .ok bytes := by
  match hb : a.backing with
  | .memory files =>
    rw [read_eq_ok_iff_of_memory hb] at hr ⊢
    exact hr
  | .directory c =>
    rw [read_of_directory hb, DirectoryConfig.read_eq_ok_iff] at hr ⊢
    exact h.read hr

end Adapter

/-! ## The store -/

namespace Store

variable {s t : Store} {a : Adapter} {name : String} {f source target : FileRef} {bytes : Bytes}
  {operation : Adapter → Disk → Adapter.Outcome}

/-- Nobody was told of anything, the adapters are as they were, and so are all files of the disk. -/
structure Untouched (s t : Store) : Prop where
  told : t.told = s.told
  adapters : t.adapters = s.adapters
  disk : s.disk.Spares t.disk

theorem Untouched.refl (s : Store) : s.Untouched s := ⟨rfl, rfl, .refl s.disk⟩

theorem Untouched.bytesAt? (h : s.Untouched t) (p : Place) : t.bytesAt? p = s.bytesAt? p := by
  match p with
  | .memory i path => rw [Store.bytesAt?, Store.bytesAt?, h.adapters]
  | .disk location => exact h.disk.files location

/-- If the operation fails, it leaves the store untouched. -/
def Careful {α : Type} (s : Store) (r : Except Error α × Store) : Prop :=
  ∀ e, r.1 = .error e → s.Untouched r.2

theorem careful_error {α : Type} (s : Store) (e : Error) :
    s.Careful ((.error e, s) : Except Error α × Store) := fun _ _ => .refl s

theorem careful_announce (event : Event) {r : Except Error Unit × Store} (h : s.Careful r) :
    s.Careful (announce event r) := by
  match r with
  | (.ok (), after) => exact nofun
  | (.error e, after) => exact h

theorem careful_change (h : ∀ a, s.adapter name = .ok a → a.Careful s.disk (operation a s.disk)) :
    s.Careful (s.change name operation) := by
  match ha : s.adapter name with
  | .error e =>
    rw [change_of_error ha]
    exact careful_error s e
  | .ok a =>
    intro e he
    rw [change_fst ha] at he
    obtain ⟨hsame, hdisk⟩ := h a ha e he
    rw [change_snd ha, hsame]
    refine ⟨rfl, replaceFirst_of_find? ?_, hdisk⟩
    rw [name_of_adapter ha]
    exact adapter_eq_ok_iff.1 ha

theorem careful_write (s : Store) (f : FileRef) (tree : State) : s.Careful (s.write f tree) := by
  unfold write
  match s.adapter f.adapter, encode tree with
  | .error e, _ => exact careful_error s e
  | .ok _, .error e => exact careful_error s e
  | .ok _, .ok data =>
    exact careful_announce _ (careful_change fun a _ => a.careful_write s.disk f.path data)

theorem careful_read (s : Store) (type : TypeName) (f : FileRef) :
    s.Careful (s.read type f) := by
  unfold read
  match s.readBytes f >>= decode with
  | .error e => exact careful_error s e
  | .ok tree =>
    dsimp only
    match tree.cast type with
    | none => exact careful_error s _
    | some found => exact nofun

theorem careful_carry (s : Store) (source target : FileRef) :
    s.Careful (s.carry source target) := by
  unfold carry
  match s.adapter target.adapter, s.readBytes source with
  | .error e, _ => exact careful_error s e
  | .ok _, .error e => exact careful_error s e
  | .ok _, .ok data => exact careful_change fun a _ => a.careful_write s.disk target.path data

/-- A file that was carried over was there to be read. -/
theorem exists_readBytes_of_carry (h : (s.carry source target).1 = .ok ()) :
    ∃ bytes, s.readBytes source = .ok bytes := by
  unfold carry at h
  match ha : s.adapter target.adapter, hr : s.readBytes source with
  | .error e, _ => rw [ha] at h; cases h
  | .ok _, .error e => rw [ha, hr] at h; cases h
  | .ok _, .ok data => exact ⟨data, rfl⟩

theorem delete_of_readBytes (hr : s.readBytes f = .ok bytes) :
    (s.change f.adapter fun a d => a.delete d f.path).1 = .ok () := by
  obtain ⟨a, ha, har⟩ := readBytes_eq_ok_iff.1 hr
  rw [change_fst ha]
  exact Adapter.delete_of_read har

/-- A move between adapters fails before it has written, since the source can be deleted after it:
the file is found where it was, even if it was written over itself. -/
theorem careful_move (s : Store) (source target : FileRef) : s.Careful (s.move source target) := by
  unfold move
  refine careful_announce _ ?_
  match s.adapter source.adapter with
  | .error e => exact careful_error s e
  | .ok _ =>
    dsimp only
    split
    · exact careful_change fun a _ => a.careful_move s.disk source.path target.path
    · have hcarry := careful_carry s source target
      match hc : s.carry source target with
      | (.error e, after) =>
        rw [hc] at hcarry
        exact hcarry
      | (.ok (), after) =>
        obtain ⟨bytes, hr⟩ := exists_readBytes_of_carry (by rw [hc])
        have hputs := puts_carry hr (by rw [hc])
        rw [hc] at hputs
        obtain ⟨-, hother, hsame⟩ := hputs.readBytes hr
        have hstill : after.readBytes source = .ok bytes := by
          by_cases hplace : after.place? source = after.place? target
          · exact hsame hplace
          · exact hother hplace
        intro e he
        cases (delete_of_readBytes hstill).symm.trans he

theorem careful_copy (s : Store) (source target : FileRef) : s.Careful (s.copy source target) := by
  unfold copy
  refine careful_announce _ ?_
  match s.adapter source.adapter with
  | .error e => exact careful_error s e
  | .ok _ =>
    dsimp only
    split
    · exact careful_change fun a _ => a.careful_copy s.disk source.path target.path
    · exact careful_carry s source target

theorem careful_delete (s : Store) (f : FileRef) : s.Careful (s.delete f) :=
  careful_announce _ (careful_change fun a _ => a.careful_delete s.disk f.path)

/-- An operation on a store ended with an error and left another store. -/
inductive Fails (s : Store) (e : Error) : Store → Prop
  | write {f : FileRef} {tree : State} (h : (s.write f tree).1 = .error e) :
      Fails s e (s.write f tree).2
  | writeFrom {context α : Type} [Persistable context α] {f : FileRef} {ctx : context} {x : α}
      (h : (s.writeFrom f ctx x).1 = .error e) : Fails s e (s.writeFrom f ctx x).2
  | read {type : TypeName} {f : FileRef} (h : (s.read type f).1 = .error e) :
      Fails s e (s.read type f).2
  | move {source target : FileRef} (h : (s.move source target).1 = .error e) :
      Fails s e (s.move source target).2
  | copy {source target : FileRef} (h : (s.copy source target).1 = .error e) :
      Fails s e (s.copy source target).2
  | delete {f : FileRef} (h : (s.delete f).1 = .error e) : Fails s e (s.delete f).2

theorem Fails.untouched {e : Error} (h : s.Fails e t) : s.Untouched t := by
  cases h with
  | write h => exact careful_write s _ _ e h
  | writeFrom h => exact careful_write s _ _ e h
  | read h => exact careful_read s _ _ e h
  | move h => exact careful_move s _ _ e h
  | copy h => exact careful_copy s _ _ e h
  | delete h => exact careful_delete s _ e h

/-- An operation that fails tells nobody, leaves the bytes at every place as they were, and each
adapter still reads what it has read. On the disk nothing is new but directories. -/
theorem files_of_fails {e : Error} (h : s.Fails e t) :
    t.told = s.told ∧ t.adapters = s.adapters ∧ (∀ p, t.bytesAt? p = s.bytesAt? p) ∧
    (∀ a ∈ s.adapters, ∀ path bytes, a.read s.disk path = .ok bytes →
      a.read t.disk path = .ok bytes) ∧
    ∀ location, t.disk.tree.occupant? location ≠ s.disk.tree.occupant? location →
      s.disk.tree.occupant? location = none ∧
        t.disk.tree.occupant? location = some .directory := by
  have hkept := h.untouched
  refine ⟨hkept.told, hkept.adapters, hkept.bytesAt?, ?_, fun location hne => hkept.disk.new hne⟩
  intro a _ path bytes hr
  exact Adapter.read_of_spares hkept.disk hr

theorem files_of_fails_nestedStore :
    (nestedStore.move ⟨"a", "gone"⟩ ⟨"a", "new/x"⟩).1 = .error (.fileNotFound "gone") ∧
    (nestedStore.move ⟨"a", "gone"⟩ ⟨"a", "new/x"⟩).2.disk.isDirectory "Saves/new" = true ∧
    (nestedStore.move ⟨"a", "gone"⟩ ⟨"a", "new/x"⟩).2.bytesAt?
      (.disk ["work", "Saves", "s", "a.save"]) = some [1] ∧
    (nestedStore.move ⟨"a", "gone"⟩ ⟨"a", "new/x"⟩).2.told = [] := by
  have hfails : nestedStore.Fails (.fileNotFound "gone")
      (nestedStore.move ⟨"a", "gone"⟩ ⟨"a", "new/x"⟩).2 := .move rfl
  obtain ⟨htold, -, hbytes, -, -⟩ := files_of_fails hfails
  exact ⟨rfl, by decide +kernel, (hbytes _).trans rfl, htold⟩

end Store

end SaveTree
