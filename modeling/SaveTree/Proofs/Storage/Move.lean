/-
  When a moved file is still there.

  Within an adapter a move renames the file. Between adapters it carries the bytes over and then
  deletes the source, which is taken to be another file because its adapter has another name.
  Two adapters of directories can reach one place of the disk, and then the file is deleted with
  its source: the move goes well and the target is missing.
-/
import SaveTree.Proofs.Storage.Store

namespace SaveTree

namespace Store

variable {s : Store} {source target : FileRef} {bytes : Bytes}

/-- Two files are one place of the disk. -/
def SamePlace (s : Store) (f g : FileRef) : Prop :=
  ∃ a b location, s.adapter f.adapter = .ok a ∧ s.adapter g.adapter = .ok b ∧
    a.location? s.disk f.path = some location ∧ b.location? s.disk g.path = some location

/-- Carrying a file over gives the target its bytes and leaves the other adapters alone. -/
theorem carry_eq_ok (hr : s.readBytes source = .ok bytes)
    (h : (s.carry source target).1 = .ok ()) :
    (s.carry source target).2.readBytes target = .ok bytes ∧
      (s.disk.tree.DistinctNames → (s.carry source target).2.disk.tree.DistinctNames) ∧
      ∀ name, name ≠ target.adapter →
        (s.carry source target).2.adapter name = s.adapter name := by
  unfold carry at h ⊢
  rw [hr] at h ⊢
  cases hb : s.adapter target.adapter with
  | error e =>
    rw [hb] at h
    cases h
  | ok b =>
    rw [hb] at h
    dsimp only at h ⊢
    rw [change_fst hb] at h
    have hadapter : ∀ name,
        (s.change target.adapter fun a d => a.write d target.path bytes).2.adapter name =
          if name = target.adapter then .ok (b.write s.disk target.path bytes).2.1
          else s.adapter name := adapter_change hb (b.write_name ..)
    refine ⟨readBytes_eq_ok_iff.2 ⟨_, (hadapter _).trans (if_pos rfl), ?_⟩, fun ht => ?_,
      fun name hn => (hadapter name).trans (if_neg hn)⟩
    · rw [change_disk hb]
      exact Adapter.read_of_write h
    · rw [change_disk hb]
      exact Adapter.distinctNames_write ht h

/-- The adapters of two files have different names, and once the bytes of the one have been
carried over the files are one place of the disk. -/
def Collide (s : Store) (source target : FileRef) : Prop :=
  source.adapter ≠ target.adapter ∧ (s.carry source target).2.SamePlace source target

/-- Within an adapter a move renames the file, so its bytes are under the target. -/
theorem readBytes_rename {a : Adapter} (ha : s.adapter source.adapter = .ok a)
    (hr : a.read s.disk source.path = .ok bytes) (hsame : source.adapter = target.adapter)
    (h : (s.change source.adapter fun a d => a.move d source.path target.path).1 = .ok ()) :
    (s.change source.adapter fun a d => a.move d source.path target.path).2.readBytes target
      = .ok bytes := by
  rw [change_fst ha] at h
  have hmoved : (s.change source.adapter fun a d => a.move d source.path target.path).2.adapter
      target.adapter = .ok (a.move s.disk source.path target.path).2.1 :=
    (adapter_change ha (a.move_name ..) _).trans (if_pos hsame.symm)
  rw [readBytes_of_adapter hmoved, change_disk ha]
  exact Adapter.read_of_move hr h

/-- Deleting a file leaves a file of another adapter, unless the two are one place of the disk:
then it is missing. -/
theorem readBytes_delete_other {a : Adapter} (ha : s.adapter source.adapter = .ok a)
    (hr : s.readBytes target = .ok bytes) (hother : source.adapter ≠ target.adapter) :
    (¬ s.SamePlace source target →
      (s.change source.adapter fun a d => a.delete d source.path).2.readBytes target
        = .ok bytes) ∧
    (s.SamePlace source target → s.disk.tree.DistinctNames →
      (s.change source.adapter fun a d => a.delete d source.path).2.readBytes target
        = .error (.fileNotFound target.path)) := by
  obtain ⟨b, hb, hbr⟩ := readBytes_eq_ok_iff.1 hr
  have htarget : (s.change source.adapter fun a d => a.delete d source.path).2.adapter
      target.adapter = .ok b :=
    ((adapter_change ha (a.delete_name ..) _).trans (if_neg (Ne.symm hother))).trans hb
  rw [readBytes_of_adapter htarget, change_disk ha]
  constructor
  · intro hplace
    refine Adapter.read_of_delete hbr fun location hl hl' => ?_
    exact hplace ⟨a, b, location, ha, hb, hl, hl'⟩
  · rintro ⟨a', b', location, hfound, hfound', hl, hl'⟩ ht
    cases ha.symm.trans hfound
    cases hb.symm.trans hfound'
    exact Adapter.read_of_delete_same ht hbr hl hl'

/-- After a move that went well the target reads the bytes of the source, unless the two collide:
then the target is missing. -/
theorem readBytes_move (hr : s.readBytes source = .ok bytes)
    (h : (s.move source target).1 = .ok ()) :
    (¬ s.Collide source target → (s.move source target).2.readBytes target = .ok bytes) ∧
    (s.Collide source target → s.disk.tree.DistinctNames →
      (s.move source target).2.readBytes target = .error (.fileNotFound target.path)) := by
  obtain ⟨a, ha, har⟩ := readBytes_eq_ok_iff.1 hr
  unfold move at h ⊢
  rw [announce_fst, ha] at h
  rw [readBytes_announce, ha]
  dsimp only at h ⊢
  split at h
  · next hsame =>
    rw [if_pos hsame]
    exact ⟨fun _ => readBytes_rename ha har hsame h, fun hc => absurd hsame hc.1⟩
  · next hother =>
    rw [if_neg hother]
    cases hcarry : s.carry source target with
    | mk result carried =>
    rw [hcarry] at h
    cases result with
    | error e => cases h
    | ok u =>
    obtain ⟨hread, htree, hkeep⟩ := carry_eq_ok hr (by rw [hcarry])
    rw [hcarry] at hread htree hkeep
    have hiff : s.Collide source target ↔ carried.SamePlace source target := by
      rw [Collide, hcarry]
      exact and_iff_right hother
    obtain ⟨hstays, hlost⟩ := readBytes_delete_other ((hkeep _ hother).trans ha) hread hother
    rw [hiff]
    exact ⟨hstays, fun hplace ht => hlost hplace (htree ht)⟩

/-- The adapter of the directory of saves under a name of its own. -/
def savesAdapter (name : String) : Adapter := .ofDirectory ⟨name, "Saves", ".save", 0⟩

/-- Two adapters of one directory, and a file that was written through the first. -/
def twins : Store :=
  ⟨[savesAdapter "a", savesAdapter "b"],
    ⟨.directory [("work", .directory [("Saves", .directory [("x.save", .file [1])])])], ["work"]⟩,
    [], []⟩

theorem distinctNames_twins : twins.disk.tree.DistinctNames := by
  have single : ∀ (name : String) (c : FileTree), c.DistinctNames →
      (FileTree.directory [(name, c)]).DistinctNames := by
    intro name c hc
    refine FileTree.distinctNames_directory_iff.2 ⟨by simp, fun k d h => ?_⟩
    rw [Fields.get?_cons] at h
    split at h
    · cases h
      exact hc
    · cases h
  exact single _ _ (single _ _ (single _ _ (FileTree.distinctNames_file _)))

theorem collide_twins : twins.Collide ⟨"a", "x"⟩ ⟨"b", "x"⟩ := by
  refine ⟨by decide, savesAdapter "a", savesAdapter "b", ["work", "Saves", "x.save"], rfl, rfl,
    ?_, ?_⟩
  · decide +kernel
  · decide +kernel

theorem readBytes_move_twins :
    (twins.move ⟨"a", "x"⟩ ⟨"a", "y"⟩).2.readBytes ⟨"a", "y"⟩ = .ok [1] ∧
      (twins.move ⟨"a", "x"⟩ ⟨"b", "x"⟩).2.readBytes ⟨"b", "x"⟩ = .error (.fileNotFound "x") := by
  have hr : twins.readBytes ⟨"a", "x"⟩ = .ok [1] := rfl
  have hkept : (twins.move ⟨"a", "x"⟩ ⟨"a", "y"⟩).1 = .ok () := rfl
  have hlost : (twins.move ⟨"a", "x"⟩ ⟨"b", "x"⟩).1 = .ok () := rfl
  exact ⟨(readBytes_move hr hkept).1 fun hc => hc.1 rfl,
    (readBytes_move hr hlost).2 collide_twins distinctNames_twins⟩

/-- A move can go well and lose the file. -/
theorem not_forall_readBytes_move : ¬ ∀ (s : Store) (source target : FileRef) (bytes : Bytes),
    s.readBytes source = .ok bytes → (s.move source target).1 = .ok () →
      (s.move source target).2.readBytes target = .ok bytes := by
  intro h
  have hlost : (twins.move ⟨"a", "x"⟩ ⟨"b", "x"⟩).2.readBytes ⟨"b", "x"⟩
      = .error (.fileNotFound "x") := rfl
  cases hlost.symm.trans (h twins ⟨"a", "x"⟩ ⟨"b", "x"⟩ [1] rfl rfl)

end Store

end SaveTree
