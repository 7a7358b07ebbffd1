/-
  What a copy leaves.

  Between adapters a copy reads the source and then writes the target, so both hold its bytes even
  if they are one file. Within a directory the target is emptied before the bytes are carried
  over, and only a copy onto the same path text is recognised as one onto itself. A path text that
  leads to the source in another way empties the file.
-/
import SaveTree.Proofs.Storage.Places

namespace SaveTree

namespace Disk

/-- A file that stays where it is and as it is. -/
theorem puts_self {d : Disk} {path : String} {bytes : Bytes} (h : d.read path = .ok bytes) :
    d.Puts d path bytes := by
  obtain ⟨location, hl, hf⟩ := read_eq_ok_iff_bytesAt?.1 h
  exact ⟨⟨location, hl, hf, fun _ _ => rfl⟩, fun _ _ _ hp _ => hp⟩

end Disk

namespace DirectoryConfig

variable {c : DirectoryConfig} {d e : Disk} {path destination : String} {bytes : Bytes}

theorem puts_write (h : c.write d path bytes = (.ok (), e)) :
    d.Puts e (c.filePath path) bytes :=
  (Disk.puts_write (write_eq_ok h)).of_makeParents

/-- A copy to another path text leaves the bytes, or nothing if that leads to the file itself. -/
theorem puts_copy (hr : c.read d path = .ok bytes)
    (h : c.copy d path destination = (.ok (), e)) :
    ∃ kept, d.Puts e (c.filePath destination) kept ∧
      (path = destination ∨ e.locate (c.filePath destination) ≠ e.locate (c.filePath path) →
        kept = bytes) ∧
      (path ≠ destination → e.locate (c.filePath destination) = e.locate (c.filePath path) →
        kept = []) := by
  have hread := read_eq_ok_iff.1 hr
  unfold copy at h
  split at h
  · next hsame =>
    obtain rfl : d = e := congrArg Prod.snd h
    exact ⟨bytes, hsame ▸ Disk.puts_self hread, fun _ => rfl, fun hne => absurd hsame hne⟩
  · next hne =>
    obtain ⟨location, hl, hf⟩ := Disk.read_eq_ok_iff_bytesAt?.1 hread
    have hgrown := (Disk.grows_makeParents d (c.filePath destination)).finds _ _ _ hl hf
    have hsame := Disk.bytesAt?_makeParents d (c.filePath destination)
    obtain ⟨kept, hputs, hkept, hnothing⟩ :=
      Disk.puts_copy hgrown ((hsame location).trans hf) (withParents_eq_ok h)
    have hputs := hputs.of_makeParents
    have hsource := hputs.finds _ _ _ hl hf
    rw [hsource]
    exact ⟨kept, hputs, fun h => hkept (h.resolve_left hne), fun _ => hnothing⟩

end DirectoryConfig

namespace Store

variable {s t : Store} {source target : FileRef} {bytes kept : Bytes}

/-- Once bytes are put at a file, another file holds them if it has the same place, and else what
it held. -/
theorem Puts.readBytes (h : s.Puts t target kept) (hr : s.readBytes source = .ok bytes) :
    t.readBytes target = .ok kept ∧
    (t.place? source ≠ t.place? target → t.readBytes source = .ok bytes) ∧
    (t.place? source = t.place? target → t.readBytes source = .ok kept) := by
  obtain ⟨p, hp, hkept, hframe⟩ := h.place
  obtain ⟨q, hq, hbytes⟩ := readBytes_eq_ok_iff_bytesAt?.1 hr
  have hfound := h.finds source q bytes hq hbytes
  refine ⟨readBytes_eq_ok_iff_bytesAt?.2 ⟨p, hp, hkept⟩, fun hne => ?_, fun hsame => ?_⟩
  · have hother : q ≠ p := by
      rintro rfl
      exact hne (hfound.trans hp.symm)
    exact readBytes_eq_ok_iff_bytesAt?.2 ⟨q, hfound, (hframe q hother).trans hbytes⟩
  · exact readBytes_eq_ok_iff_bytesAt?.2 ⟨p, hsame.trans hp, hkept⟩

/-- The copy is within an adapter, to another path text that leads to the place of the source. -/
def CopiesOntoItself (s : Store) (source target : FileRef) : Prop :=
  source.adapter = target.adapter ∧ source.path ≠ target.path ∧
    (s.copy source target).2.place? source = (s.copy source target).2.place? target

theorem puts_carry (hr : s.readBytes source = .ok bytes)
    (h : (s.carry source target).1 = .ok ()) :
    s.Puts (s.carry source target).2 target bytes := by
  unfold carry at h ⊢
  rw [hr] at h ⊢
  cases hb : s.adapter target.adapter with
  | error e =>
    rw [hb] at h
    cases h
  | ok b =>
    rw [hb] at h
    dsimp only at h ⊢
    rw [change_fst hb] at h
    cases hbacking : b.backing with
    | memory files =>
      refine puts_of_memory hb hbacking ?_
      rw [Adapter.write_of_memory hbacking]
    | directory c =>
      have hwrite : (b.write s.disk target.path bytes) =
          ((c.write s.disk target.path bytes).1, b, (c.write s.disk target.path bytes).2) := by
        rw [Adapter.write, hbacking]
      rw [hwrite] at h
      refine puts_of_directory hb hbacking (congrArg Prod.snd hwrite) ?_
      exact DirectoryConfig.puts_write (Prod.ext h rfl)

theorem place?_of_directory {a : Adapter} {c : DirectoryConfig} {f : FileRef}
    (ha : s.adapter f.adapter = .ok a) (hb : a.backing = .directory c) :
    s.place? f = (s.disk.locate (c.filePath f.path)).toOption.map .disk := by
  obtain ⟨i, hi, hget⟩ := adapter_eq_ok_iff_position.1 ha
  rw [place?, hi]
  simp only [bind, Option.bind_some, hget]
  rw [Adapter.place?, hb]

theorem place?_of_memory {a : Adapter} {files : Files} {f : FileRef} {i : Nat}
    (hi : s.position? f.adapter = some i) (hget : s.adapters[i]? = some a)
    (hb : a.backing = .memory files) : s.place? f = some (.memory i f.path) := by
  rw [place?, hi]
  simp only [bind, Option.bind_some, hget]
  rw [Adapter.place?, hb]

/-- In memory a path is a place of its own. -/
theorem place?_ne_of_memory {a : Adapter} {files : Files} (ha : s.adapter source.adapter = .ok a)
    (hb : a.backing = .memory files) (hsame : source.adapter = target.adapter)
    (hne : source.path ≠ target.path) : s.place? source ≠ s.place? target := by
  obtain ⟨i, hi, hget⟩ := adapter_eq_ok_iff_position.1 ha
  rw [place?_of_memory hi hget hb, place?_of_memory (hsame ▸ hi) hget hb]
  rw [Ne, Option.some.injEq, Place.memory.injEq]
  exact fun h => hne h.2

/-- Within an adapter a copy puts the bytes of the source at the target, or nothing if it has
emptied the source. -/
theorem puts_copy_within {a : Adapter} (ha : s.adapter source.adapter = .ok a)
    (hr : a.read s.disk source.path = .ok bytes) (hsame : source.adapter = target.adapter)
    (ht : t = (s.change source.adapter fun a d => a.copy d source.path target.path).2)
    (h : (s.change source.adapter fun a d => a.copy d source.path target.path).1 = .ok ()) :
    ∃ kept, s.Puts t target kept ∧
      (source.path = target.path ∨ t.place? source ≠ t.place? target → kept = bytes) ∧
      (source.path ≠ target.path → t.place? source = t.place? target → kept = []) := by
  rw [change_fst ha] at h
  have hchanged : (s.change source.adapter fun a d => a.copy d source.path target.path).2.adapter
      source.adapter = .ok (a.copy s.disk source.path target.path).2.1 :=
    (adapter_change ha (a.copy_name ..) _).trans (if_pos rfl)
  rw [← ht] at hchanged
  cases hb : a.backing with
  | memory files =>
    have hfiles := (Adapter.read_eq_ok_iff_of_memory hb).1 hr
    have hcopy := Adapter.copy_of_memory hb hfiles s.disk target.path
    rw [hcopy] at hchanged
    have hputs : s.Puts t ⟨source.adapter, target.path⟩ bytes :=
      ht ▸ puts_of_memory ha hb (congrArg Prod.snd hcopy)
    rw [hsame] at hputs
    exact ⟨bytes, hputs, fun _ => rfl,
      fun hne hplace => absurd hplace (place?_ne_of_memory hchanged rfl hsame hne)⟩
  | directory c =>
    rw [Adapter.read_of_directory hb] at hr
    cases hc : c.copy s.disk source.path target.path with
    | mk result e =>
    have hcopy : a.copy s.disk source.path target.path = (result, a, e) := by
      rw [Adapter.copy, hb]
      dsimp only
      rw [hc]
    rw [hcopy] at h hchanged
    obtain rfl : result = .ok () := h
    obtain ⟨kept, hdisk, hkept, hnothing⟩ := DirectoryConfig.puts_copy hr hc
    have hputs : s.Puts t ⟨source.adapter, target.path⟩ kept :=
      ht ▸ puts_of_directory ha hb (congrArg Prod.snd hcopy) hdisk
    rw [hsame] at hputs
    have htdisk : t.disk = e := by rw [ht, change_disk ha, hcopy]
    obtain ⟨location, hsource, hbytes⟩ :=
      Disk.read_eq_ok_iff_bytesAt?.1 (DirectoryConfig.read_eq_ok_iff.1 hr)
    have hfound := hdisk.finds _ _ _ hsource hbytes
    obtain ⟨place, hplace, -⟩ := hdisk.place
    have hiff : t.place? source = t.place? target ↔
        e.locate (c.filePath target.path) = e.locate (c.filePath source.path) := by
      rw [place?_of_directory hchanged hb, place?_of_directory (hsame ▸ hchanged) hb, htdisk,
        hfound, hplace]
      simp [Except.toOption, eq_comm]
    exact ⟨kept, hputs, fun h => hkept (h.imp_right fun hne hlocate => hne (hiff.2 hlocate)),
      fun hne hplaces => hnothing hne (hiff.1 hplaces)⟩

theorem place?_announce (e : Event) (r : Except Error Unit × Store) (f : FileRef) :
    (announce e r).2.place? f = r.2.place? f := by
  obtain ⟨_ | _, _⟩ := r <;> rfl

theorem Puts.announce (h : s.Puts t target kept) (e : Event) (result : Except Error Unit) :
    s.Puts (Store.announce e (result, t)).2 target kept := by
  cases result with
  | error error => exact h
  | ok u => exact ⟨h.place, h.finds⟩

/-- What a copy puts at its target: the bytes of the source, or nothing if it was the source. -/
theorem puts_copy (hr : s.readBytes source = .ok bytes) (h : (s.copy source target).1 = .ok ()) :
    ∃ kept, s.Puts (s.copy source target).2 target kept ∧
      (¬ s.CopiesOntoItself source target → kept = bytes) ∧
      (s.CopiesOntoItself source target → kept = []) := by
  obtain ⟨a, ha, har⟩ := readBytes_eq_ok_iff.1 hr
  unfold CopiesOntoItself
  unfold copy at h ⊢
  rw [announce_fst, ha] at h
  rw [ha]
  dsimp only at h ⊢
  by_cases hsame : source.adapter = target.adapter
  · rw [if_pos hsame] at h ⊢
    obtain ⟨kept, hputs, hkept, hnothing⟩ := puts_copy_within ha har hsame rfl h
    rw [place?_announce, place?_announce]
    refine ⟨kept, hputs.announce _ _, fun hnot => hkept ?_,
      fun ⟨_, hne, hplace⟩ => hnothing hne hplace⟩
    by_cases hpath : source.path = target.path
    · exact .inl hpath
    · exact .inr fun hplace => hnot ⟨hsame, hpath, hplace⟩
  · rw [if_neg hsame] at h ⊢
    exact ⟨bytes, (puts_carry hr h).announce _ _, fun _ => rfl, fun hself => absurd hself.1 hsame⟩

/-- After a copy that went well the source and the target read the bytes of the source, unless the
source was copied onto itself: then both are empty. Every file at another place than the target's
is read as before, and at each such place the bytes are what they were. -/
theorem readBytes_copy (hr : s.readBytes source = .ok bytes)
    (h : (s.copy source target).1 = .ok ()) :
    (¬ s.CopiesOntoItself source target →
      (s.copy source target).2.readBytes source = .ok bytes ∧
      (s.copy source target).2.readBytes target = .ok bytes) ∧
    (s.CopiesOntoItself source target →
      (s.copy source target).2.readBytes source = .ok [] ∧
      (s.copy source target).2.readBytes target = .ok []) ∧
    (∀ f kept, s.readBytes f = .ok kept →
      (s.copy source target).2.place? f ≠ (s.copy source target).2.place? target →
      (s.copy source target).2.readBytes f = .ok kept) ∧
    ∃ p, (s.copy source target).2.place? target = some p ∧
      ∀ q, q ≠ p → (s.copy source target).2.bytesAt? q = s.bytesAt? q := by
  obtain ⟨kept, hputs, hkept, hnothing⟩ := puts_copy hr h
  obtain ⟨p, hp, -, hframe⟩ := hputs.place
  obtain ⟨htarget, hother, hsame⟩ := hputs.readBytes hr
  refine ⟨fun hnot => ?_, fun hself => ?_, fun f kept hf hne => ?_, p, hp, hframe⟩
  · obtain rfl := hkept hnot
    refine ⟨?_, htarget⟩
    by_cases hplace : (s.copy source target).2.place? source =
        (s.copy source target).2.place? target
    · exact hsame hplace
    · exact hother hplace
  · obtain rfl := hnothing hself
    exact ⟨hsame hself.2.2, htarget⟩
  · exact (hputs.readBytes hf).2.1 hne

/-- An adapter of a directory with a file in a directory of its own. -/
def nestedStore : Store :=
  ⟨[.ofDirectory ⟨"a", "Saves", ".save", 0⟩],
    ⟨.directory [("work", .directory [("Saves", .directory [("s", .directory
      [("a.save", .file [1])])])])], ["work"]⟩, [], []⟩

theorem copiesOntoItself_nestedStore :
    nestedStore.CopiesOntoItself ⟨"a", "s/a"⟩ ⟨"a", "s//a"⟩ := by
  refine ⟨rfl, by decide, ?_⟩
  decide +kernel

theorem readBytes_copy_nestedStore :
    (nestedStore.copy ⟨"a", "s/a"⟩ ⟨"a", "b"⟩).2.readBytes ⟨"a", "s/a"⟩ = .ok [1] ∧
      (nestedStore.copy ⟨"a", "s/a"⟩ ⟨"a", "b"⟩).2.readBytes ⟨"a", "b"⟩ = .ok [1] ∧
      (nestedStore.copy ⟨"a", "s/a"⟩ ⟨"a", "s//a"⟩).2.readBytes ⟨"a", "s/a"⟩ = .ok [] := by
  have hr : nestedStore.readBytes ⟨"a", "s/a"⟩ = .ok [1] := rfl
  have hcopied : (nestedStore.copy ⟨"a", "s/a"⟩ ⟨"a", "b"⟩).1 = .ok () := rfl
  have hemptied : (nestedStore.copy ⟨"a", "s/a"⟩ ⟨"a", "s//a"⟩).1 = .ok () := rfl
  have hother : ¬ nestedStore.CopiesOntoItself ⟨"a", "s/a"⟩ ⟨"a", "b"⟩ := by
    rintro ⟨-, -, hplace⟩
    revert hplace
    decide +kernel
  obtain ⟨hsource, htarget⟩ := (readBytes_copy hr hcopied).1 hother
  exact ⟨hsource, htarget, ((readBytes_copy hr hemptied).2.1 copiesOntoItself_nestedStore).1⟩

/-- A copy can go well and empty the file. -/
theorem not_forall_readBytes_copy : ¬ ∀ (s : Store) (source target : FileRef) (bytes : Bytes),
    s.readBytes source = .ok bytes → (s.copy source target).1 = .ok () →
      (s.copy source target).2.readBytes source = .ok bytes ∧
      (s.copy source target).2.readBytes target = .ok bytes := by
  intro h
  have hempty : (nestedStore.copy ⟨"a", "s/a"⟩ ⟨"a", "s//a"⟩).2.readBytes ⟨"a", "s/a"⟩
      = .ok [] := rfl
  cases hempty.symm.trans (h nestedStore ⟨"a", "s/a"⟩ ⟨"a", "s//a"⟩ [1] rfl rfl).1

end Store

end SaveTree
