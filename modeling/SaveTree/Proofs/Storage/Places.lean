/-
  Files by their places.

  Several path texts can lead to one file. A place is where the bytes are: a path of an adapter in
  memory, by the adapter's position, or a location of the disk. `Puts` says what storing bytes at a
  path does in terms of places: they stand at the place the path leads to, every other place holds
  what it held, and each file is still found where it was.
-/
import SaveTree.Proofs.Storage.Store

namespace SaveTree

/-! ## Bytes in a file tree -/

namespace FileTree

variable {t : FileTree} {here location : List String} {name : String} {bytes : Bytes}

/-- The bytes of the file at a location. -/
def bytesAt? (t : FileTree) (location : List String) : Option Bytes :=
  match t.get? location with
  | some (.file bytes) => some bytes
  | _ => none

theorem bytesAt?_eq_some_iff :
    t.bytesAt? location = some bytes ↔ t.occupant? location = some (.file bytes) := by
  rw [occupant?_eq_file_iff, bytesAt?]
  cases t.get? location with
  | none => simp
  | some node => cases node <;> simp

theorem bytesAt?_congr {u : FileTree} (h : u.occupant? location = t.occupant? location) :
    u.bytesAt? location = t.bytesAt? location := by
  refine Option.ext fun bytes => ?_
  rw [bytesAt?_eq_some_iff, bytesAt?_eq_some_iff, h]

/-- Nothing stands below what is no directory. -/
theorem occupant?_append_of_ne {m : List String} (hm : m ≠ [])
    (h : t.occupant? location ≠ some .directory) : t.occupant? (location ++ m) = none := by
  cases ho : t.occupant? (location ++ m) with
  | none => rfl
  | some o => exact absurd (directory_of_occupant?_append hm ho) h

/-- A node with nothing below it changes what stands at its own place only, if there was no
directory. -/
theorem occupant?_put (hhere : t.occupant? here = some .directory)
    (hd : t.occupant? (here ++ [name]) ≠ some .directory) {node : FileTree}
    (hnode : ∀ m, m ≠ [] → node.get? m = none) (hl : location ≠ here ++ [name]) :
    (t.put here name node).occupant? location = t.occupant? location := by
  by_cases hbelow : here ++ [name] <+: location
  · obtain ⟨m, rfl⟩ := hbelow
    have hm : m ≠ [] := by
      rintro rfl
      exact hl (List.append_nil _)
    obtain ⟨es, he⟩ := occupant?_eq_directory_iff.1 hhere
    rw [occupant?_append_of_ne hm hd, occupant?, get?_append, get?_put he, Option.bind_some,
      hnode m hm]
    rfl
  · exact occupant?_change (fun es k hk => by rw [Fields.get?_set, if_neg hk.symm]) hbelow

theorem get?_file_of_ne {m : List String} (hm : m ≠ []) (bytes : Bytes) :
    (file bytes).get? m = none := by
  obtain ⟨name, names, rfl⟩ := List.exists_cons_of_ne_nil hm
  exact get?_file_cons bytes name names

theorem get?_empty_of_ne {m : List String} (hm : m ≠ []) : empty.get? m = none := by
  obtain ⟨name, names, rfl⟩ := List.exists_cons_of_ne_nil hm
  rw [empty, get?_directory_cons, Fields.get?_nil, Option.bind_none]

end FileTree

/-! ## Storing bytes on the disk -/

namespace Disk

open FileTree

variable {d e f : Disk} {path source target : String} {directory location : List String}
  {name : String} {bytes kept : Bytes}

theorem locate_of_file (hl : d.Leads path directory name)
    (hf : d.tree.bytesAt? (directory ++ [name]) = some bytes) :
    d.locate path = .ok (directory ++ [name]) := by
  refine locate_of_leads hl ?_
  rw [bytesAt?_eq_some_iff.1 hf]
  rfl

/-- The file a path leads to, by its directory and name. -/
theorem exists_leads_of_bytesAt? (h : d.locate path = .ok location)
    (hf : d.tree.bytesAt? location = some bytes) :
    ∃ directory name, d.Leads path directory name ∧ location = directory ++ [name] :=
  exists_leads_of_locate h (bytesAt?_eq_some_iff.1 hf)

theorem read_eq_ok_iff_bytesAt? : d.read path = .ok bytes ↔
    ∃ location, d.locate path = .ok location ∧ d.tree.bytesAt? location = some bytes := by
  rw [read_eq_ok_iff]
  constructor
  · rintro ⟨directory, name, hl, hf⟩
    have hf := bytesAt?_eq_some_iff.2 hf
    exact ⟨directory ++ [name], locate_of_file hl hf, hf⟩
  · rintro ⟨location, hl, hf⟩
    obtain ⟨directory, name, hleads, rfl⟩ := exists_leads_of_bytesAt? hl hf
    exact ⟨directory, name, hleads, bytesAt?_eq_some_iff.1 hf⟩

/-- Every path to a file leads to the place it led to. -/
def Finds (d e : Disk) : Prop :=
  ∀ path location bytes, d.locate path = .ok location → d.tree.bytesAt? location = some bytes →
    e.locate path = .ok location

/-- The bytes stand at the place a path leads to, every other file is as it was, and each file is
found where it was. -/
structure Puts (d e : Disk) (path : String) (bytes : Bytes) : Prop where
  place : ∃ location, e.locate path = .ok location ∧ e.tree.bytesAt? location = some bytes ∧
    ∀ l, l ≠ location → e.tree.bytesAt? l = d.tree.bytesAt? l
  finds : d.Finds e

theorem KeepsBut.finds {place : List String} (h : d.KeepsBut e place)
    (hplace : ∃ bytes, e.tree.bytesAt? place = some bytes) : d.Finds e := by
  intro path location bytes hl hf
  obtain ⟨directory, name, hleads, rfl⟩ := exists_leads_of_bytesAt? hl hf
  refine locate_of_leads (h.leads hleads) ?_
  by_cases hsame : directory ++ [name] = place
  · obtain ⟨kept, hkept⟩ := hplace
    rw [hsame, bytesAt?_eq_some_iff.1 hkept]
    rfl
  · rw [h.stands _ _ hsame (bytesAt?_eq_some_iff.1 hf)]
    rfl

theorem Grows.finds (h : d.Grows e) : d.Finds e := by
  intro path location bytes hl hf
  obtain ⟨directory, name, hleads, rfl⟩ := exists_leads_of_bytesAt? hl hf
  refine locate_of_leads (h.leads hleads) ?_
  rw [h.stands _ _ (bytesAt?_eq_some_iff.1 hf)]
  rfl

/-- A file put where a path leads. -/
theorem puts_putEntry (hl : d.Leads path directory name)
    (hd : d.tree.occupant? (directory ++ [name]) ≠ some .directory) (bytes : Bytes) :
    d.Puts (d.putEntry ⟨directory, name, false⟩ (.file bytes)) path bytes := by
  have hkeeps := keepsBut_put hd (.file bytes) false
  have hself : (d.putEntry ⟨directory, name, false⟩ (.file bytes)).tree.bytesAt?
      (directory ++ [name]) = some bytes :=
    bytesAt?_eq_some_iff.2 (occupant?_put_self hl.2.1 _)
  refine ⟨⟨_, locate_of_file (hkeeps.leads hl) hself, hself, fun l hne => bytesAt?_congr ?_⟩,
    hkeeps.finds ⟨bytes, hself⟩⟩
  exact occupant?_put hl.2.1 hd (fun m hm => get?_file_of_ne hm bytes) hne

/-- What is put last at a path is there. -/
theorem Puts.again (h : d.Puts e path bytes) (h' : e.Puts f path kept) : d.Puts f path kept := by
  obtain ⟨location, hl, hf, hframe⟩ := h.place
  obtain ⟨location', hl', hf', hframe'⟩ := h'.place
  have hstill := h'.finds path location bytes hl hf
  obtain rfl : location = location' := Except.ok.inj (hstill.symm.trans hl')
  refine ⟨⟨location, hl', hf', fun l hne => (hframe' l hne).trans (hframe l hne)⟩, ?_⟩
  intro p l b hp hb
  have hmiddle := h.finds p l b hp hb
  by_cases hne : l = location
  · exact h'.finds p l bytes hmiddle (hne ▸ hf)
  · exact h'.finds p l b hmiddle ((hframe l hne).trans hb)

theorem bytesAt?_makeDirectory (h : d.makeDirectory path = .ok e) (location : List String) :
    e.tree.bytesAt? location = d.tree.bytesAt? location := by
  obtain ⟨l, hdirectory, hnone, rfl⟩ := makeDirectory_eq_ok h
  by_cases hl : location = l.directory ++ [l.name]
  · have hnew : (d.putEntry l .empty).tree.occupant? location = some .directory :=
      hl ▸ occupant?_put_self hdirectory _
    refine Option.ext fun bytes => ?_
    rw [bytesAt?_eq_some_iff, bytesAt?_eq_some_iff, hnew, hl, hnone]
    simp
  · refine bytesAt?_congr (occupant?_put hdirectory ?_ (fun m hm => get?_empty_of_ne hm) hl)
    rw [hnone]
    exact nofun

/-- Creating directories leaves all files as they were. -/
theorem bytesAt?_makeParents (d : Disk) (path : String) (location : List String) :
    (d.makeParents path).2.tree.bytesAt? location = d.tree.bytesAt? location :=
  makeParents_induction (P := fun e => e.tree.bytesAt? location = d.tree.bytesAt? location)
    (fun _ _ _ hd he => (bytesAt?_makeDirectory he location).trans hd) rfl path

theorem Puts.of_makeParents (h : (d.makeParents source).2.Puts e path bytes) :
    d.Puts e path bytes := by
  obtain ⟨location, hl, hf, hframe⟩ := h.place
  have hsame := bytesAt?_makeParents d source
  refine ⟨⟨location, hl, hf, fun l hne => (hframe l hne).trans (hsame l)⟩, fun p l b hp hb => ?_⟩
  exact h.finds p l b ((grows_makeParents d source).finds p l b hp hb) ((hsame l).trans hb)

theorem puts_write (h : d.write path bytes = .ok e) : d.Puts e path bytes := by
  obtain ⟨directory, name, hl, hd, rfl⟩ := write_eq_ok_iff.1 h
  exact puts_putEntry hl hd bytes

theorem openForCopy_eq_ok_iff {l : LastName} :
    d.openForCopy source target = .ok (location, l) ↔ d.locate source = .ok location ∧
      (∃ bytes, d.tree.bytesAt? location = some bytes) ∧ d.openForWriting target = .ok l := by
  simp only [bytesAt?_eq_some_iff, occupant?_eq_file_iff]
  unfold openForCopy
  simp only [bind_eq_ok_iff]
  refine ⟨fun h => ?_, fun h => ?_⟩
  · obtain ⟨place, hl, h⟩ := h
    split at h
    · next bytes hf =>
      obtain ⟨new, hnew, h⟩ := bind_eq_ok_iff.1 h
      cases h
      exact ⟨hl, ⟨bytes, hf⟩, hnew⟩
    · cases h
    · cases h
  · obtain ⟨hl, ⟨bytes, hf⟩, hnew⟩ := h
    refine ⟨location, hl, ?_⟩
    rw [hf, hnew]
    rfl

/-- A copy goes well if the source is still a file once the target is emptied. -/
theorem copy_eq_ok_iff : d.copy source target = (.ok (), e) ↔
    ∃ location l kept, d.openForCopy source target = .ok (location, l) ∧
      (d.putEntry l (.file [])).tree.bytesAt? location = some kept ∧
      e = (d.putEntry l (.file [])).putEntry l (.file kept) := by
  simp only [bytesAt?_eq_some_iff, occupant?_eq_file_iff]
  unfold copy
  refine ⟨fun h => ?_, fun h => ?_⟩
  · split at h
    · cases h
    next location l ho =>
    dsimp only at h
    split at h
    · next kept hkept =>
      cases h
      exact ⟨location, l, kept, ho, hkept, rfl⟩
    · cases h
  · obtain ⟨location, l, kept, ho, hkept, rfl⟩ := h
    rw [ho]
    dsimp only
    rw [hkept]

/-- A copy carries over what the source holds once the target is emptied: its bytes, or nothing if
the source is the target. -/
theorem puts_copy (hl : d.locate source = .ok location)
    (hf : d.tree.bytesAt? location = some bytes) (h : d.copy source target = (.ok (), e)) :
    ∃ kept, d.Puts e target kept ∧
      (e.locate target ≠ .ok location → kept = bytes) ∧
      (e.locate target = .ok location → kept = []) := by
  obtain ⟨location', ⟨directory, name, slashed⟩, kept, ho, hsource, rfl⟩ := copy_eq_ok_iff.1 h
  obtain ⟨hl', -, hnew⟩ := openForCopy_eq_ok_iff.1 ho
  obtain rfl : location = location' := Except.ok.inj (hl.symm.trans hl')
  obtain ⟨hleads, rfl, hd⟩ := openForWriting_eq_ok_iff.1 hnew
  dsimp only at hleads hd
  have hemptied := puts_putEntry hleads hd []
  have hself : (d.putEntry ⟨directory, name, false⟩ (.file [])).tree.occupant?
      (directory ++ [name]) = some (.file []) := occupant?_put_self hleads.2.1 _
  have hleads' := (keepsBut_put hd (.file []) false).leads hleads
  have hput := puts_putEntry hleads' (by simp [hself]) kept
  obtain ⟨place, hplace, hnone, hframe⟩ := hemptied.place
  have htarget := hput.finds target place [] hplace hnone
  refine ⟨kept, hemptied.again hput, fun hne => ?_, fun hsame => ?_⟩
  · have hother : location ≠ place := by
      rintro rfl
      exact hne htarget
    rw [hframe location hother, hf] at hsource
    exact (Option.some.inj hsource).symm
  · obtain rfl : place = location := Except.ok.inj (htarget.symm.trans hsame)
    exact (Option.some.inj (hnone.symm.trans hsource)).symm

end Disk

/-! ## Places of a store -/

/-- Where the bytes of a file are: under a path in the memory of an adapter, given by its position,
or at a location of the disk. -/
inductive Place where
  | memory (position : Nat) (path : String)
  | disk (location : List String)
  deriving DecidableEq

namespace Adapter

/-- The bytes an adapter in memory has under a path. -/
def held? (a : Adapter) (path : String) : Option Bytes :=
  match a.backing with
  | .memory files => files.get? path
  | .directory _ => none

/-- The place of a file of the adapter at a position. -/
def place? (a : Adapter) (position : Nat) (d : Disk) (path : String) : Option Place :=
  match a.backing with
  | .memory _ => some (.memory position path)
  | .directory c => (d.locate (c.filePath path)).toOption.map .disk

end Adapter

namespace Store

/-- The place a file is looked for at; none if its adapter is missing or its path leads nowhere. -/
def place? (s : Store) (f : FileRef) : Option Place := do
  let i ← s.position? f.adapter
  let a ← s.adapters[i]?
  a.place? i s.disk f.path

/-- The bytes at a place. -/
def bytesAt? (s : Store) : Place → Option Bytes
  | .memory i path => s.adapters[i]?.bind (·.held? path)
  | .disk location => s.disk.tree.bytesAt? location

variable {s t : Store} {a : Adapter} {name : String} {i : Nat} {f source target : FileRef}
  {bytes kept : Bytes} {operation : Adapter → Disk → Adapter.Outcome}

theorem place?_eq_some_iff {p : Place} : s.place? f = some p ↔
    ∃ i a, s.position? f.adapter = some i ∧ s.adapters[i]? = some a ∧
      a.place? i s.disk f.path = some p := by
  unfold place?
  simp only [bind, Option.bind_eq_some_iff]
  exact ⟨fun ⟨i, hi, a, ha, hp⟩ => ⟨i, a, hi, ha, hp⟩, fun ⟨i, a, hi, ha, hp⟩ => ⟨i, hi, a, ha, hp⟩⟩

theorem locate_of_toOption {d : Disk} {path : String} {location : List String}
    (h : (d.locate path).toOption = some location) : d.locate path = .ok location := by
  cases hl : d.locate path with
  | error fault =>
    rw [hl] at h
    cases h
  | ok l =>
    rw [hl] at h
    cases h
    rfl

/-- A file is read at its place. -/
theorem readBytes_eq_ok_iff_bytesAt? : s.readBytes f = .ok bytes ↔
    ∃ p, s.place? f = some p ∧ s.bytesAt? p = some bytes := by
  rw [readBytes_eq_ok_iff]
  simp only [adapter_eq_ok_iff_position, place?_eq_some_iff]
  constructor
  · rintro ⟨a, ⟨i, hi, ha⟩, hr⟩
    cases hb : a.backing with
    | memory files =>
      refine ⟨.memory i f.path, ⟨i, a, hi, ha, by rw [Adapter.place?, hb]⟩, ?_⟩
      rw [bytesAt?, ha, Option.bind_some, Adapter.held?, hb]
      exact (Adapter.read_eq_ok_iff_of_memory hb).1 hr
    | directory c =>
      rw [Adapter.read_of_directory hb, DirectoryConfig.read_eq_ok_iff,
        Disk.read_eq_ok_iff_bytesAt?] at hr
      obtain ⟨location, hl, hf⟩ := hr
      refine ⟨.disk location, ⟨i, a, hi, ha, ?_⟩, hf⟩
      rw [Adapter.place?, hb]
      dsimp only
      rw [hl]
      rfl
  · rintro ⟨p, ⟨i, a, hi, ha, hp⟩, hf⟩
    refine ⟨a, ⟨i, hi, ha⟩, ?_⟩
    cases hb : a.backing with
    | memory files =>
      rw [Adapter.place?, hb] at hp
      cases hp
      rw [bytesAt?, ha, Option.bind_some, Adapter.held?, hb] at hf
      exact (Adapter.read_eq_ok_iff_of_memory hb).2 hf
    | directory c =>
      rw [Adapter.place?, hb] at hp
      obtain ⟨location, hl, rfl⟩ := Option.map_eq_some_iff.1 hp
      rw [Adapter.read_of_directory hb, DirectoryConfig.read_eq_ok_iff,
        Disk.read_eq_ok_iff_bytesAt?]
      exact ⟨location, locate_of_toOption hl, hf⟩

/-! ## Storing bytes in a store -/

/-- The bytes stand at the place of a file, every other place holds what it held, and each file
that had bytes is found where it was. -/
structure Puts (s t : Store) (f : FileRef) (bytes : Bytes) : Prop where
  place : ∃ p, t.place? f = some p ∧ t.bytesAt? p = some bytes ∧
    ∀ q, q ≠ p → t.bytesAt? q = s.bytesAt? q
  finds : ∀ g q kept, s.place? g = some q → s.bytesAt? q = some kept → t.place? g = some q

theorem replaceFirst_of_find? {as : List Adapter}
    (h : as.find? (·.name = a.name) = some a) : replaceFirst a as = as := by
  induction as with
  | nil => rfl
  | cons b bs ih =>
    rw [List.find?_cons] at h
    unfold replaceFirst
    by_cases hb : b.name = a.name
    · rw [decide_eq_true hb] at h
      cases h
      rw [if_pos rfl]
    · rw [decide_eq_false hb] at h
      rw [if_neg hb, ih h]

/-- Bytes put into memory. -/
theorem puts_of_memory {files : Files} {path : String} (h : s.adapter name = .ok a)
    (hb : a.backing = .memory files)
    (ho : (operation a s.disk).2 = (a.holding (files.insert path bytes), s.disk)) :
    s.Puts (s.change name operation).2 ⟨name, path⟩ bytes := by
  have hposition : ∀ other, (s.change name operation).2.position? other = s.position? other :=
    position?_change h
  have hname : (operation a s.disk).2.1.name = a.name := by
    rw [ho]
    rfl
  obtain ⟨i, hi, ha, hadapters⟩ := adapters_change h hname
  rw [ho] at hadapters
  have hdisk : (s.change name operation).2.disk = s.disk := by
    rw [change_snd h, ho]
  have hlt : i < s.adapters.length := (List.getElem?_eq_some_iff.1 ha).1
  generalize (s.change name operation).2 = t at hposition hadapters hdisk
  have hplaces : ∀ g, t.place? g = s.place? g := by
    intro g
    unfold place?
    rw [hposition, hadapters, hdisk]
    cases s.position? g.adapter with
    | none => rfl
    | some j =>
      by_cases hj : j = i
      · subst hj
        simp only [bind, Option.bind_some, List.getElem?_set_self hlt, ha]
        rw [Adapter.place?, Adapter.place?, hb]
        rfl
      · simp only [bind, Option.bind_some, List.getElem?_set_ne (Ne.symm hj)]
  have hself : t.bytesAt? (.memory i path) = some bytes := by
    rw [bytesAt?, hadapters, List.getElem?_set_self hlt, Option.bind_some]
    show (files.insert path bytes).get? path = some bytes
    rw [Files.get?_insert, if_pos rfl]
  refine ⟨⟨.memory i path, ?_, hself, fun q hq => ?_⟩, fun g q kept hg _ => (hplaces g).trans hg⟩
  · rw [hplaces, place?_eq_some_iff]
    exact ⟨i, a, hi, ha, by rw [Adapter.place?, hb]⟩
  · cases q with
    | disk location => rw [bytesAt?, bytesAt?, hdisk]
    | memory j other =>
      rw [bytesAt?, bytesAt?, hadapters]
      by_cases hj : j = i
      · subst hj
        have hother : path ≠ other := by
          rintro rfl
          exact hq rfl
        rw [List.getElem?_set_self hlt, ha, Option.bind_some, Option.bind_some]
        show (files.insert path bytes).get? other = a.held? other
        rw [Files.get?_insert, if_neg hother, Adapter.held?, hb]
      · rw [List.getElem?_set_ne (Ne.symm hj)]

/-- Bytes put on the disk. -/
theorem puts_of_directory {c : DirectoryConfig} {path : String} {d : Disk}
    (h : s.adapter name = .ok a) (hb : a.backing = .directory c)
    (ho : (operation a s.disk).2 = (a, d)) (hd : s.disk.Puts d (c.filePath path) bytes) :
    s.Puts (s.change name operation).2 ⟨name, path⟩ bytes := by
  obtain ⟨i, hi, ha⟩ := adapter_eq_ok_iff_position.1 h
  have hstore : (s.change name operation).2 = { s with disk := d } := by
    rw [change_snd h, ho]
    have hsame : replaceFirst a s.adapters = s.adapters := by
      refine replaceFirst_of_find? ?_
      rw [name_of_adapter h]
      exact adapter_eq_ok_iff.1 h
    rw [hsame]
  rw [hstore]
  obtain ⟨location, hl, hf, hframe⟩ := hd.place
  refine ⟨⟨.disk location, ?_, hf, fun q hq => ?_⟩, fun g q kept hg hkept => ?_⟩
  · refine place?_eq_some_iff.2 ⟨i, a, hi, ha, ?_⟩
    rw [Adapter.place?, hb]
    dsimp only
    rw [hl]
    rfl
  · cases q with
    | memory j other => rfl
    | disk l => exact hframe l fun hsame => hq (congrArg Place.disk hsame)
  · obtain ⟨j, b, hj, hbj, hp⟩ := place?_eq_some_iff.1 hg
    refine place?_eq_some_iff.2 ⟨j, b, hj, hbj, ?_⟩
    unfold Adapter.place? at hp ⊢
    split at hp
    · exact hp
    · obtain ⟨l, hlocate, rfl⟩ := Option.map_eq_some_iff.1 hp
      rw [hd.finds _ l kept (locate_of_toOption hlocate) hkept]
      rfl

end Store

end SaveTree
