/-
  What a store lists.

  Each adapter lists its paths in the order of their bytes, and a store lists adapter by adapter,
  in the order of priority. So a file is listed once for each adapter of its name that has its
  path. Whether a file exists is asked of the first of these only: the two agree for a name that no
  two adapters share. A search of a store in memory goes well and finds what is listed
  (`tryList_of_inMemory`).
-/
import SaveTree.Proofs.Storage.Events
import SaveTree.Proofs.Text.ByteOrder

namespace SaveTree

/-! ## Files in order -/

namespace Files

variable {fs : Files} {path other : String}

/-- The paths stand in order, each once. -/
def Sorted (fs : Files) : Prop := fs.paths.Pairwise (· < ·)

theorem isSome_get?_iff : (fs.get? path).isSome ↔ path ∈ fs.paths := by
  induction fs with
  | nil => simp [get?, paths]
  | cons f fs ih =>
    obtain ⟨p, b⟩ := f
    rw [get?_cons, paths, List.map_cons, List.mem_cons, ← paths]
    by_cases hp : p = path
    · simp [hp]
    · rw [if_neg hp, ih, or_iff_right (Ne.symm hp)]

theorem mem_paths_insert {bytes : Bytes} :
    other ∈ (fs.insert path bytes).paths ↔ other = path ∨ other ∈ fs.paths := by
  rw [← isSome_get?_iff, ← isSome_get?_iff, get?_insert]
  by_cases hp : path = other
  · simp [hp]
  · rw [if_neg hp, or_iff_right (Ne.symm hp)]

theorem sorted_cons_iff {b : Bytes} {p : String} :
    Sorted ((p, b) :: fs) ↔ (∀ q ∈ fs.paths, p < q) ∧ fs.Sorted := List.pairwise_cons

theorem Sorted.insert (h : fs.Sorted) (path : String) (bytes : Bytes) :
    (fs.insert path bytes).Sorted := by
  induction fs with
  | nil => exact List.pairwise_singleton _ _
  | cons f fs ih =>
    obtain ⟨p, b⟩ := f
    obtain ⟨hp, hfs⟩ := sorted_cons_iff.1 h
    unfold Files.insert
    split
    · next hlt =>
      refine sorted_cons_iff.2 ⟨fun q hq => ?_, h⟩
      rcases List.mem_cons.1 hq with rfl | hq
      · exact hlt
      · exact String.lt_trans hlt (hp q hq)
    split
    · next heq => exact sorted_cons_iff.2 ⟨heq ▸ hp, hfs⟩
    · next hnlt hne =>
      refine sorted_cons_iff.2 ⟨fun q hq => ?_, ih hfs⟩
      rcases mem_paths_insert.1 hq with rfl | hq
      · by_cases hlt : p < q
        · exact hlt
        · have heq := String.le_antisymm (String.not_lt.1 hlt) (String.not_lt.1 hnlt)
          exact absurd heq.symm hne
      · exact hp q hq

theorem Sorted.erase (h : fs.Sorted) (path : String) : (fs.erase path).Sorted :=
  h.sublist (List.filter_sublist.map _)

end Files

/-! ## Adapters in memory -/

namespace Adapter

variable {a : Adapter} {d : Disk} {test : String → Bool} {path : String}

/-- The adapter keeps its files in memory, in order. -/
def InMemory (a : Adapter) : Prop := ∃ files : Files, files.Sorted ∧ a.backing = .memory files

theorem inMemory_memory (name : String) (priority : Int32) (enabled : Bool) :
    (memory name priority enabled).InMemory := ⟨[], .nil, rfl⟩

theorem inMemory_holding {files : Files} (h : files.Sorted) (a : Adapter) :
    (a.holding files).InMemory := ⟨files, h, rfl⟩

/-- A path is listed once, if it is there and passes the test; the paths are in the order of their
bytes. -/
theorem pairwise_list (h : a.InMemory) (d : Disk) (test : String → Bool) :
    (a.list d test).Pairwise (fun p q => Utf8.encode p < Utf8.encode q) := by
  obtain ⟨files, hs, hb⟩ := h
  unfold list
  rw [hb]
  exact (List.Pairwise.filter _ hs).imp Utf8.encode_lt_encode_iff.2

theorem mem_list_iff (h : a.InMemory) :
    path ∈ a.list d test ↔ a.exists? d path = true ∧ test path = true := by
  obtain ⟨files, hs, hb⟩ := h
  rw [exists?_of_memory hb, Files.isSome_get?_iff, list, hb]
  exact List.mem_filter

/-- A search that goes well finds what is listed. -/
theorem list_of_tryList {paths : List String} (h : a.tryList d test = .ok paths) :
    paths = a.list d test := by
  unfold tryList at h
  unfold list
  split at h
  · next files hb =>
    cases h
    rw [list, hb]
  · next c hb =>
    unfold DirectoryConfig.tryList at h
    split at h
    · cases h
      rfl
    · cases h

/-- A search in memory goes well. -/
theorem tryList_of_inMemory (h : a.InMemory) (d : Disk) (test : String → Bool) :
    a.tryList d test = .ok (a.list d test) := by
  obtain ⟨files, -, hb⟩ := h
  rw [tryList, hb]

/-- What an operation of a store runs on an adapter. -/
inductive Action : (Adapter → Disk → Outcome) → Prop
  | write (path : String) (bytes : Bytes) : Action fun a d => a.write d path bytes
  | move (path destination : String) : Action fun a d => a.move d path destination
  | copy (path destination : String) : Action fun a d => a.copy d path destination
  | delete (path : String) : Action fun a d => a.delete d path

/-- An adapter in memory stays where it is and has other files after it. -/
theorem Action.holding {operation : Adapter → Disk → Outcome} (ho : Action operation)
    (h : a.InMemory) (d : Disk) :
    ∃ files : Files, files.Sorted ∧ (operation a d).2.1 = a.holding files := by
  obtain ⟨files, hs, hb⟩ := h
  cases ho with
  | write path bytes =>
    have hafter := write_of_memory hb d path bytes
    exact ⟨_, hs.insert path bytes, congrArg (·.2.1) hafter⟩
  | move path destination =>
    cases hg : files.get? path with
    | none =>
      have hafter := move_of_missing hb hg d destination
      exact ⟨_, hs, congrArg (·.2.1) hafter⟩
    | some bytes =>
      have hafter := move_of_memory hb hg d destination
      exact ⟨_, (hs.erase path).insert destination bytes, congrArg (·.2.1) hafter⟩
  | copy path destination =>
    cases hg : files.get? path with
    | none =>
      have hafter := copy_of_missing hb hg d destination
      exact ⟨_, hs, congrArg (·.2.1) hafter⟩
    | some bytes =>
      have hafter := copy_of_memory hb hg d destination
      exact ⟨_, hs.insert destination bytes, congrArg (·.2.1) hafter⟩
  | delete path =>
    have hafter := delete_of_memory hb d path
    exact ⟨_, hs.erase path, congrArg (·.2.1) hafter⟩

end Adapter

/-! ## What operations keep -/

/-- A call that registers only adapters of a kind. -/
def Call.Registers (Q : Adapter → Prop) : Call → Prop
  | .register a => Q a
  | .subscribe _ | .list _ | .operation _ => True

namespace Store

/-- A property of stores that is kept by telling of events and by running operations on adapters. -/
structure Kept (P : Store → Prop) : Prop where
  tell : ∀ s e, P s → P (s.tell e)
  change : ∀ s name operation, Adapter.Action operation → P s → P (s.change name operation).2

namespace Kept

variable {P : Store → Prop} {s : Store}

theorem announce (hk : Kept P) (e : Event) {r : Except Error Unit × Store} (h : P r.2) :
    P (announce e r).2 := by
  obtain ⟨_ | ⟨⟩, after⟩ := r
  · exact h
  · exact hk.tell after e h

theorem carry (hk : Kept P) (h : P s) (source target : FileRef) : P (s.carry source target).2 := by
  unfold Store.carry
  split
  · exact h
  · exact h
  · exact hk.change s _ _ (.write _ _) h

theorem write (hk : Kept P) (h : P s) (f : FileRef) (tree : State) : P (s.write f tree).2 := by
  unfold Store.write
  split
  · exact h
  · exact h
  · exact hk.announce _ (hk.change s _ _ (.write _ _) h)

theorem read (hk : Kept P) (h : P s) (t : TypeName) (f : FileRef) : P (s.read t f).2 := by
  unfold Store.read
  split
  · exact h
  · split
    · exact h
    · exact hk.tell s _ h

theorem readInto {context α : Type} [Persistable context α] (hk : Kept P) (h : P s)
    (f : FileRef) (ctx : context) (x : α) : P (s.readInto f ctx x).2.2 := by
  have hread := hk.read h .any f
  unfold Store.readInto
  split
  · next hr =>
    rw [hr] at hread
    exact hread
  · next hr =>
    rw [hr] at hread
    exact hread

theorem move (hk : Kept P) (h : P s) (source target : FileRef) : P (s.move source target).2 := by
  unfold Store.move
  refine hk.announce _ ?_
  split
  · exact h
  split
  · exact hk.change s _ _ (.move _ _) h
  have hcarry := hk.carry h source target
  split
  · next hc =>
    rw [hc] at hcarry
    exact hcarry
  · next hc =>
    rw [hc] at hcarry
    exact hk.change _ _ _ (.delete _) hcarry

theorem copy (hk : Kept P) (h : P s) (source target : FileRef) : P (s.copy source target).2 := by
  unfold Store.copy
  refine hk.announce _ ?_
  split
  · exact h
  split
  · exact hk.change s _ _ (.copy _ _) h
  · exact hk.carry h source target

theorem perform (hk : Kept P) (h : P s) (o : Operation) : P (s.perform o).2 := by
  cases o with
  | write f tree => exact hk.write h f tree
  | writeFrom f ctx x => exact hk.write h f _
  | read t f => exact hk.read h t f
  | readInto f ctx x => exact hk.readInto h f ctx x
  | exists? f => exact h
  | move source target => exact hk.move h source target
  | copy source target => exact hk.copy h source target
  | delete f => exact hk.announce _ (hk.change s _ _ (.delete _) h)

/-- A property that new subscribers and new adapters of a kind keep too holds after every run. -/
theorem calls {Q : Adapter → Prop} (hk : Kept P) (hsubscribe : ∀ s tag, P s → P (s.subscribe tag))
    (hregister : ∀ s a, Q a → P s → P (s.register a)) {cs : List Call}
    (hcs : ∀ c ∈ cs, c.Registers Q) (h : P s) : P (s.calls cs) := by
  induction cs generalizing s with
  | nil => exact h
  | cons c cs ih =>
    obtain ⟨hc, hcs⟩ := List.forall_mem_cons.1 hcs
    rw [calls_cons]
    refine ih hcs ?_
    cases c with
    | subscribe tag => exact hsubscribe s tag h
    | register a => exact hregister s a hc h
    | list test => exact h
    | operation o => exact hk.perform h o

end Kept

/-! ## Stores in memory -/

/-- The adapters keep their files in memory and stand in order of priority. -/
structure InMemory (s : Store) : Prop where
  inMemory : ∀ a ∈ s.adapters, a.InMemory
  priorities : s.adapters.Pairwise fun a b => a.priority ≤ b.priority

variable {s : Store} {a : Adapter} {cs : List Call} {test : String → Bool} {f : FileRef}

theorem inMemory_empty : empty.InMemory := ⟨fun _ => nofun, .nil⟩

theorem priority_le_trans (x y z : Adapter) (hxy : decide (x.priority ≤ y.priority) = true)
    (hyz : decide (y.priority ≤ z.priority) = true) : decide (x.priority ≤ z.priority) = true :=
  decide_eq_true (Int32.le_trans (of_decide_eq_true hxy) (of_decide_eq_true hyz))

theorem priority_le_total (x y : Adapter) :
    (decide (x.priority ≤ y.priority) || decide (y.priority ≤ x.priority)) = true := by
  simpa using Int32.le_total x.priority y.priority

/-- A store with one more adapter is in order of priority, whatever it was before. -/
theorem pairwise_register (s : Store) (a : Adapter) :
    (s.register a).adapters.Pairwise fun x y => x.priority ≤ y.priority := by
  have hsorted := List.pairwise_mergeSort priority_le_trans priority_le_total (s.adapters ++ [a])
  exact hsorted.imp fun h => of_decide_eq_true h

/-- An adapter of a priority below all others comes first. -/
theorem register_of_lt (h : s.adapters.Pairwise fun x y => x.priority ≤ y.priority)
    (ha : ∀ b ∈ s.adapters, a.priority < b.priority) :
    s.register a = { s with adapters := a :: s.adapters } := by
  have hordered := pairwise_register s a
  have hperm : (s.register a).adapters.Perm (a :: s.adapters) :=
    (List.mergeSort_perm _ _).trans (List.perm_append_singleton a s.adapters)
  have hsub : s.adapters.Sublist (s.register a).adapters :=
    List.sublist_mergeSort priority_le_trans priority_le_total
      (h.imp fun hxy => decide_eq_true hxy) (List.sublist_append_left s.adapters [a])
  have hadapters : (s.register a).adapters = a :: s.adapters := by
    cases hafter : (s.register a).adapters with
    | nil =>
      rw [hafter] at hperm
      cases hperm.length_eq
    | cons b bs =>
      rw [hafter] at hordered hperm hsub
      -- what comes first is no other adapter, as that would have a greater priority
      have hb : b = a := by
        rcases List.mem_cons.1 (hperm.mem_iff.1 List.mem_cons_self) with hb | hb
        · exact hb
        rcases List.mem_cons.1 (hperm.mem_iff.2 List.mem_cons_self) with hab | hab
        · exact hab.symm
        · have hle := (List.pairwise_cons.1 hordered).1 a hab
          exact absurd hle (Int32.not_le.2 (ha b hb))
      subst hb
      have hlength : s.adapters.length = bs.length := by simpa using hperm.length_eq.symm
      rcases List.sublist_cons_iff.1 hsub with hsub | ⟨as, has, -⟩
      · rw [hsub.eq_of_length hlength]
      · have hlt := ha b (has ▸ List.mem_cons_self)
        exact absurd hlt Int32.lt_irrefl
  rw [← hadapters]
  rfl

theorem register_empty (a : Adapter) : empty.register a = { empty with adapters := [a] } :=
  register_of_lt .nil fun _ => nofun

theorem InMemory.register (h : s.InMemory) (ha : a.InMemory) : (s.register a).InMemory := by
  refine ⟨fun b hb => ?_, pairwise_register s a⟩
  rcases List.mem_append.1 (List.mem_mergeSort.1 hb) with hb | hb
  · exact h.inMemory b hb
  · exact List.mem_singleton.1 hb ▸ ha

theorem kept_inMemory : Kept InMemory := by
  refine ⟨fun s e h => ⟨h.inMemory, h.priorities⟩, fun s name operation ho h => ?_⟩
  cases ha : s.adapter name with
  | error e =>
    rw [change_of_error ha]
    exact h
  | ok a =>
    have hmem : a ∈ s.adapters := List.mem_of_find?_eq_some (adapter_eq_ok_iff.1 ha)
    obtain ⟨files, hs, hafter⟩ := ho.holding (h.inMemory a hmem) s.disk
    have hname : (operation a s.disk).2.1.name = a.name := by
      rw [hafter]
      rfl
    obtain ⟨i, -, hi, hadapters⟩ := adapters_change ha hname
    rw [hafter] at hadapters
    constructor
    · intro b hb
      rw [hadapters] at hb
      rcases List.mem_or_eq_of_mem_set hb with hb | rfl
      · exact h.inMemory b hb
      · exact Adapter.inMemory_holding hs a
    -- the adapter after the operation has the priority of that before
    · have hsame : (s.change name operation).2.adapters.map (·.priority) =
          s.adapters.map (·.priority) := by
        have hpriority : (s.adapters.map (·.priority))[i]? = some a.priority := by
          rw [List.getElem?_map, hi]
          rfl
        obtain ⟨hlt, hget⟩ := List.getElem?_eq_some_iff.1 hpriority
        rw [hadapters, List.map_set]
        show (s.adapters.map (·.priority)).set i a.priority = s.adapters.map (·.priority)
        rw [← hget]
        exact List.set_getElem_self hlt
      have hbefore := List.pairwise_map.2 h.priorities
      rw [← hsame] at hbefore
      exact List.pairwise_map.1 hbefore

/-- A store that only adapters in memory were registered with. -/
theorem inMemory_calls (hcs : ∀ c ∈ cs, c.Registers Adapter.InMemory) :
    (empty.calls cs).InMemory :=
  kept_inMemory.calls (fun _ _ h => ⟨h.inMemory, h.priorities⟩) (fun _ _ ha h => h.register ha) hcs
    inMemory_empty

/-! ## The search -/

theorem mapM_eq_ok_iff {α β ε : Type} {f : α → Except ε β} {g : α → β}
    (hf : ∀ x y, f x = .ok y → y = g x) {xs : List α} {ys : List β} :
    xs.mapM f = .ok ys ↔ (∀ x ∈ xs, ∃ y, f x = .ok y) ∧ ys = xs.map g := by
  induction xs generalizing ys with
  | nil => simp [pure, Except.pure, eq_comm]
  | cons x xs ih =>
    rw [List.mapM_cons, bind_eq_ok_iff, List.forall_mem_cons, List.map_cons]
    simp only [bind_eq_ok_iff, ih, pure, Except.pure, Except.ok.injEq]
    constructor
    · rintro ⟨y, hy, ys, ⟨hxs, rfl⟩, rfl⟩
      exact ⟨⟨⟨y, hy⟩, hxs⟩, by rw [hf x y hy]⟩
    · rintro ⟨⟨⟨y, hy⟩, hxs⟩, rfl⟩
      exact ⟨y, hy, xs.map g, ⟨hxs, rfl⟩, by rw [hf x y hy]⟩

variable {files : List FileRef}

theorem tryListOf_eq_ok_iff : s.tryListOf test a = .ok files ↔
    ∃ paths, a.tryList s.disk test = .ok paths ∧
      paths.map (fun path => ⟨a.name, path⟩) = files := by
  unfold tryListOf
  simp only [bind_eq_ok_iff, pure, Except.pure, Except.ok.injEq]

/-- A store lists what all its adapters list, if the search of each goes well. -/
theorem tryList_eq_ok_iff : s.tryList test = .ok files ↔
    (∀ a ∈ s.adapters, ∃ paths, a.tryList s.disk test = .ok paths) ∧ files = s.list test := by
  have hfound : ∀ a fs, s.tryListOf test a = .ok fs →
      fs = (a.list s.disk test).map fun path => ⟨a.name, path⟩ := by
    intro a fs hfs
    obtain ⟨paths, hpaths, rfl⟩ := tryListOf_eq_ok_iff.1 hfs
    rw [Adapter.list_of_tryList hpaths]
  have hall : (∀ a ∈ s.adapters, ∃ fs, s.tryListOf test a = .ok fs) ↔
      ∀ a ∈ s.adapters, ∃ paths, a.tryList s.disk test = .ok paths := by
    refine forall₂_congr fun a _ => ⟨fun ⟨fs, hfs⟩ => ?_, fun ⟨paths, hpaths⟩ => ?_⟩
    · obtain ⟨paths, hpaths, -⟩ := tryListOf_eq_ok_iff.1 hfs
      exact ⟨paths, hpaths⟩
    · exact ⟨_, tryListOf_eq_ok_iff.2 ⟨paths, hpaths, rfl⟩⟩
  unfold tryList
  rw [← hall, list, List.flatMap]
  simp only [bind_eq_ok_iff, mapM_eq_ok_iff hfound, pure, Except.pure, Except.ok.injEq]
  constructor
  · rintro ⟨lists, ⟨hfs, rfl⟩, rfl⟩
    exact ⟨hfs, rfl⟩
  · rintro ⟨hfs, rfl⟩
    exact ⟨_, ⟨hfs, rfl⟩, rfl⟩

/-- The search of a store in memory goes well. -/
theorem tryList_of_inMemory (h : s.InMemory) (test : String → Bool) :
    s.tryList test = .ok (s.list test) :=
  tryList_eq_ok_iff.2
    ⟨fun a ha => ⟨_, Adapter.tryList_of_inMemory (h.inMemory a ha) s.disk test⟩, rfl⟩

/-! ## The list -/

/-- A file as it is listed: the adapter that has it, with its position, and the path. -/
structure Entry where
  position : Nat
  adapter : Adapter
  path : String

/-- The reference it is listed as. -/
def Entry.file (e : Entry) : FileRef := ⟨e.adapter.name, e.path⟩

/-- By adapters, and within an adapter by the bytes of the paths. -/
def Entry.Before (e e' : Entry) : Prop :=
  e.position < e'.position ∨ e.position = e'.position ∧ Utf8.encode e.path < Utf8.encode e'.path

/-- The files whose paths pass a test, as they are listed. -/
def entries (s : Store) (test : String → Bool) : List Entry :=
  s.adapters.zipIdx.flatMap fun (a, i) => (a.list s.disk test).map fun path => ⟨i, a, path⟩

theorem list_eq_map_entries (s : Store) (test : String → Bool) :
    s.list test = (s.entries test).map Entry.file := by
  unfold list entries
  rw [List.map_flatMap]
  conv_lhs => rw [← List.zipIdx_map_fst 0 s.adapters]
  rw [List.flatMap_map]
  refine List.flatMap_congr fun x _ => ?_
  rw [List.map_map]
  rfl

theorem mem_entries_iff {e : Entry} : e ∈ s.entries test ↔
    s.adapters[e.position]? = some e.adapter ∧ e.path ∈ e.adapter.list s.disk test := by
  unfold entries
  rw [List.mem_flatMap]
  constructor
  · rintro ⟨⟨a, i⟩, hai, he⟩
    obtain ⟨path, hpath, rfl⟩ := List.mem_map.1 he
    exact ⟨List.mem_zipIdx_iff_getElem?.1 hai, hpath⟩
  · rintro ⟨ha, hpath⟩
    exact ⟨(e.adapter, e.position), List.mem_zipIdx_iff_getElem?.2 ha,
      List.mem_map.2 ⟨e.path, hpath, rfl⟩⟩

/-- The entries stand in order, each once. -/
theorem pairwise_entries (h : s.InMemory) (test : String → Bool) :
    (s.entries test).Pairwise Entry.Before := by
  unfold entries
  rw [List.pairwise_flatMap]
  constructor
  · intro x hx
    have ha : x.1 ∈ s.adapters := List.fst_mem_of_mem_zipIdx hx
    rw [List.pairwise_map]
    exact (Adapter.pairwise_list (h.inMemory x.1 ha) s.disk test).imp fun hlt => .inr ⟨rfl, hlt⟩
  · have hpositions : s.adapters.zipIdx.Pairwise fun x y => x.2 < y.2 := by
      rw [← List.pairwise_map, List.zipIdx_map_snd]
      exact List.pairwise_lt_range'
    refine hpositions.imp fun hlt e he e' he' => ?_
    obtain ⟨-, -, rfl⟩ := List.mem_map.1 he
    obtain ⟨-, -, rfl⟩ := List.mem_map.1 he'
    exact .inl hlt

/-- The adapters of a name. -/
def bearers (s : Store) (name : String) : List Adapter := s.adapters.filter (·.name = name)

/-- The adapters of a file's name that have its path. -/
def holders (s : Store) (f : FileRef) : List Adapter :=
  (s.bearers f.adapter).filter (·.exists? s.disk f.path)

/-- An adapter lists a file once, if the file is its own and the path is there. -/
theorem count_files (h : a.InMemory) (d : Disk) (test : String → Bool) (f : FileRef) :
    ((a.list d test).map (FileRef.mk a.name)).count f =
      if (a.exists? d f.path && a.name = f.adapter) && test f.path then 1 else 0 := by
  have hpaths : (a.list d test).Nodup := by
    refine (Adapter.pairwise_list h d test).imp fun {p q} hlt => ?_
    rintro rfl
    exact List.lt_irrefl _ hlt
  have hfiles : ((a.list d test).map (FileRef.mk a.name)).Nodup :=
    hpaths.map fun p q hpq => (FileRef.mk.inj hpq).2
  have hmem : f ∈ (a.list d test).map (FileRef.mk a.name) ↔
      (a.exists? d f.path && a.name = f.adapter) && test f.path := by
    obtain ⟨name, path⟩ := f
    simp only [List.mem_map, Adapter.mem_list_iff h, FileRef.mk.injEq, Bool.and_eq_true,
      decide_eq_true_eq]
    constructor
    · rintro ⟨p, ⟨he, ht⟩, rfl, rfl⟩
      exact ⟨⟨he, rfl⟩, ht⟩
    · rintro ⟨⟨he, hn⟩, ht⟩
      exact ⟨path, ⟨he, ht⟩, hn, rfl⟩
  rw [hfiles.count]
  simp only [hmem]

/-- A file that passes the test is listed once for each adapter of its name that has its path. -/
theorem count_list (h : s.InMemory) (test : String → Bool) (f : FileRef) :
    (s.list test).count f = if test f.path then (s.holders f).length else 0 := by
  obtain ⟨hmemory, -⟩ := h
  unfold list holders bearers
  rw [List.filter_filter]
  generalize s.adapters = as at hmemory
  induction as with
  | nil => simp
  | cons a as ih =>
    obtain ⟨ha, has⟩ := List.forall_mem_cons.1 hmemory
    have hone := count_files ha s.disk test f
    rw [List.flatMap_cons, List.count_append, ih has, hone, List.filter_cons]
    cases test f.path with
    | false => simp
    | true =>
      rw [Bool.and_true]
      split
      · rw [List.length_cons, if_pos rfl, if_pos rfl]
        omega
      · rw [if_pos rfl, Nat.zero_add]

theorem exists?_eq_true_iff : s.exists? f = .ok true ↔
    ∃ a, s.adapter f.adapter = .ok a ∧ a.exists? s.disk f.path = true := by
  unfold exists?
  cases s.adapter f.adapter <;> simp [bind, Except.bind, pure, Except.pure]

/-- A file that exists is listed. -/
theorem mem_list_of_exists? (h : s.InMemory) (ht : test f.path = true)
    (hf : s.exists? f = .ok true) : f ∈ s.list test := by
  obtain ⟨a, ha, he⟩ := exists?_eq_true_iff.1 hf
  have hmem : a ∈ s.adapters := List.mem_of_find?_eq_some (adapter_eq_ok_iff.1 ha)
  have hpath := (Adapter.mem_list_iff (h.inMemory a hmem)).2 ⟨he, ht⟩
  refine List.mem_flatMap.2 ⟨a, hmem, List.mem_map.2 ⟨f.path, hpath, ?_⟩⟩
  rw [name_of_adapter ha]

/-- The first adapter of a name is the one that counts. -/
theorem adapter_eq_ok_iff_bearers {name : String} :
    s.adapter name = .ok a ↔ (s.bearers name).head? = some a := by
  rw [adapter_eq_ok_iff, bearers, List.head?_filter]

theorem length_bearers (s : Store) (name : String) :
    (s.bearers name).length = (s.adapters.map (·.name)).count name := by
  rw [List.count, List.countP_map, List.countP_eq_length_filter]
  rfl

/-- Of a name that no two adapters share, exactly the files that exist are listed, each once. -/
theorem list_of_length_bearers (h : s.InMemory) (hname : (s.bearers f.adapter).length ≤ 1) :
    (s.list test).count f ≤ 1 ∧
      (f ∈ s.list test ↔ test f.path = true ∧ s.exists? f = .ok true) := by
  rw [← List.count_pos_iff, count_list h test f, holders, exists?_eq_true_iff]
  -- both sides depend on the adapters of the name only
  simp only [adapter_eq_ok_iff_bearers]
  generalize s.bearers f.adapter = as at hname
  rcases as with _ | ⟨a, _ | ⟨b, as⟩⟩
  · simp
  · cases test f.path <;> cases he : a.exists? s.disk f.path <;> simp [he]
  · rw [List.length_cons, List.length_cons] at hname
    omega

/-- If no two adapters share a name, no file is listed twice. -/
theorem nodup_list (h : s.InMemory) (hnames : (s.adapters.map (·.name)).Nodup)
    (test : String → Bool) : (s.list test).Nodup := by
  refine List.nodup_iff_count_le_one.2 fun f => ?_
  have hname : (s.bearers f.adapter).length ≤ 1 := by
    rw [length_bearers]
    exact List.nodup_iff_count_le_one.1 hnames f.adapter
  exact (list_of_length_bearers h hname).1

/-- After a run that registers adapters in memory only, a search goes well, and what it lists goes
through the adapters in the order of priority, and through the paths of each that pass the test in
the order of their bytes. A file is listed once for each adapter of its name that has its path, so a
file that exists is listed. Of a name that no two adapters share no file is listed twice, and none
that does not exist. -/
theorem list_calls (hcs : ∀ c ∈ cs, c.Registers Adapter.InMemory) (hs : empty.calls cs = s)
    (test : String → Bool) :
    s.adapters.Pairwise (fun a b => a.priority ≤ b.priority) ∧
    ∃ files, s.tryList test = .ok files ∧
      (files = (s.entries test).map Entry.file ∧ (s.entries test).Pairwise Entry.Before ∧
        ∀ e, e ∈ s.entries test ↔ s.adapters[e.position]? = some e.adapter ∧
          e.adapter.exists? s.disk e.path = true ∧ test e.path = true) ∧
      (∀ f, files.count f = if test f.path then (s.holders f).length else 0) ∧
      (∀ f, test f.path = true → s.exists? f = .ok true → f ∈ files) ∧
      (∀ f, (s.bearers f.adapter).length ≤ 1 → files.count f ≤ 1 ∧
        (f ∈ files ↔ test f.path = true ∧ s.exists? f = .ok true)) ∧
      ((s.adapters.map (·.name)).Nodup → files.Nodup) := by
  have h : s.InMemory := hs ▸ inMemory_calls hcs
  refine ⟨h.priorities, s.list test, tryList_of_inMemory h test,
    ⟨list_eq_map_entries s test, pairwise_entries h test, fun e => ?_⟩,
    count_list h test, fun f => mem_list_of_exists? h, fun f => list_of_length_bearers h,
    fun hnames => nodup_list h hnames test⟩
  rw [mem_entries_iff]
  refine and_congr_right fun he => Adapter.mem_list_iff (h.inMemory e.adapter ?_)
  exact List.mem_of_getElem? he

/-- A run on two adapters, the second of which comes first. -/
def shelvedCalls : List Call :=
  [.register (.memory "late" 1 true), .operation (.write ⟨"late", "y"⟩ (.int 1)),
    .operation (.write ⟨"late", "x"⟩ (.int 2)), .register (.memory "early" (-1) true),
    .operation (.write ⟨"early", "z"⟩ (.int 3)), .operation (.delete ⟨"late", "y"⟩)]

/-- The store after it. -/
def shelvedStore : Store :=
  ⟨[⟨"early", -1, true, .memory [("z", [0xD2, 0, 0, 0, 3])]⟩,
    ⟨"late", 1, true, .memory [("x", [0xD2, 0, 0, 0, 2])]⟩], .empty, [], []⟩

theorem calls_shelvedCalls : empty.calls shelvedCalls = shelvedStore := by
  simp only [shelvedCalls, calls_cons, call]
  rw [register_empty, register_of_lt (by decide) (by decide)]
  rfl

theorem list_calls_shelvedCalls : (∀ c ∈ shelvedCalls, c.Registers Adapter.InMemory) ∧
    empty.calls shelvedCalls = shelvedStore ∧
    ∃ files, shelvedStore.tryList (fun _ => true) = .ok files ∧ files.Nodup ∧
      ⟨"late", "x"⟩ ∈ files ∧ ⟨"late", "y"⟩ ∉ files := by
  have hcs : ∀ c ∈ shelvedCalls, c.Registers Adapter.InMemory := by
    simp [shelvedCalls, Call.Registers, Adapter.inMemory_memory]
  obtain ⟨-, files, hfiles, -, -, hexists, hsingle, hnodup⟩ :=
    list_calls hcs calls_shelvedCalls fun _ => true
  refine ⟨hcs, calls_shelvedCalls, files, hfiles, hnodup (by decide), hexists _ rfl rfl,
    fun hy => ?_⟩
  have hexists := ((hsingle ⟨"late", "y"⟩ (by decide)).2.1 hy).2
  cases hexists

/-- A run on two adapters of one name. The second comes first and hides a file of the other. -/
def hiddenCalls : List Call :=
  [.register (.memory "a" 0 true), .operation (.write ⟨"a", "x"⟩ (.int 1)),
    .operation (.write ⟨"a", "y"⟩ (.int 1)), .register (.memory "a" (-1) true),
    .operation (.write ⟨"a", "x"⟩ (.int 2))]

/-- The store after it. -/
def hiddenStore : Store :=
  ⟨[⟨"a", -1, true, .memory [("x", [0xD2, 0, 0, 0, 2])]⟩,
    ⟨"a", 0, true, .memory [("x", [0xD2, 0, 0, 0, 1]), ("y", [0xD2, 0, 0, 0, 1])]⟩],
    .empty, [], []⟩

theorem calls_hiddenCalls : empty.calls hiddenCalls = hiddenStore := by
  simp only [hiddenCalls, calls_cons, call]
  rw [register_empty, register_of_lt (by decide) (by decide)]
  rfl

/-- In general a file can be listed twice, and a file can be listed that does not exist. -/
theorem not_forall_list_calls :
    ¬ (∀ (cs : List Call) (test : String → Bool) (files : List FileRef),
      (∀ c ∈ cs, c.Registers Adapter.InMemory) → (empty.calls cs).tryList test = .ok files →
      files.Nodup) ∧
    ¬ (∀ (cs : List Call) (test : String → Bool) (files : List FileRef),
      (∀ c ∈ cs, c.Registers Adapter.InMemory) → (empty.calls cs).tryList test = .ok files →
      ∀ f, f.adapter ∈ (empty.calls cs).adapters.map (·.name) →
        (f ∈ files ↔ test f.path = true ∧ (empty.calls cs).exists? f = .ok true)) := by
  have hcs : ∀ c ∈ hiddenCalls, c.Registers Adapter.InMemory := by
    simp [hiddenCalls, Call.Registers, Adapter.inMemory_memory]
  have hlist : (empty.calls hiddenCalls).tryList (fun _ => true) =
      .ok [⟨"a", "x"⟩, ⟨"a", "x"⟩, ⟨"a", "y"⟩] := by
    rw [calls_hiddenCalls]
    rfl
  refine ⟨fun hall => ?_, fun hall => ?_⟩
  · have hnodup := hall hiddenCalls (fun _ => true) _ hcs hlist
    exact absurd hnodup (by decide)
  · have hhidden : hiddenStore.exists? ⟨"a", "y"⟩ = .ok false := rfl
    have hy := hall hiddenCalls (fun _ => true) _ hcs hlist ⟨"a", "y"⟩
    rw [calls_hiddenCalls, hhidden] at hy
    have hexists := ((hy (by decide)).1 (by decide)).2
    cases hexists

end Store

end SaveTree
