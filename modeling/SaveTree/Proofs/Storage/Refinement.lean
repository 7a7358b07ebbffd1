/-
  A store in memory behaves as a map from files to trees.

  The files of each adapter hold the encodings of the trees that the map has under the adapter's
  name. Every operation keeps this and answers as the map does, so a run from adapters with no
  files answers as a run from the empty map. Bytes enter in two places only: what is written is
  the encoding of a tree, and what is read decodes to it (`decode_of_encode`). In between, bytes
  are moved and copied as they are.
-/
import SaveTree.Proofs.Storage.FileMap
import SaveTree.Proofs.Storage.Store
import SaveTree.Proofs.Wire.Denoted

namespace SaveTree

open Wire

/-! ## Files that hold encodings -/

variable {m : FileMap} {name path : String} {files : Files} {tree : State}

/-- Files hold the encodings of the trees that the map has under the name of an adapter. -/
def Files.Hold (files : Files) (m : FileMap) (name : String) : Prop :=
  ∀ path, files.get? path = (m.trees.lookup ⟨name, path⟩).map plainBytes

theorem FileRef.mk_eq_iff {other : String} :
    (⟨name, other⟩ : FileRef) = ⟨name, path⟩ ↔ path = other := by
  rw [FileRef.mk.injEq, eq_comm (a := path)]
  exact and_iff_right rfl

theorem Files.Hold.put (h : files.Hold m name) (path : String) (tree : State) :
    Hold (files.insert path (plainBytes tree)) (m.put ⟨name, path⟩ tree) name := by
  intro other
  rw [get?_insert, FileMap.lookup_put, h other]
  simp only [FileRef.mk_eq_iff]
  split <;> rfl

theorem Files.Hold.drop (h : files.Hold m name) (path : String) :
    Hold (files.erase path) (m.drop ⟨name, path⟩) name := by
  intro other
  rw [get?_erase, FileMap.lookup_drop, h other]
  simp only [FileRef.mk_eq_iff]
  split <;> rfl

/-- Files of one adapter hold as before what changes under another name. -/
theorem Files.Hold.congr {n : FileMap} (h : files.Hold m name)
    (hsame : ∀ path, n.trees.lookup ⟨name, path⟩ = m.trees.lookup ⟨name, path⟩) :
    files.Hold n name := by
  intro path
  rw [hsame, h path]

/-- Every tree of the map can be decoded from its encoding. -/
def FileMap.Decodes (m : FileMap) : Prop :=
  ∀ f tree, m.trees.lookup f = some tree → decode (plainBytes tree) = .ok tree

theorem FileMap.Decodes.put (h : m.Decodes) (ht : decode (plainBytes tree) = .ok tree)
    (f : FileRef) : (m.put f tree).Decodes := by
  intro g other hg
  rw [lookup_put] at hg
  split at hg
  · cases hg
    exact ht
  · exact h g other hg

theorem FileMap.Decodes.drop (h : m.Decodes) (f : FileRef) : (m.drop f).Decodes := by
  intro g other hg
  rw [lookup_drop] at hg
  split at hg
  · cases hg
  · exact h g other hg

/-- A map differs from another only in the trees under one name, and all its trees decode. -/
structure FileMap.DiffersAt (n m : FileMap) (name : String) : Prop where
  names : n.names = m.names
  others : ∀ f, f.adapter ≠ name → n.trees.lookup f = m.trees.lookup f
  decodes : n.Decodes

namespace FileMap.DiffersAt

variable {n : FileMap}

theorem refl (h : m.Decodes) (name : String) : m.DiffersAt m name := ⟨rfl, fun _ _ => rfl, h⟩

theorem put (h : n.DiffersAt m name) (ht : decode (plainBytes tree) = .ok tree) (path : String) :
    (n.put ⟨name, path⟩ tree).DiffersAt m name := by
  refine ⟨h.names, fun f hf => ?_, h.decodes.put ht _⟩
  rw [lookup_put, if_neg fun he => hf (congrArg FileRef.adapter he), h.others f hf]

theorem drop (h : n.DiffersAt m name) (path : String) :
    (n.drop ⟨name, path⟩).DiffersAt m name := by
  refine ⟨h.names, fun f hf => ?_, h.decodes.drop _⟩
  rw [lookup_drop, if_neg fun he => hf (congrArg FileRef.adapter he), h.others f hf]

end FileMap.DiffersAt

/-! ## Stores that represent a map -/

/-- A store has exactly the adapters of the map's names, those found by them are in memory, and
their files hold the encodings of the map's trees. -/
structure Store.Represents (s : Store) (m : FileMap) : Prop where
  missing : ∀ name ∉ m.names, s.adapter name = .error (.adapterNotFound name)
  found : ∀ name ∈ m.names, ∃ a files,
    s.adapter name = .ok a ∧ a.backing = .memory files ∧ files.Hold m name
  decodes : m.Decodes

/-- An operation ends alike on a store and on the map, and the store represents the map again. -/
def Refines {α : Type} (r : α × Store) (r' : α × FileMap) : Prop :=
  r.1 = r'.1 ∧ r.2.Represents r'.2

namespace Store

variable {s : Store} {f source target : FileRef}

theorem represents_of_empty (hempty : ∀ a ∈ s.adapters, a.backing = .memory []) :
    s.Represents ⟨s.adapters.map (·.name), ∅⟩ := by
  refine ⟨fun name hn => ?_, fun name hn => ?_, fun f tree h => ?_⟩
  · refine adapter_eq_error_iff.2 ⟨List.find?_eq_none.2 fun a ha hname => hn ?_, rfl⟩
    exact List.mem_map.2 ⟨a, ha, by simpa using hname⟩
  · obtain ⟨a, ha, rfl⟩ := List.mem_map.1 hn
    have hsome : (s.adapters.find? (·.name = a.name)).isSome :=
      List.find?_isSome.2 ⟨a, ha, by simp⟩
    obtain ⟨b, hb⟩ := Option.isSome_iff_exists.1 hsome
    refine ⟨b, [], adapter_eq_ok_iff.2 hb, hempty b (List.mem_of_find?_eq_some hb), fun path => ?_⟩
    rw [Finmap.lookup_empty]
    rfl
  · rw [Finmap.lookup_empty] at h
    cases h

theorem Represents.tell (h : s.Represents m) (e : Event) : (s.tell e).Represents m :=
  ⟨h.missing, h.found, h.decodes⟩

theorem refines_announce (e : Event) {r : Except Error Unit × Store}
    {r' : Except Error Unit × FileMap} (h : Refines r r') : Refines (announce e r) r' := by
  obtain ⟨result, after⟩ := r
  cases result with
  | error error => exact h
  | ok u => exact ⟨h.1, h.2.tell e⟩

namespace Represents

theorem readBytes_of_mem (h : s.Represents m) (hf : f.adapter ∈ m.names) :
    s.readBytes f = (m.find f).map plainBytes := by
  obtain ⟨a, files, ha, hmem, hold⟩ := h.found f.adapter hf
  rw [readBytes_of_adapter ha, Adapter.read, hmem, FileMap.find]
  dsimp only
  rw [hold f.path]
  cases m.trees.lookup f <;> rfl

theorem readBytes_of_not_mem (h : s.Represents m) (hf : f.adapter ∉ m.names) :
    s.readBytes f = .error (.adapterNotFound f.adapter) := by
  rw [readBytes, h.missing f.adapter hf]
  rfl

/-! ## Changes of one adapter -/

/-- A change of the files of one adapter refines a change of the trees under its name. -/
theorem change {n : FileMap} {operation : Adapter → Disk → Adapter.Outcome}
    {result : Except Error Unit} (h : s.Represents m) (hname : name ∈ m.names)
    (hn : n.DiffersAt m name)
    (hop : ∀ a files, a.backing = .memory files → files.Hold m name →
      ∃ after, operation a s.disk = (result, a.holding after, s.disk) ∧ after.Hold n name) :
    Refines (s.change name operation) (result, n) := by
  obtain ⟨a, files, ha, hmem, hold⟩ := h.found name hname
  obtain ⟨after, hafter, hold'⟩ := hop a files hmem hold
  have hadapter : ∀ other, (s.change name operation).2.adapter other =
      if other = name then .ok (a.holding after) else s.adapter other := by
    intro other
    rw [adapter_change ha (by rw [hafter]; rfl), hafter]
  refine ⟨by rw [change_fst ha, hafter], fun other ho => ?_, fun other ho => ?_, hn.decodes⟩
  · rw [hn.names] at ho
    have hne : other ≠ name := fun he => ho (he ▸ hname)
    rw [hadapter, if_neg hne]
    exact h.missing other ho
  · by_cases hne : other = name
    · subst hne
      exact ⟨a.holding after, after, (hadapter _).trans (if_pos rfl), rfl, hold'⟩
    · obtain ⟨b, files', hb, hbmem, hbhold⟩ := h.found other (hn.names ▸ ho)
      refine ⟨b, files', ?_, hbmem, hbhold.congr fun path => hn.others _ hne⟩
      rw [hadapter, if_neg hne, hb]

theorem change_write (h : s.Represents m) (hf : f.adapter ∈ m.names)
    (ht : decode (plainBytes tree) = .ok tree) :
    Refines (s.change f.adapter fun a d => a.write d f.path (plainBytes tree))
      (.ok (), m.put f tree) :=
  h.change hf ((FileMap.DiffersAt.refl h.decodes _).put ht f.path) fun _ _ hmem hold =>
    ⟨_, Adapter.write_of_memory hmem .., hold.put f.path tree⟩

theorem change_delete (h : s.Represents m) (hf : f.adapter ∈ m.names) :
    Refines (s.change f.adapter fun a d => a.delete d f.path) (.ok (), m.drop f) :=
  h.change hf ((FileMap.DiffersAt.refl h.decodes _).drop f.path) fun _ _ hmem hold =>
    ⟨_, Adapter.delete_of_memory hmem .., hold.drop f.path⟩

/-- An operation that changes the files by `keep` and gives a destination the bytes that a path had
refines changing the map to `n` and giving the destination the tree that the path had. -/
theorem change_transfer {n : FileMap} {keep : Files → Files} {destination : String}
    {operation : Adapter → Disk → Adapter.Outcome} (h : s.Represents m) (hname : name ∈ m.names)
    (hn : n.DiffersAt m name)
    (hkeep : ∀ files : Files, files.Hold m name → Files.Hold (keep files) n name)
    (hmissing : ∀ (a : Adapter) (files : Files), a.backing = .memory files →
      files.get? path = none →
      operation a s.disk = (.error (.fileNotFound path), a.holding files, s.disk))
    (hthere : ∀ (a : Adapter) (files : Files) (bytes : Bytes), a.backing = .memory files →
      files.get? path = some bytes →
      operation a s.disk = (.ok (), a.holding ((keep files).insert destination bytes), s.disk)) :
    Refines (s.change name operation)
      (m.settle do
        let tree ← m.pick ⟨name, path⟩ ⟨name, destination⟩
        .ok (n.put ⟨name, destination⟩ tree)) := by
  rw [FileMap.pick_of_mem (f := ⟨name, path⟩) hname hname]
  cases hl : m.trees.lookup ⟨name, path⟩ with
  | none =>
    rw [FileMap.find_of_none hl]
    refine h.change hname (.refl h.decodes name) fun a files hmem hold => ?_
    exact ⟨files, hmissing a files hmem (by rw [hold path, hl, Option.map_none]), hold⟩
  | some tree =>
    rw [FileMap.find_of_some hl]
    refine h.change hname (hn.put (h.decodes _ tree hl) destination) fun a files hmem hold => ?_
    exact ⟨_, hthere a files _ hmem (by rw [hold path, hl, Option.map_some]),
      (hkeep files hold).put destination tree⟩

theorem change_copy (h : s.Represents m) (hname : name ∈ m.names) (path destination : String) :
    Refines (s.change name fun a d => a.copy d path destination)
      (m.settle (m.copy ⟨name, path⟩ ⟨name, destination⟩)) :=
  h.change_transfer hname (.refl h.decodes name) (fun _ hold => hold)
    (fun _ _ hmem hb => Adapter.copy_of_missing hmem hb ..)
    (fun _ _ _ hmem hb => Adapter.copy_of_memory hmem hb ..)

theorem change_move (h : s.Represents m) (hname : name ∈ m.names) (path destination : String) :
    Refines (s.change name fun a d => a.move d path destination)
      (m.settle (m.move ⟨name, path⟩ ⟨name, destination⟩)) :=
  h.change_transfer hname ((FileMap.DiffersAt.refl h.decodes name).drop path)
    (fun _ hold => hold.drop path)
    (fun _ _ hmem hb => Adapter.move_of_missing hmem hb ..)
    (fun _ _ _ hmem hb => Adapter.move_of_memory hmem hb ..)

/-! ## Operations of a store -/

theorem decode_readBytes (h : s.Represents m) (f : FileRef) :
    (s.readBytes f >>= decode) = m.fetch f := by
  by_cases hf : f.adapter ∈ m.names
  · rw [h.readBytes_of_mem hf, FileMap.fetch_of_mem hf]
    cases hl : m.trees.lookup f with
    | none =>
      rw [FileMap.find_of_none hl]
      rfl
    | some tree =>
      rw [FileMap.find_of_some hl]
      exact h.decodes f tree hl
  · rw [h.readBytes_of_not_mem hf, FileMap.fetch_of_not_mem hf]
    rfl

theorem read (h : s.Represents m) (t : TypeName) (f : FileRef) :
    Refines (s.read t f) (m.read t f, m) := by
  unfold Store.read FileMap.read
  rw [h.decode_readBytes f]
  cases m.fetch f with
  | error e => exact ⟨rfl, h⟩
  | ok tree =>
    have hcast : tree.cast t = if t.accepts tree.kind then some tree else none := rfl
    dsimp only [bind, Except.bind]
    rw [hcast]
    by_cases ht : t.accepts tree.kind
    · rw [if_pos ht, if_pos ht]
      exact ⟨rfl, h.tell _⟩
    · rw [if_neg ht, if_neg ht]
      exact ⟨rfl, h⟩

theorem readInto {context α : Type} [Persistable context α] (h : s.Represents m) (f : FileRef)
    (ctx : context) (x : α) :
    (s.readInto f ctx x).1 = (m.readInto f ctx x).1 ∧
      (s.readInto f ctx x).2.1 = (m.readInto f ctx x).2 ∧
      (s.readInto f ctx x).2.2.Represents m := by
  obtain ⟨hresult, hafter⟩ := h.read .any f
  unfold Store.readInto FileMap.readInto
  cases hr : s.read .any f with
  | mk result after =>
    rw [hr] at hresult hafter
    dsimp only at hresult hafter ⊢
    rw [← hresult]
    cases result with
    | error e => exact ⟨rfl, rfl, hafter⟩
    | ok tree => exact ⟨rfl, rfl, hafter⟩

theorem exists_eq (h : s.Represents m) (f : FileRef) : s.exists? f = m.exists? f := by
  unfold Store.exists? FileMap.exists?
  by_cases hf : f.adapter ∈ m.names
  · obtain ⟨a, files, ha, hmem, hold⟩ := h.found f.adapter hf
    rw [ha, FileMap.check_of_mem hf]
    change Except.ok (a.exists? s.disk f.path) = Except.ok (m.trees.lookup f).isSome
    rw [Adapter.exists?_of_memory hmem, hold f.path, Option.isSome_map]
  · rw [h.missing f.adapter hf, FileMap.check_of_not_mem hf]
    rfl

theorem write (h : s.Represents m) (f : FileRef) {tree : State} (hs : tree.Storable)
    (he : tree.Every State.FewEntries) : Refines (s.write f tree) (m.settle (m.write f tree)) := by
  unfold Store.write FileMap.write
  by_cases hf : f.adapter ∈ m.names
  · obtain ⟨a, -, ha, -⟩ := h.found f.adapter hf
    rw [ha, FileMap.check_of_mem hf]
    by_cases hn : 512 < tree.nesting
    · rw [encode_of_lt_nesting he hn, if_pos hn]
      exact ⟨rfl, h⟩
    · have hencode := encode_of_nesting_le he (Nat.not_lt.1 hn)
      rw [hencode, if_neg hn]
      exact refines_announce _ (h.change_write hf (decode_of_encode hs hencode))
  · rw [h.missing f.adapter hf, FileMap.check_of_not_mem hf]
    exact ⟨rfl, h⟩

theorem delete (h : s.Represents m) (f : FileRef) :
    Refines (s.delete f) (m.settle (m.delete f)) := by
  unfold Store.delete FileMap.delete
  refine refines_announce _ ?_
  by_cases hf : f.adapter ∈ m.names
  · rw [FileMap.check_of_mem hf]
    exact h.change_delete hf
  · rw [FileMap.check_of_not_mem hf, change_of_error (h.missing f.adapter hf)]
    exact ⟨rfl, h⟩

/-- Bytes that are carried over to another adapter are still the encoding of the tree. -/
theorem carry (h : s.Represents m) (hs : source.adapter ∈ m.names) (target : FileRef) :
    Refines (s.carry source target) (m.settle (m.copy source target)) := by
  unfold Store.carry FileMap.copy
  by_cases ht : target.adapter ∈ m.names
  · obtain ⟨a, -, ha, -⟩ := h.found target.adapter ht
    rw [ha, h.readBytes_of_mem hs, FileMap.pick_of_mem hs ht]
    cases hl : m.trees.lookup source with
    | none =>
      rw [FileMap.find_of_none hl]
      exact ⟨rfl, h⟩
    | some tree =>
      rw [FileMap.find_of_some hl]
      exact h.change_write ht (h.decodes source tree hl)
  · rw [h.missing target.adapter ht, FileMap.pick_of_not_mem_target hs ht]
    exact ⟨rfl, h⟩

theorem copy (h : s.Represents m) (source target : FileRef) :
    Refines (s.copy source target) (m.settle (m.copy source target)) := by
  unfold Store.copy
  refine refines_announce _ ?_
  by_cases hs : source.adapter ∈ m.names
  · obtain ⟨a, -, ha, -⟩ := h.found source.adapter hs
    rw [ha]
    dsimp only
    split
    · next hsame =>
      obtain ⟨name, path⟩ := source
      obtain ⟨other, destination⟩ := target
      cases hsame
      exact h.change_copy hs path destination
    · exact h.carry hs target
  · rw [h.missing source.adapter hs, FileMap.copy, FileMap.pick_of_not_mem_source hs]
    exact ⟨rfl, h⟩

/-- Between adapters a move is a copy after which the source is dropped; the copy stays, because
it is under another name. -/
theorem move (h : s.Represents m) (source target : FileRef) :
    Refines (s.move source target) (m.settle (m.move source target)) := by
  unfold Store.move
  refine refines_announce _ ?_
  by_cases hs : source.adapter ∈ m.names
  · obtain ⟨a, -, ha, -⟩ := h.found source.adapter hs
    rw [ha]
    dsimp only
    split
    · next hsame =>
      obtain ⟨name, path⟩ := source
      obtain ⟨other, destination⟩ := target
      cases hsame
      exact h.change_move hs path destination
    · next hother =>
      obtain ⟨hresult, hcarried⟩ := h.carry hs target
      rw [FileMap.copy] at hresult hcarried
      rw [FileMap.move]
      cases hc : s.carry source target with
      | mk result carried =>
      rw [hc] at hresult hcarried
      cases hp : m.pick source target with
      | error e =>
        rw [hp] at hresult hcarried
        cases hresult
        exact ⟨rfl, hcarried⟩
      | ok tree =>
        rw [hp] at hresult hcarried
        cases hresult
        have hne : source ≠ target := fun he => hother (congrArg FileRef.adapter he)
        have hdeleted := hcarried.change_delete (f := source) hs
        dsimp only [bind, Except.bind, FileMap.settle] at hdeleted ⊢
        rw [FileMap.drop_put hne] at hdeleted
        exact hdeleted
  · rw [h.missing source.adapter hs, FileMap.move, FileMap.pick_of_not_mem_source hs]
    exact ⟨rfl, h⟩

/-- Each operation answers as on the map, and the store represents the map afterwards. -/
theorem perform (h : s.Represents m) (o : Operation)
    (ho : ∀ tree ∈ o.tree?, tree.Storable ∧ tree.Every State.FewEntries) :
    (s.perform o).1 = (m.perform o).1 ∧ (s.perform o).2.Represents (m.perform o).2 := by
  cases o with
  | write f tree =>
    obtain ⟨hs, he⟩ := ho tree rfl
    exact h.write f hs he
  | writeFrom f ctx x =>
    obtain ⟨hs, he⟩ := ho _ rfl
    exact h.write f hs he
  | read t f => exact h.read t f
  | readInto f ctx x =>
    obtain ⟨hresult, hvalue, hafter⟩ := h.readInto f ctx x
    exact ⟨Prod.ext hresult hvalue, hafter⟩
  | exists? f => exact ⟨h.exists_eq f, h⟩
  | move source target => exact h.move source target
  | copy source target => exact h.copy source target
  | delete f => exact h.delete f

end Represents

/-- A run over adapters in memory, which hold no files at first, answers as the run over the map
of files to trees. The trees that are written are within the limits of headers, and their objects
have each name once, as those that are built field by field have. -/
theorem run_eq_fileMap {os : List Operation}
    (hempty : ∀ a ∈ s.adapters, a.backing = .memory [])
    (hos : ∀ o ∈ os, ∀ tree ∈ o.tree?, tree.Storable ∧ tree.Every State.FewEntries) :
    Operation.run perform s os =
      Operation.run FileMap.perform ⟨s.adapters.map (·.name), ∅⟩ os :=
  Operation.run_eq_of_step (fun o ho _ _ h => h.perform o (hos o ho)) (represents_of_empty hempty)

/-- Two adapters in memory with no files. -/
def emptyPair : Store := ⟨[.memory "a" 0 true, .memory "b" 1 true], .empty, [], []⟩

/-- A file is written, moved to the other adapter and read from there, once as a text, and then a
counter is updated from it. -/
def carriedCounter : List Operation :=
  [.writeFrom ⟨"a", "x"⟩ (3 : Int32) (⟨5⟩ : Counter), .move ⟨"a", "x"⟩ ⟨"b", "y"⟩,
    .read (.only .string) ⟨"b", "y"⟩, .readInto ⟨"b", "y"⟩ (1 : Int32) (⟨0⟩ : Counter),
    .copy ⟨"a", "x"⟩ ⟨"c", "z"⟩, .copy ⟨"a", "x"⟩ ⟨"b", "y"⟩]

theorem run_carriedCounter :
    Operation.run perform emptyPair carriedCounter =
      [⟨.writeFrom ⟨"a", "x"⟩ (3 : Int32) (⟨5⟩ : Counter), .ok ()⟩,
        ⟨.move ⟨"a", "x"⟩ ⟨"b", "y"⟩, .ok ()⟩,
        ⟨.read (.only .string) ⟨"b", "y"⟩, .error (.typeMismatch (.only .string) .object)⟩,
        ⟨.readInto ⟨"b", "y"⟩ (1 : Int32) (⟨0⟩ : Counter), (.ok (), (⟨16⟩ : Counter))⟩,
        ⟨.copy ⟨"a", "x"⟩ ⟨"c", "z"⟩, .error (.adapterNotFound "c")⟩,
        ⟨.copy ⟨"a", "x"⟩ ⟨"b", "y"⟩, .error (.fileNotFound "x")⟩] := by
  have hempty : ∀ a ∈ emptyPair.adapters, a.backing = .memory [] := by
    simp [emptyPair, Adapter.memory]
  exact (run_eq_fileMap hempty (by decide)).trans rfl

end Store

end SaveTree
