/-
  Trees built from nothing.

  `Built` names the trees that finitely many calls of the constructors, the edits and the readers
  give, each on values that were built so themselves. A change deep inside a tree is a change of a
  part, which is stored back in its place. All of them set fields by name, also where the input
  repeats one, so no object of such a tree has a name twice and each field is found under its name.
-/
import SaveTree.Persistable
import SaveTree.Proofs.Path.Every
import SaveTree.Proofs.Path.ReadBack
import SaveTree.Proofs.State.Json
import SaveTree.State.AtPath

namespace SaveTree.State

/-- What constructors, edits and readers build from nothing. -/
inductive Built : State → Prop
  -- constructors
  | bool (b : Bool) : Built (bool b)
  | int (n : Int32) : Built (int n)
  | long (n : Int64) : Built (long n)
  | float (x : Binary32) : Built (float x)
  | double (x : Binary64) : Built (double x)
  | string (s : String) : Built (string s)
  | composite (c : Composite) : Built (composite c)
  | ofItems {xs : List State} (h : ∀ x ∈ xs, Built x) : Built (list xs)
  | ofPairs {pairs : List (String × State)} (h : ∀ p ∈ pairs, Built p.2) :
      Built (object (Fields.ofPairs pairs))
  | serializeMap {context α : Type} [Persistable context α] (ctx : context)
      {entries : List (String × α)} (h : ∀ e ∈ entries, Built (Persistable.serialize ctx e.2)) :
      Built (object (Persistable.serializeMap ctx entries))
  -- edits of an object and of a list
  | setName {fs : Fields State} {v : State} (name : String) (hs : Built (object fs))
      (hv : Built v) : Built (object (Fields.set fs name v))
  | setNewList {fs : Fields State} (name : String) (hs : Built (object fs)) :
      Built (object (Fields.set fs name (list [])))
  | setNewObject {fs : Fields State} (name : String) (hs : Built (object fs)) :
      Built (object (Fields.set fs name (object [])))
  | eraseName {fs : Fields State} (name : String) (hs : Built (object fs)) :
      Built (object (Fields.erase fs name))
  | add {xs : List State} {v : State} (hs : Built (list xs)) (hv : Built v) :
      Built (list (xs ++ [v]))
  | setAt {xs ys : List State} {v : State} {i : Nat} (hs : Built (list xs)) (hv : Built v)
      (h : Items.set xs i v = .ok ys) : Built (list ys)
  | removeAt {xs ys : List State} {x : State} {i : Nat} (hs : Built (list xs))
      (h : Items.remove xs i = .ok (x, ys)) : Built (list ys)
  -- edits through a view and along a path
  | setItem {s t v : State} {i : Nat} (hs : Built s) (hv : Built v) (h : s.setItem i v = .ok t) :
      Built t
  | setField {s t v : State} {name : String} (hs : Built s) (hv : Built v)
      (h : s.setField name v = .ok t) : Built t
  | assign {r v : State} (p : Path) (hr : Built r) (hv : Built v) : Built (p.assign r v).1
  | setAtPath {r t v : State} {a : Address} (hr : Built r) (hv : Built v)
      (h : r.setAtPath a v = .ok t) : Built t
  -- parts, and what readers give
  | part {s x : State} (hs : Built s) (hx : x ∈ s.entries) : Built x
  | decode {bytes : Bytes} {s : State} (h : decode bytes = .ok s) : Built s
  | ofJson {j : Json} {s : State} (h : ofJson j = .ok s) : Built s
  | ofJsonText {text : String} {s : State} (h : ofJsonText text = .ok s) : Built s

/-! ## Edits -/

section Edits

variable {s t v : State}

theorem distinctNames_setItem {i : Nat} (hs : s.Every DistinctNames) (hv : v.Every DistinctNames)
    (h : s.setItem i v = .ok t) : t.Every DistinctNames := by
  cases s with
  | list xs =>
    rw [setItem] at h
    cases hset : Items.set xs i v with
    | error e =>
      rw [hset] at h
      cases h
    | ok ys =>
      obtain ⟨-, rfl⟩ := Items.set_eq_ok_iff.1 hset
      rw [hset] at h
      cases h
      exact every_list_set hs hv trivial
  | composite c =>
    cases h
    exact (every_leaf_iff rfl).2 trivial
  | _ => cases h

theorem distinctNames_setField {name : String} (hs : s.Every DistinctNames)
    (hv : v.Every DistinctNames) (h : s.setField name v = .ok t) : t.Every DistinctNames := by
  cases s with
  | object fs =>
    cases h
    exact every_object_set hs hv (Fields.nodup_keys_set (every_object_iff.1 hs).1 name v)
  | composite c =>
    cases h
    exact (every_leaf_iff rfl).2 trivial
  | _ => cases h

theorem distinctNames_assign {p : Path} (hs : s.Every DistinctNames)
    (hv : v.Every DistinctNames) : (p.assign s v).1.Every DistinctNames := by
  cases hr : (p.assign s v).2 with
  | error e => rwa [Path.assign, assign_of_error hr]
  | ok => exact Path.distinctNames_set hs hv (Path.assign_eq_ok_iff.1 (Prod.ext rfl hr))

theorem distinctNames_setAtPath {a : Address} (hs : s.Every DistinctNames)
    (hv : v.Every DistinctNames) (h : s.setAtPath a v = .ok t) : t.Every DistinctNames := by
  obtain ⟨p, -, hset⟩ := bind_eq_ok_iff.1 h
  exact Path.distinctNames_set hs hv hset

end Edits

/-! ## Documents -/

/-- The names of the node differ, and its parts are read from documents. -/
def OfDocuments (s : State) : Prop :=
  s.DistinctNames ∧ ∀ x ∈ s.entries, ∃ j, ofJson j = .ok x

theorem ofDocuments_leaf {s : State} (hd : s.DistinctNames) (h : s.entries = []) :
    s.OfDocuments := by
  refine ⟨hd, ?_⟩
  rw [h]
  simp

theorem ofDocuments_of_ofJson {j : Json} {s : State} (h : ofJson j = .ok s) : s.OfDocuments := by
  cases j with
  | array js =>
    rw [ofJson] at h
    split at h <;> cases h
    next xs hjs =>
    refine ⟨trivial, fun x hx => ?_⟩
    obtain ⟨j, -, hj⟩ := exists_of_mem_itemsOfJson hjs hx
    exact ⟨j, hj⟩
  | object ms =>
    rw [ofJson] at h
    split at h <;> cases h
    next fs hms =>
    refine ⟨Fields.nodup_keys_ofPairs fs, fun x hx => ?_⟩
    obtain ⟨f, hf, rfl⟩ := List.mem_map.1 hx
    obtain ⟨m, -, -, hj⟩ := exists_of_mem_fieldsOfJson hms (Fields.mem_of_mem_ofPairs hf)
    exact ⟨m.2, hj⟩
  | number x =>
    rw [ofJson] at h
    obtain ⟨n, rfl⟩ | ⟨n, rfl⟩ | ⟨y, rfl⟩ := ofNumber_cases h
    all_goals exact ofDocuments_leaf trivial rfl
  | null => cases h
  | bool b | string s =>
    cases h
    exact ofDocuments_leaf trivial rfl

theorem distinctNames_of_ofJson {j : Json} {s : State} (h : ofJson j = .ok s) :
    s.Every DistinctNames := by
  refine every_of_inherited (q := fun s => ∃ j, ofJson j = .ok s) ?_ ?_ ⟨j, h⟩
  · rintro s ⟨j, hj⟩
    exact (ofDocuments_of_ofJson hj).1
  · rintro s ⟨j, hj⟩
    exact (ofDocuments_of_ofJson hj).2

/-! ## Trees built from nothing -/

theorem distinctNames_of_built {s : State} (h : s.Built) : s.Every DistinctNames := by
  induction h with
  | bool b | int n | long n | float x | double x | string s | composite c =>
    exact (every_leaf_iff rfl).2 trivial
  | ofItems _ ih => exact every_list_iff.2 ⟨trivial, ih⟩
  | @ofPairs pairs _ ih =>
    refine every_object_iff.2 ⟨Fields.nodup_keys_ofPairs pairs, fun f hf => ?_⟩
    exact ih f (Fields.mem_of_mem_ofPairs hf)
  | @serializeMap _ _ _ ctx entries _ ih =>
    refine every_object_iff.2 ⟨Fields.nodup_keys_ofPairs _, fun f hf => ?_⟩
    obtain ⟨e, he, rfl⟩ := List.mem_map.1 (Fields.mem_of_mem_ofPairs hf)
    exact ih e he
  | setName name _ _ ihs ihv =>
    exact every_object_set ihs ihv (Fields.nodup_keys_set (every_object_iff.1 ihs).1 name _)
  | setNewList name _ ih =>
    exact every_object_set ih ((every_leaf_iff rfl).2 trivial)
      (Fields.nodup_keys_set (every_object_iff.1 ih).1 name _)
  | setNewObject name _ ih =>
    exact every_object_set ih ((every_leaf_iff rfl).2 List.nodup_nil)
      (Fields.nodup_keys_set (every_object_iff.1 ih).1 name _)
  | eraseName name _ ih =>
    obtain ⟨hn, hf⟩ := every_object_iff.1 ih
    refine every_object_iff.2 ⟨Fields.nodup_keys_erase hn name, fun f hmem => ?_⟩
    exact hf f ((Fields.erase_sublist _ name).subset hmem)
  | add _ _ ihs ihv =>
    refine every_list_iff.2 ⟨trivial, fun x hx => ?_⟩
    rcases List.mem_append.1 hx with hx | hx
    · exact (every_list_iff.1 ihs).2 x hx
    · exact List.mem_singleton.1 hx ▸ ihv
  | setAt _ _ h ihs ihv =>
    obtain ⟨-, rfl⟩ := Items.set_eq_ok_iff.1 h
    exact every_list_set ihs ihv trivial
  | removeAt _ h ih =>
    obtain ⟨-, rfl⟩ := Items.remove_eq_ok_iff.1 h
    refine every_list_iff.2 ⟨trivial, fun x hx => ?_⟩
    exact (every_list_iff.1 ih).2 x (List.mem_of_mem_eraseIdx hx)
  | setItem _ _ h ihs ihv => exact distinctNames_setItem ihs ihv h
  | setField _ _ h ihs ihv => exact distinctNames_setField ihs ihv h
  | assign p _ _ ihr ihv => exact distinctNames_assign ihr ihv
  | setAtPath _ _ h ihr ihv => exact distinctNames_setAtPath ihr ihv h
  | part _ hx ih => exact (every_iff.1 ih).2 _ hx
  | decode h => exact (storable_of_decode h).1
  | ofJson h => exact distinctNames_of_ofJson h
  | ofJsonText h =>
    obtain ⟨j, -, hj⟩ := ofJsonText_eq_ok_iff.1 h
    exact distinctNames_of_ofJson hj

/-! ## What is listed is found -/

theorem nodup_names_of_distinctNames {s : State} (h : s.DistinctNames) :
    (Fields.keys s.fields).Nodup := by
  cases s with
  | object fs => exact h
  | composite c => exact keys_fields_composite c ▸ c.nodup_names
  | _ => exact List.nodup_nil

/-- A field of the object view is found under its name. -/
theorem field_of_mem_fields {s : State} (h : s.DistinctNames) {name : String} {v : State}
    (hf : (name, v) ∈ s.fields) : s.field name = .ok (some v) := by
  have hfound := Fields.get?_of_mem (nodup_names_of_distinctNames h) hf
  cases s with
  | object fs => exact congrArg Except.ok hfound
  | composite c => rw [field_composite, hfound]
  | _ => cases hf

/-- In a tree built from nothing no node has a name twice, at any depth, and each field that a
node lists is found under its name. -/
theorem fields_found_of_built {s : State} (h : s.Built) :
    s.Every fun x => (Fields.keys x.fields).Nodup ∧
      ∀ name v, (name, v) ∈ x.fields → x.field name = .ok (some v) := by
  refine (distinctNames_of_built h).mono ?_
  intro x hx
  refine ⟨nodup_names_of_distinctNames hx, ?_⟩
  intro name v hf
  exact field_of_mem_fields hx hf

/-- A document that repeats a name, and another one in an object inside. -/
def repeatingDocument : Json :=
  .object [("a", .bool true),
    ("b", .object [("c", .array []), ("d", .string "x"), ("c", .bool false)]),
    ("a", .string "y")]

/-- The tree of the document, with a field more in the object inside. -/
def extendedTree : State :=
  object [("a", string "y"),
    ("b", object [("c", bool false), ("d", string "x"), ("e", bool true)])]

theorem fields_found_extendedTree : extendedTree.Built ∧
    extendedTree.Every fun x => (Fields.keys x.fields).Nodup ∧
      ∀ name v, (name, v) ∈ x.fields → x.field name = .ok (some v) := by
  have hread : ofJson repeatingDocument =
      .ok (object [("a", string "y"),
        ("b", object [("c", bool false), ("d", string "x")])]) := by cbv
  have hbuilt : extendedTree.Built :=
    .assign ((Path.root.field "b").field "e") (.ofJson hread) (.bool true)
  exact ⟨hbuilt, fields_found_of_built hbuilt⟩

end SaveTree.State
