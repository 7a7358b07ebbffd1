/-
  How operations change a store.

  A change runs an operation on the first adapter of a name and puts the adapter after it in its
  place. The adapters of other names stay, so what they read can differ only by the disk.
-/
import SaveTree.Proofs.Storage.Adapter
import SaveTree.Storage.Store

namespace SaveTree

namespace Store

variable {s t : Store} {a : Adapter} {name other : String} {i : Nat} {f source target : FileRef}
  {operation : Adapter → Disk → Adapter.Outcome}

/-! ## The adapter of a name -/

theorem adapter_eq_ok_iff :
    s.adapter name = .ok a ↔ s.adapters.find? (·.name = name) = some a := by
  unfold adapter
  cases s.adapters.find? (·.name = name) <;> simp

theorem adapter_eq_error_iff {e : Error} :
    s.adapter name = .error e ↔
      s.adapters.find? (·.name = name) = none ∧ e = .adapterNotFound name := by
  unfold adapter
  cases s.adapters.find? (·.name = name) <;> simp [eq_comm]

theorem name_of_adapter (h : s.adapter name = .ok a) : a.name = name := by
  simpa using List.find?_some (adapter_eq_ok_iff.1 h)

/-- The position of the adapter of a name. -/
def position? (s : Store) (name : String) : Option Nat := s.adapters.findIdx? (·.name = name)

theorem adapter_eq_ok_iff_position : s.adapter name = .ok a ↔
    ∃ i, s.position? name = some i ∧ s.adapters[i]? = some a := by
  rw [adapter_eq_ok_iff, List.find?_eq_bind_findIdx?_getElem?, Option.bind_eq_some_iff]
  rfl

/-- The adapter put in place of the first of its name is the one found by the name. -/
theorem find?_replaceFirst (a : Adapter) (as : List Adapter) (name : String) :
    (replaceFirst a as).find? (·.name = name) =
      if name = a.name then (as.find? (·.name = name)).map fun _ => a
      else as.find? (·.name = name) := by
  induction as with
  | nil => simp [replaceFirst]
  | cons b bs ih =>
    unfold replaceFirst
    split
    · next hb =>
      rw [List.find?_cons, List.find?_cons, hb]
      by_cases hn : name = a.name
      · simp [hn]
      · simp [hn, Ne.symm hn]
    · next hb =>
      rw [List.find?_cons, List.find?_cons, ih]
      by_cases hn : name = a.name
      · simp [hn, hb]
      · simp [hn]

theorem replaceFirst_eq_set {as : List Adapter}
    (h : as.findIdx? (·.name = a.name) = some i) : replaceFirst a as = as.set i a := by
  induction as generalizing i with
  | nil => cases h
  | cons b bs ih =>
    rw [List.findIdx?_cons] at h
    unfold replaceFirst
    by_cases hb : b.name = a.name
    · rw [if_pos (by simpa using hb)] at h
      cases h
      rw [if_pos hb, List.set_cons_zero]
    · rw [if_neg (by simpa using hb)] at h
      obtain ⟨j, hj, rfl⟩ := Option.map_eq_some_iff.1 h
      rw [if_neg hb, List.set_cons_succ, ih hj]

theorem position?_of_names (h : t.adapters.map (·.name) = s.adapters.map (·.name))
    (name : String) : t.position? name = s.position? name := by
  have hnames : ∀ as : List Adapter, as.findIdx? (·.name = name) =
      (as.map (·.name)).findIdx? (· = name) := by
    intro as
    rw [List.findIdx?_map]
    rfl
  rw [position?, position?, hnames, hnames, h]

theorem names_replaceFirst (a : Adapter) (as : List Adapter) :
    (replaceFirst a as).map (·.name) = as.map (·.name) := by
  induction as with
  | nil => rfl
  | cons b bs ih =>
    unfold replaceFirst
    split
    · next hb => rw [List.map_cons, List.map_cons, hb]
    · rw [List.map_cons, List.map_cons, ih]

/-! ## Changes -/

theorem change_of_error {e : Error} (h : s.adapter name = .error e) :
    s.change name operation = (.error e, s) := by
  unfold change
  rw [h]

/-- The result of a change is that of its operation. -/
theorem change_fst (h : s.adapter name = .ok a) :
    (s.change name operation).1 = (operation a s.disk).1 := by
  unfold change
  rw [h]

theorem change_disk (h : s.adapter name = .ok a) :
    (s.change name operation).2.disk = (operation a s.disk).2.2 := by
  unfold change
  rw [h]

/-- A change that keeps the adapter's name gives the name the adapter after the operation and
keeps the adapters of all other names. -/
theorem adapter_change (h : s.adapter name = .ok a)
    (hn : (operation a s.disk).2.1.name = a.name) (other : String) :
    (s.change name operation).2.adapter other =
      if other = name then .ok (operation a s.disk).2.1 else s.adapter other := by
  unfold change
  rw [h]
  dsimp only
  rw [adapter, find?_replaceFirst, hn, name_of_adapter h]
  by_cases ho : other = name
  · rw [if_pos ho, if_pos ho, ho, adapter_eq_ok_iff.1 h, Option.map_some]
  · rw [if_neg ho, if_neg ho]
    rfl

theorem change_snd (h : s.adapter name = .ok a) : (s.change name operation).2 =
    { s with
      adapters := replaceFirst (operation a s.disk).2.1 s.adapters
      disk := (operation a s.disk).2.2 } := by
  unfold change
  rw [h]

theorem position?_change (h : s.adapter name = .ok a) (other : String) :
    (s.change name operation).2.position? other = s.position? other := by
  refine position?_of_names ?_ other
  rw [change_snd h]
  exact names_replaceFirst _ _

/-- A change that keeps the adapter's name puts the adapter after it at the position of that
before. -/
theorem adapters_change (h : s.adapter name = .ok a)
    (hn : (operation a s.disk).2.1.name = a.name) :
    ∃ i, s.position? name = some i ∧ s.adapters[i]? = some a ∧
      (s.change name operation).2.adapters = s.adapters.set i (operation a s.disk).2.1 := by
  obtain ⟨i, hi, ha⟩ := adapter_eq_ok_iff_position.1 h
  refine ⟨i, hi, ha, ?_⟩
  rw [change_snd h]
  refine replaceFirst_eq_set ?_
  rw [hn, name_of_adapter h]
  exact hi

theorem readBytes_of_adapter (h : s.adapter f.adapter = .ok a) :
    s.readBytes f = a.read s.disk f.path := by
  unfold readBytes
  rw [h]
  rfl

theorem readBytes_eq_ok_iff {bytes : Bytes} : s.readBytes f = .ok bytes ↔
    ∃ a, s.adapter f.adapter = .ok a ∧ a.read s.disk f.path = .ok bytes := by
  unfold readBytes
  exact bind_eq_ok_iff

/-- An operation told to the subscribers ends as it would without them. -/
theorem announce_fst (e : Event) (r : Except Error Unit × Store) : (announce e r).1 = r.1 := by
  obtain ⟨_ | _, _⟩ := r <;> rfl

theorem readBytes_announce (e : Event) (r : Except Error Unit × Store) (f : FileRef) :
    (announce e r).2.readBytes f = r.2.readBytes f := by
  obtain ⟨_ | _, _⟩ := r <;> rfl

end Store

end SaveTree
