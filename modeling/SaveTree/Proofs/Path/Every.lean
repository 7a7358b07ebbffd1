/-
  Conditions on nodes that writes keep.

  A write brings new nodes to a tree only from the value, and of the nodes that were there it
  changes those above its path only, by one `store` each. So a condition holds of every node
  afterwards if it held before, holds in the value and is kept by a store (`every_set`).
-/
import SaveTree.Proofs.Path.Write
import SaveTree.Proofs.State.Tree

namespace SaveTree

namespace State

variable {cond : State → Prop} {s t v c : State} {key : PathKey}

theorem every_child (hc : ∀ x : Component, cond x.toState) (hs : s.Every cond)
    (h : s.child key = .ok c) : c.Every cond := by
  have ha := at?_of_child h
  obtain ⟨fs, name, rfl, rfl⟩ | ⟨xs, i, rfl, rfl⟩ | ⟨d, rfl⟩ := enters_iff.1 (enters_of_child h)
  · exact (every_object_iff.1 hs).2 _ (Fields.mem_of_get? ha)
  · exact (every_list_iff.1 hs).2 c (List.mem_of_getElem? ha)
  · obtain ⟨x, rfl⟩ := exists_component_of_child (shape_composite d) h
    cases x <;> exact (every_leaf_iff rfl).2 (hc _)

/-- Below the written node there are old nodes and those of the value. -/
theorem every_store (hs : s.Every cond) (hv : v.Every cond) (ht : cond t)
    (h : s.store key v = .ok t) : t.Every cond := by
  obtain ⟨fs, name, rfl, rfl⟩ | ⟨xs, i, rfl, rfl⟩ | ⟨d, rfl⟩ := enters_iff.1 (enters_of_store h)
  · cases h
    exact every_object_set hs hv ht
  · rw [store_list] at h
    split at h <;> cases h
    exact every_list_set hs hv ht
  · rw [store_composite] at h
    cases h
    exact (every_leaf_iff rfl).2 ht

/-- Each store at one of the keys keeps the condition. -/
def KeptAt (cond : State → Prop) (keys : List PathKey) : Prop :=
  ∀ key ∈ keys, ∀ s t v : State, s.store key v = .ok t → cond s → cond t

/-- A condition that every list and every composite meets is kept if setting a field keeps it. -/
theorem keptAt_of_fields {keys : List PathKey} (hl : ∀ xs, cond (list xs))
    (hc : ∀ d, cond (composite d))
    (hf : ∀ name, .field name ∈ keys → ∀ (fs : Fields State) (v : State),
      cond (object fs) → cond (object (Fields.set fs name v))) : KeptAt cond keys := by
  intro key hmem s t v h hs
  obtain ⟨fs, name, rfl, rfl⟩ | ⟨xs, i, rfl, rfl⟩ | ⟨d, rfl⟩ := enters_iff.1 (enters_of_store h)
  · cases h
    exact hf name hmem fs v hs
  · rw [store_list] at h
    split at h <;> cases h
    exact hl _
  · rw [store_composite] at h
    cases h
    exact hc _

theorem keptAt_distinctNames (keys : List PathKey) : KeptAt DistinctNames keys :=
  keptAt_of_fields (fun _ => trivial) (fun _ => trivial)
    fun name _ _ v hs => Fields.nodup_keys_set hs name v

end State

namespace Path

variable {cond : State → Prop} {p : Path} {r c t v : State}

theorem every_get (hc : ∀ x : Component, cond x.toState) (hr : r.Every cond)
    (h : p.get r = .ok c) : c.Every cond := by
  induction p generalizing c with
  | root =>
    cases h
    exact hr
  | step q key ih =>
    obtain ⟨d, hd, hdc⟩ := get_step_eq_ok_iff.1 h
    exact State.every_child hc (ih hd) hdc

theorem every_set (hc : ∀ x : Component, cond x.toState) (hk : State.KeptAt cond p.keys)
    (hr : r.Every cond) (hv : v.Every cond) (h : p.set r v = .ok t) : t.Every cond := by
  induction p generalizing v with
  | root =>
    cases h
    exact hv
  | step q key ih =>
    obtain ⟨c, d, hget, hd, ht⟩ := set_step_eq_ok_iff.1 h
    rw [keys_step] at hk
    have hnode := every_get hc hr hget
    have hcond := hk key (by simp) c d v hd (State.every_iff.1 hnode).1
    exact ih (fun k hmem => hk k (List.mem_append_left _ hmem))
      (State.every_store hnode hv hcond hd) ht

/-- A write keeps the names of each object apart. -/
theorem distinctNames_set (hr : r.Every State.DistinctNames) (hv : v.Every State.DistinctNames)
    (h : p.set r v = .ok t) : t.Every State.DistinctNames := by
  have hc : ∀ x : Component, x.toState.DistinctNames := fun x => by cases x <;> trivial
  exact every_set hc (State.keptAt_distinctNames _) hr hv h

end Path

end SaveTree
