/-
  One step into a node.

  A step enters the nodes that have its view; on all others it fails with one and the same error,
  for reads and for writes. Behind it the node is a list, an object or a composite, and what a
  write leaves is told for each of them. A composite shows one list of components in both views.
-/
import SaveTree.Fields.Lemmas
import SaveTree.Path.Follow

namespace SaveTree

/-! ## Components -/

namespace Composite

/-- The kind of the components as nodes. -/
def componentKind : Composite → Kind
  | vector2int .. | vector3int .. => .int
  | vector2 .. | vector3 .. | quaternion .. => .float

/-- The position of the component that a step leads to. -/
def slot? (c : Composite) : PathKey → Option Nat
  | .field name => c.position? name
  | .index i => if i.toNat < c.components.length then some i.toNat else none

theorem slot?_index_bind {β : Type} {c : Composite} {i : UInt64} {f : Nat → Option β}
    (h : c.components.length ≤ i.toNat → f i.toNat = none) :
    (c.slot? (.index i) >>= f) = f i.toNat := by
  simp only [slot?]
  by_cases hi : i.toNat < c.components.length
  · rw [if_pos hi]
    rfl
  · rw [if_neg hi]
    exact (h (Nat.le_of_not_lt hi)).symm

theorem slot?_lt {c : Composite} {key : PathKey} {i : Nat} (h : c.slot? key = some i) :
    i < c.components.length := by
  cases key with
  | field name =>
    obtain ⟨hi, -⟩ := List.idxOf?_eq_some_iff.1 h
    rwa [c.length_names] at hi
  | index j =>
    simp only [slot?, Option.ite_none_right_eq_some, Option.some.injEq] at h
    omega

/-- The step leads to a component and the node has the kind of one. -/
def Takes (c : Composite) (key : PathKey) (v : State) : Prop :=
  (c.slot? key).isSome = true ∧ v.kind = c.componentKind

instance (c : Composite) (key : PathKey) (v : State) : Decidable (c.Takes key v) :=
  inferInstanceAs (Decidable (_ ∧ _))

theorem isSome_set (c : Composite) (i : Nat) (x : Component) :
    (c.set i x).isSome = true ↔ i < c.components.length ∧ x.toState.kind = c.componentKind := by
  cases c <;> cases x <;> rcases i with _ | _ | _ | _ | i <;>
    simp [set, components, componentKind, Component.toState, State.kind]

theorem eq_toState_of_kind {c : Composite} {v : State} (h : v.kind = c.componentKind) :
    ∃ x : Component, v = x.toState := by
  cases v with
  | float x => exact ⟨.float x, rfl⟩
  | int n => exact ⟨.int n, rfl⟩
  | composite d => cases c <;> cases d <;> cases h
  | _ => cases c <;> cases h

/-- A node replaces a component exactly if it has the components' kind. -/
theorem isSome_setSlot (c : Composite) (i : Nat) (v : State) :
    (c.setSlot i v).isSome = true ↔ i < c.components.length ∧ v.kind = c.componentKind := by
  unfold setSlot
  refine ⟨fun h => ?_, fun hy => ?_⟩
  · obtain ⟨d, hd⟩ := Option.isSome_iff_exists.1 h
    obtain ⟨x, hx, hs⟩ := Option.bind_eq_some_iff.1 hd
    obtain rfl := State.component?_eq_some_iff.1 hx
    exact (c.isSome_set i x).1 (by rw [hs]; rfl)
  · obtain ⟨hi, hk⟩ := hy
    obtain ⟨x, rfl⟩ := eq_toState_of_kind hk
    rw [State.component?_toState]
    exact (c.isSome_set i x).2 ⟨hi, hk⟩

theorem setSlot_of_length_le (c : Composite) {i : Nat} (h : c.components.length ≤ i) (v : State) :
    c.setSlot i v = none := by
  rw [← Option.not_isSome_iff_eq_none, isSome_setSlot]
  omega

theorem setSlot_toState (c : Composite) (i : Nat) (x : Component) :
    c.setSlot i x.toState = c.set i x := by
  rw [setSlot, State.component?_toState]
  rfl

theorem set_of_get? {c : Composite} {i : Nat} {x : Component} (h : c.get? i = some x) :
    c.set i x = some c := by
  cases c <;> rcases i with _ | _ | _ | _ | i <;> cases h <;> rfl

theorem names_eq_of_kind {c d : Composite} (h : d.kind = c.kind) : d.names = c.names := by
  cases c <;> cases d <;> first | rfl | cases h

theorem slot?_eq_of_kind {c d : Composite} (h : d.kind = c.kind) (key : PathKey) :
    d.slot? key = c.slot? key := by
  cases key with
  | field name => simp only [slot?, position?, names_eq_of_kind h]
  | index i => simp only [slot?, ← length_names, names_eq_of_kind h]

theorem componentKind_eq_of_kind {c d : Composite} (h : d.kind = c.kind) :
    d.componentKind = c.componentKind := by
  cases c <;> cases d <;> first | rfl | cases h

end Composite

/-! ## Nodes with a view -/

/-- The step applies to nodes of this shape. -/
def PathKey.Enters (key : PathKey) (s : State) : Prop :=
  match key with
  | .field _ => s.shape.isObjectLike = true
  | .index _ => s.shape.isListLike = true

/-- The error of a step whose child is not there. -/
def PathKey.undefined : PathKey → Error
  | .field name => .undefinedField name
  | .index i => .undefinedItem i.toNat

namespace State

theorem enters_iff {key : PathKey} {s : State} :
    key.Enters s ↔ (∃ fs name, s = object fs ∧ key = .field name) ∨
      (∃ xs i, s = list xs ∧ key = .index i) ∨ ∃ c, s = composite c := by
  refine ⟨fun h => ?_, fun hx => ?_⟩
  · cases s with
    | object fs =>
      cases key with
      | field name => exact Or.inl ⟨fs, name, rfl, rfl⟩
      | index i => cases h
    | list xs =>
      cases key with
      | field name => cases h
      | index i => exact Or.inr (Or.inl ⟨xs, i, rfl, rfl⟩)
    | composite c => exact Or.inr (Or.inr ⟨c, rfl⟩)
    | _ => cases key <;> cases h
  · obtain ⟨fs, name, rfl, rfl⟩ | ⟨xs, i, rfl, rfl⟩ | ⟨c, rfl⟩ := hx
    · rfl
    · rfl
    · cases key <;> cases c <;> rfl

theorem shape_composite (c : Composite) : (composite c).shape = .composite := by
  cases c <;> rfl

theorem enters_composite (key : PathKey) (c : Composite) : key.Enters (composite c) :=
  enters_iff.2 (Or.inr (Or.inr ⟨c, rfl⟩))

theorem not_enters_toState (key : PathKey) (x : Component) : ¬ key.Enters x.toState := by
  rw [enters_iff]
  rintro (⟨_, _, h, -⟩ | ⟨_, _, h, -⟩ | ⟨_, h⟩) <;> cases x <;> cases h

theorem child_of_not_enters {s : State} {key : PathKey} (h : ¬ key.Enters s) :
    s.child key = .error (.shapeMismatch key.expectedShape s.kind) := by
  rw [enters_iff] at h
  cases s <;> cases key <;> first | rfl | simp at h

theorem store_of_not_enters {s : State} {key : PathKey} (h : ¬ key.Enters s) (v : State) :
    s.store key v = .error (.shapeMismatch key.expectedShape s.kind) := by
  rw [enters_iff] at h
  cases s <;> cases key <;> first | rfl | simp at h

/-- The child of a node with the view that the step asks for. -/
def at? (s : State) (key : PathKey) : Option State :=
  match s, key with
  | object fs, .field name => Fields.get? fs name
  | list xs, .index i => xs[i.toNat]?
  | composite c, key => (c.slot? key >>= c.get?).map Component.toState
  | _, _ => none

theorem child_of_enters {s : State} {key : PathKey} (h : key.Enters s) :
    s.child key = (s.at? key).elim (.error key.undefined) .ok := by
  obtain ⟨fs, name, rfl, rfl⟩ | ⟨xs, i, rfl, rfl⟩ | ⟨c, rfl⟩ := enters_iff.1 h
  · simp only [child, field, at?]
    cases Fields.get? fs name <;> rfl
  · simp only [child, item, at?]
    cases xs[i.toNat]? <;> rfl
  · cases key with
    | field name =>
      simp only [child, field, at?, Composite.named?, Composite.slot?]
      cases c.position? name >>= c.get? <;> rfl
    | index i =>
      have hi : c.components.length ≤ i.toNat → c.get? i.toNat = none := List.getElem?_eq_none
      simp only [child, item, at?]
      rw [Composite.slot?_index_bind hi]
      cases c.get? i.toNat <;> rfl

theorem store_object (fs : Fields State) (name : String) (v : State) :
    (object fs).store (.field name) v = .ok (object (Fields.set fs name v)) :=
  rfl

theorem store_list (xs : List State) (i : UInt64) (v : State) :
    (list xs).store (.index i) v =
      if i.toNat < xs.length then .ok (list (xs.set i.toNat v))
      else .error (.outOfBounds i.toNat xs.length) := by
  unfold store setItem Items.set
  by_cases h : i.toNat < xs.length <;> simp [h, Except.map]

theorem store_composite (c : Composite) (key : PathKey) (v : State) :
    (composite c).store key v =
      .ok (composite ((c.slot? key >>= fun i => c.setSlot i v).getD c)) := by
  cases key with
  | field name => rfl
  | index i => rw [Composite.slot?_index_bind fun h => c.setSlot_of_length_le h v]; rfl

/-! ## The two views of a composite -/

theorem item_composite (c : Composite) (i : Nat) :
    (composite c).item i = .ok (composite c).items[i]? := by
  rw [item, items, List.getElem?_map, Composite.get?]

theorem fields_composite (c : Composite) :
    (composite c).fields = c.names.zip (composite c).items := by
  rw [fields, items, Composite.fields, List.zip_map_right]
  rfl

theorem keys_fields_composite (c : Composite) : Fields.keys (composite c).fields = c.names := by
  have hl : c.names.length ≤ (composite c).items.length := by simp [items, c.length_names]
  rw [fields_composite, Fields.keys, List.map_fst_zip hl]

theorem field_composite (c : Composite) (name : String) :
    (composite c).field name = .ok (Fields.get? (composite c).fields name) := by
  rw [fields_composite, Fields.get?_zip, field, Composite.named?, items, Composite.position?]
  cases c.names.idxOf? name with
  | none => rfl
  | some i => exact congrArg Except.ok List.getElem?_map.symm

/-- A composite is its kind and its items. -/
theorem eq_of_items {c d : Composite} (hk : d.kind = c.kind)
    (h : (composite d).items = (composite c).items) : d = c := by
  have hinj : ∀ x y : Component, x.toState = y.toState → x = y := by
    intro x y hxy
    rw [← Option.some_inj, ← component?_toState x, ← component?_toState y, hxy]
  have hc : d.components = c.components := (List.map_inj_right hinj).1 h
  have hd := Composite.ofComponents?_eq_some_iff.2 ⟨hk, hc⟩
  rw [Composite.ofComponents?_eq_some_iff.2 ⟨rfl, rfl⟩] at hd
  exact (Option.some.inj hd).symm

theorem items_set {c d : Composite} {i : Nat} {x : Component} (h : c.set i x = some d) (j : Nat) :
    (composite d).items[j]? =
      (composite c).items[j]?.map fun y => if i = j then x.toState else y := by
  rw [items, items, Composite.components_set h, List.getElem?_map, List.getElem?_map,
    List.getElem?_set]
  by_cases hj : i = j
  · subst hj
    by_cases hi : i < c.components.length
    · simp [hi]
    · simp [hi]
  · simp only [hj, if_false, Option.map_id']

/-- A write to a composite keeps its kind. It changes one component, if it leads to that one by
`slot` and brings a node of the components' kind, and otherwise nothing. -/
theorem setSlot_getD (c : Composite) (slot : Option Nat) (v : State) :
    ∃ d : Composite, (slot >>= fun i => c.setSlot i v).getD c = d ∧ d.kind = c.kind ∧
      ∀ j : Nat, (composite d).items[j]? = (composite c).items[j]?.map fun x =>
        if slot = some j ∧ v.kind = c.componentKind then v else x := by
  cases hset : slot >>= fun i => c.setSlot i v with
  | some d =>
    obtain ⟨i, rfl, hd⟩ := Option.bind_eq_some_iff.1 hset
    obtain ⟨-, hv⟩ := (c.isSome_setSlot i v).1 (by rw [hd]; rfl)
    obtain ⟨x, rfl⟩ := Composite.eq_toState_of_kind hv
    rw [c.setSlot_toState] at hd
    refine ⟨d, rfl, Composite.kind_set hd, ?_⟩
    intro j
    simp only [items_set hd j, Option.some.injEq, hv, and_true]
  | none =>
    refine ⟨c, rfl, rfl, ?_⟩
    intro j
    cases hx : (composite c).items[j]? with
    | none => rfl
    | some x =>
      have hno : ¬ (slot = some j ∧ v.kind = c.componentKind) := by
        rintro ⟨rfl, hv⟩
        obtain ⟨hj, -⟩ := List.getElem?_eq_some_iff.1 hx
        rw [items, List.length_map] at hj
        have hs := (c.isSome_setSlot j v).2 ⟨hj, hv⟩
        rw [Option.bind_eq_bind, Option.bind_some] at hset
        rw [hset] at hs
        cases hs
      rw [Option.map_some, if_neg hno]

/-! ## Writing a child -/

/-- A write fails where the view is missing and behind the end of a list, and nowhere else. -/
theorem store_eq_error_iff {s : State} {key : PathKey} {v : State} {e : Error} :
    s.store key v = .error e ↔
      (¬ key.Enters s ∧ e = .shapeMismatch key.expectedShape s.kind) ∨
        ∃ xs i, s = list xs ∧ key = .index i ∧ xs.length ≤ i.toNat ∧
          e = .outOfBounds i.toNat xs.length := by
  by_cases hk : key.Enters s
  · rw [or_iff_right fun h => h.1 hk]
    obtain ⟨fs, name, rfl, rfl⟩ | ⟨xs, i, rfl, rfl⟩ | ⟨c, rfl⟩ := enters_iff.1 hk
    · simp [store, setField]
    · rw [store_list]
      by_cases hi : i.toNat < xs.length
      · have : ¬ xs.length ≤ i.toNat := by omega
        simp [hi, this]
      · have : xs.length ≤ i.toNat := by omega
        simp [hi, this, eq_comm]
    · simp [store_composite]
  · rw [store_of_not_enters hk, Except.error.injEq, eq_comm]
    refine ⟨fun h => ?_, fun hx => ?_⟩
    · exact Or.inl ⟨hk, h⟩
    · obtain ⟨-, h⟩ | ⟨xs, i, rfl, rfl, -, -⟩ := hx
      · exact h
      · exact absurd rfl hk

theorem enters_of_store {s t v : State} {key : PathKey} (h : s.store key v = .ok t) :
    key.Enters s := by
  apply Classical.byContradiction
  intro hk
  rw [store_of_not_enters hk] at h
  cases h

theorem enters_of_child {s c : State} {key : PathKey} (h : s.child key = .ok c) :
    key.Enters s := by
  apply Classical.byContradiction
  intro hk
  rw [child_of_not_enters hk] at h
  cases h

theorem at?_of_child {s c : State} {key : PathKey} (h : s.child key = .ok c) :
    s.at? key = some c := by
  rw [child_of_enters (enters_of_child h)] at h
  cases hc : s.at? key with
  | none => rw [hc] at h; cases h
  | some d => rw [hc] at h; cases h; rfl

/-- Where the view is there, a read fails for want of a child only. -/
theorem at?_of_child_error {s : State} {key : PathKey} {e : Error} (hk : key.Enters s)
    (h : s.child key = .error e) : s.at? key = none ∧ e = key.undefined := by
  rw [child_of_enters hk] at h
  cases hc : s.at? key with
  | none => rw [hc] at h; cases h; exact ⟨rfl, rfl⟩
  | some d => rw [hc] at h; cases h

theorem child_of_at? {s c : State} {key : PathKey} (hk : key.Enters s)
    (h : s.at? key = some c) : s.child key = .ok c := by
  rw [child_of_enters hk, h]
  rfl

theorem exists_component_of_child {s c : State} {key : PathKey} (hs : s.shape = .composite)
    (h : s.child key = .ok c) : ∃ x : Component, c = x.toState := by
  obtain ⟨fs, name, rfl, rfl⟩ | ⟨xs, i, rfl, rfl⟩ | ⟨d, rfl⟩ := enters_iff.1 (enters_of_child h)
  · cases hs
  · cases hs
  · obtain ⟨x, -, rfl⟩ := Option.map_eq_some_iff.1 (at?_of_child h)
    exact ⟨x, rfl⟩

/-- A child that is there can be written. -/
theorem store_of_child {s c : State} {key : PathKey} (h : s.child key = .ok c) (v : State) :
    ∃ t, s.store key v = .ok t := by
  cases hs : s.store key v with
  | ok t => exact ⟨t, rfl⟩
  | error e =>
    have hc := at?_of_child h
    obtain ⟨hk, -⟩ | ⟨xs, i, rfl, rfl, hi, -⟩ := store_eq_error_iff.1 hs
    · exact absurd (enters_of_child h) hk
    · rw [at?, List.getElem?_eq_none hi] at hc
      cases hc

/-- Writing back the child that is there changes nothing. -/
theorem store_child {s c : State} {key : PathKey} (h : s.child key = .ok c) :
    s.store key c = .ok s := by
  have hc := at?_of_child h
  obtain ⟨fs, name, rfl, rfl⟩ | ⟨xs, i, rfl, rfl⟩ | ⟨d, rfl⟩ := enters_iff.1 (enters_of_child h)
  · rw [at?] at hc
    rw [store_object, Fields.set_of_get? hc]
  · rw [at?] at hc
    obtain ⟨hi, rfl⟩ := List.getElem?_eq_some_iff.1 hc
    rw [store_list, if_pos hi, List.set_getElem_self]
  · obtain ⟨x, hx, rfl⟩ := Option.map_eq_some_iff.1 hc
    obtain ⟨i, hi, hx⟩ := Option.bind_eq_some_iff.1 hx
    rw [store_composite, hi, Option.bind_eq_bind, Option.bind_some, d.setSlot_toState,
      Composite.set_of_get? hx]
    rfl

/-- A list or an object holds what was written, and a second write takes its place. -/
theorem child_store {s t v : State} {key : PathKey} (h : s.store key v = .ok t)
    (hs : s.shape ≠ .composite) :
    t.child key = .ok v ∧ ∀ w, t.store key w = s.store key w := by
  obtain ⟨fs, name, rfl, rfl⟩ | ⟨xs, i, rfl, rfl⟩ | ⟨d, rfl⟩ :=
    enters_iff.1 (enters_of_store h)
  · rw [store_object, Except.ok.injEq] at h
    subst h
    refine ⟨child_of_at? rfl ?_, fun w => ?_⟩
    · rw [at?, Fields.get?_set, if_pos rfl]
    · rw [store_object, store_object, Fields.set_set]
  · rw [store_list] at h
    split at h
    · next hi =>
      cases h
      refine ⟨child_of_at? rfl ?_, fun w => ?_⟩
      · rw [at?, List.getElem?_set_self hi]
      · rw [store_list, store_list, List.length_set, List.set_set]
    · cases h
  · exact absurd (shape_composite d) hs

/-- A component of a composite is written, the others stay. -/
theorem store_component {c : Composite} {key : PathKey} {v : State} (h : c.Takes key v) :
    ∃ d, (composite c).store key v = .ok (composite d) ∧ (composite d).child key = .ok v ∧
      d.kind = c.kind ∧ ∀ i, c.slot? key ≠ some i → d.get? i = c.get? i := by
  obtain ⟨hk, hv⟩ := h
  obtain ⟨i, hi⟩ := Option.isSome_iff_exists.1 hk
  have hl := Composite.slot?_lt hi
  obtain ⟨d, hd⟩ := Option.isSome_iff_exists.1 ((c.isSome_setSlot i v).2 ⟨hl, hv⟩)
  obtain ⟨x, rfl⟩ := Composite.eq_toState_of_kind hv
  rw [c.setSlot_toState] at hd
  have hdk := Composite.kind_set hd
  refine ⟨d, ?_, child_of_at? (enters_composite key d) ?_, hdk, fun j hj => ?_⟩
  · rw [store_composite, hi, Option.bind_eq_bind, Option.bind_some, c.setSlot_toState, hd]
    rfl
  · rw [at?, Composite.slot?_eq_of_kind hdk, hi, Option.bind_eq_bind, Option.bind_some,
      Composite.get?, Composite.components_set hd, List.getElem?_set_self hl]
    rfl
  · rw [Composite.get?, Composite.components_set hd, List.getElem?_set_ne]
    · rfl
    · rintro rfl
      exact hj hi

/-- Any other write leaves a composite as it is. -/
theorem store_composite_self {c : Composite} {key : PathKey} {v : State} (h : ¬ c.Takes key v) :
    (composite c).store key v = .ok (composite c) := by
  have hs : (c.slot? key >>= fun i => c.setSlot i v) = none := by
    rw [Option.bind_eq_bind, Option.bind_eq_none_iff]
    intro i hi
    rw [← Option.not_isSome_iff_eq_none, Composite.isSome_setSlot]
    rintro ⟨-, hk⟩
    exact h ⟨by rw [hi]; rfl, hk⟩
  rw [store_composite, hs]
  rfl

end State

end SaveTree
