/-
  Equality of trees as a relation.

  The comparison of two objects looks at the fields of the left one only, and at the number of
  fields of both. Where the names of an object differ this decides a relation that takes both sides
  alike: the same names, and equal values under each of them (`eqv_iff_matches`). What holds of the
  leaves then holds of trees: equality is symmetric and transitive, and a tree equals itself
  exactly if it has no NaN.
-/
import Mathlib.Data.List.Perm.Subperm
import SaveTree.Proofs.State.Reordered
import SaveTree.State.Equality

namespace SaveTree

/-! ## Numbers -/

namespace Binary

variable {f : BinaryFormat}

/-- One of the two zeros. -/
def IsZero (x : Binary f) : Prop := x.magnitude = 0

instance (x : Binary f) : Decidable x.IsZero := inferInstanceAs (Decidable (_ = _))

theorem value?_of_isZero {x : Binary f} (h : x.IsZero) : x.value? = some 0 := by
  have hu : f.units 0 = 0 := by simp [BinaryFormat.units]
  have hn : x.isNaN = false := by simp [isNaN, show x.magnitude = 0 from h]
  simp [value?, hn, show x.magnitude = 0 from h, hu]

theorem eqv_of_isZero {x y : Binary f} (hx : x.IsZero) (hy : y.IsZero) : x.eqv y = true := by
  simp [eqv, value?_of_isZero hx, value?_of_isZero hy]

end Binary

namespace Component

/-- The component is no number. -/
def isNaN : Component → Bool
  | float x => x.isNaN
  | int _ => false

theorem eqv_comm (x y : Component) : x.eqv y = y.eqv x := by
  cases x <;> cases y <;> simp [eqv, Binary.eqv_comm, Bool.beq_comm]

theorem eqv_trans {x y z : Component} (hxy : x.eqv y = true) (hyz : y.eqv z = true) :
    x.eqv z = true := by
  cases x <;> cases y <;> cases hxy' : z <;> simp_all [eqv]
  exact Binary.eqv_trans hxy hyz

theorem eqv_self (x : Component) : x.eqv x = !x.isNaN := by
  cases x with
  | float x => exact x.eqv_self
  | int n => simp [eqv, isNaN]

end Component

namespace Composite

theorem eqv_iff {a b : Composite} : a.eqv b = true ↔ a.kind = b.kind ∧
    ∀ i x y, a.get? i = some x → b.get? i = some y → x.eqv y = true := by
  unfold eqv get?
  rw [Bool.and_eq_true, decide_eq_true_iff, List.all_eq_true]
  refine and_congr_right fun _ => ⟨fun h i x y hx hy => ?_, fun h p hp => ?_⟩
  · exact h (x, y) (List.mem_of_getElem? (List.getElem?_zip_eq_some.2 ⟨hx, hy⟩))
  · obtain ⟨i, hi⟩ := List.mem_iff_getElem?.1 hp
    obtain ⟨hx, hy⟩ := List.getElem?_zip_eq_some.1 hi
    exact h i p.1 p.2 hx hy

theorem eqv_comm (a b : Composite) : a.eqv b = b.eqv a := by
  have h : ∀ {a b : Composite}, a.eqv b = true → b.eqv a = true := by
    intro a b hab
    obtain ⟨hk, hc⟩ := eqv_iff.1 hab
    refine eqv_iff.2 ⟨hk.symm, fun i x y hx hy => ?_⟩
    rw [Component.eqv_comm]
    exact hc i y x hy hx
  exact Bool.eq_iff_iff.2 ⟨h, h⟩

theorem eqv_trans {a b c : Composite} (hab : a.eqv b = true) (hbc : b.eqv c = true) :
    a.eqv c = true := by
  obtain ⟨hk, hab⟩ := eqv_iff.1 hab
  obtain ⟨hk', hbc⟩ := eqv_iff.1 hbc
  refine eqv_iff.2 ⟨hk.trans hk', fun i x z hx hz => ?_⟩
  obtain ⟨hi, -⟩ := List.getElem?_eq_some_iff.1 hx
  rw [length_components, hk, ← length_components] at hi
  have hy : b.get? i = some b.components[i] := List.getElem?_eq_getElem hi
  exact Component.eqv_trans (hab i x _ hx hy) (hbc i _ z hy hz)

theorem eqv_self_iff {a : Composite} : a.eqv a = true ↔ ∀ x ∈ a.components, x.isNaN = false := by
  rw [eqv_iff]
  refine ⟨fun h x hx => ?_, fun h => ⟨rfl, fun i x y hx hy => ?_⟩⟩
  · obtain ⟨i, hi⟩ := List.mem_iff_getElem?.1 hx
    simpa [Component.eqv_self] using h.2 i x x hi hi
  · obtain rfl : x = y := Option.some.inj (hx.symm.trans hy)
    simpa [Component.eqv_self] using h x (List.mem_of_getElem? hx)

end Composite

namespace State

/-! ## Trees of one form -/

/-- The node is neither a list nor an object. -/
def IsLeaf : State → Prop
  | list _ | object _ => False
  | bool _ | int _ | long _ | float _ | double _ | string _ | composite _ => True

/-- Two trees have lists of the same lengths and objects of the same names at the same places,
and at every other place leaves that are related. -/
inductive Matches (leaf : State → State → Prop) : State → State → Prop
  | leaf {s t : State} (hs : s.IsLeaf) (ht : t.IsLeaf) (h : leaf s t) : Matches leaf s t
  | list {xs ys : List State} (length : xs.length = ys.length)
      (items : ∀ (i : Nat) (x y : State), xs[i]? = some x → ys[i]? = some y → Matches leaf x y) :
      Matches leaf (list xs) (list ys)
  | object {fs gs : Fields State} (names : ∀ k, k ∈ Fields.keys fs ↔ k ∈ Fields.keys gs)
      (values : ∀ k x y, Fields.get? fs k = some x → Fields.get? gs k = some y →
        Matches leaf x y) :
      Matches leaf (object fs) (object gs)

section Matches

variable {leaf : State → State → Prop} {a b c : State}

theorem matches_leaf_iff (ha : a.IsLeaf) : a.Matches leaf b ↔ b.IsLeaf ∧ leaf a b := by
  refine ⟨fun h => ?_, fun h => .leaf ha h.1 h.2⟩
  cases h with
  | leaf _ hb h => exact ⟨hb, h⟩
  | list _ _ => exact ha.elim
  | object _ _ => exact ha.elim

theorem matches_list_iff {xs : List State} : (list xs).Matches leaf b ↔
    ∃ ys, b = list ys ∧ xs.length = ys.length ∧ ∀ (i : Nat) (x y : State),
      xs[i]? = some x → ys[i]? = some y → x.Matches leaf y := by
  refine ⟨fun h => ?_, fun h => ?_⟩
  · cases h with
    | leaf hs _ _ => exact hs.elim
    | list hl hx => exact ⟨_, rfl, hl, hx⟩
  · obtain ⟨ys, rfl, hl, hx⟩ := h
    exact .list hl hx

theorem matches_object_iff {fs : Fields State} : (object fs).Matches leaf b ↔
    ∃ gs, b = object gs ∧ (∀ k, k ∈ Fields.keys fs ↔ k ∈ Fields.keys gs) ∧
      ∀ k x y, Fields.get? fs k = some x → Fields.get? gs k = some y → x.Matches leaf y := by
  refine ⟨fun h => ?_, fun h => ?_⟩
  · cases h with
    | leaf hs _ _ => exact hs.elim
    | object hn hv => exact ⟨_, rfl, hn, hv⟩
  · obtain ⟨gs, rfl, hn, hv⟩ := h
    exact .object hn hv

theorem Matches.mono {leaf' : State → State → Prop} (h : a.Matches leaf b)
    (hl : ∀ s t, s.IsLeaf → leaf s t → leaf' s t) : a.Matches leaf' b := by
  induction h with
  | leaf hs ht h => exact .leaf hs ht (hl _ _ hs h)
  | list length _ ih => exact .list length ih
  | object names _ ih => exact .object names ih

theorem Matches.symm (h : a.Matches leaf b) (hl : ∀ s t, s.IsLeaf → leaf s t → leaf t s) :
    b.Matches leaf a := by
  induction h with
  | leaf hs ht h => exact .leaf ht hs (hl _ _ hs h)
  | list length _ ih => exact .list length.symm fun i x y hx hy => ih i y x hy hx
  | object names _ ih =>
    exact .object (fun k => (names k).symm) fun k x y hx hy => ih k y x hy hx

theorem Matches.trans (hab : a.Matches leaf b) (hbc : b.Matches leaf c)
    (hl : ∀ s t u, s.IsLeaf → leaf s t → leaf t u → leaf s u) : a.Matches leaf c := by
  induction hab generalizing c with
  | leaf hs ht h =>
    obtain ⟨hc, hbc⟩ := (matches_leaf_iff ht).1 hbc
    exact .leaf hs hc (hl _ _ _ hs h hbc)
  | @list xs ys length _ ih =>
    obtain ⟨zs, rfl, hlen, hz⟩ := matches_list_iff.1 hbc
    refine .list (length.trans hlen) fun i x z hx hzi => ?_
    obtain ⟨hi, -⟩ := List.getElem?_eq_some_iff.1 hx
    have hy : ys[i]? = some ys[i] := List.getElem?_eq_getElem (length ▸ hi)
    exact ih i x _ hx hy (hz i _ z hy hzi)
  | @object fs gs names _ ih =>
    obtain ⟨hs, rfl, hn, hv⟩ := matches_object_iff.1 hbc
    refine .object (fun k => (names k).trans (hn k)) fun k x z hx hz => ?_
    have hk := (names k).1 (Fields.mem_keys_of_get? hx)
    obtain ⟨y, hy⟩ := Fields.exists_get?_of_mem_keys hk
    exact ih k x y hx hy (hv k y z hy hz)

/-- A tree is related to itself if its leaves are. -/
theorem matches_self_iff (ha : a.Every DistinctNames) :
    a.Matches leaf a ↔ a.Every fun s => s.IsLeaf → leaf s s := by
  induction a with
  | list xs ih =>
    rw [matches_list_iff, every_list_iff]
    refine ⟨fun h => ⟨fun hl => hl.elim, fun x hx => ?_⟩, fun h => ?_⟩
    · obtain ⟨ys, heq, -, hi⟩ := h
      cases heq
      obtain ⟨i, hix⟩ := List.mem_iff_getElem?.1 hx
      exact (ih x hx ((every_list_iff.1 ha).2 x hx)).1 (hi i x x hix hix)
    · refine ⟨xs, rfl, rfl, fun i x y hx hy => ?_⟩
      obtain rfl : x = y := Option.some.inj (hx.symm.trans hy)
      have hmem := List.mem_of_getElem? hx
      exact (ih x hmem ((every_list_iff.1 ha).2 x hmem)).2 (h.2 x hmem)
  | object fs ih =>
    obtain ⟨hn, hf⟩ := every_object_iff.1 ha
    rw [matches_object_iff, every_object_iff]
    refine ⟨fun h => ⟨fun hl => hl.elim, fun f hmem => ?_⟩, fun h => ?_⟩
    · obtain ⟨gs, heq, -, hv⟩ := h
      cases heq
      have hk := Fields.get?_of_mem hn hmem
      exact (ih f hmem (hf f hmem)).1 (hv f.1 f.2 f.2 hk hk)
    · refine ⟨fs, rfl, fun k => Iff.rfl, fun k x y hx hy => ?_⟩
      obtain rfl : x = y := Option.some.inj (hx.symm.trans hy)
      have hmem := Fields.mem_of_get? hx
      exact (ih _ hmem (hf _ hmem)).2 (h.2 _ hmem)
  | _ =>
    rw [every_leaf_iff rfl, matches_leaf_iff]
    · simp [IsLeaf]
    · trivial

end Matches

/-! ## Equality -/

theorem eqvItems_iff {xs ys : List State} : eqvItems xs ys = true ↔
    xs.length = ys.length ∧
      ∀ (i : Nat) (x y : State), xs[i]? = some x → ys[i]? = some y → x.eqv y = true := by
  induction xs generalizing ys with
  | nil => cases ys <;> simp [eqvItems]
  | cons x xs ih =>
    cases ys with
    | nil => simp [eqvItems]
    | cons y ys =>
      rw [eqvItems, Bool.and_eq_true, ih, List.length_cons, List.length_cons, Nat.add_right_cancel_iff]
      refine ⟨fun ⟨hxy, hl, hi⟩ => ⟨hl, fun i => ?_⟩, fun ⟨hl, hi⟩ => ⟨?_, hl, fun i => ?_⟩⟩
      · cases i with
        | zero => simpa using hxy
        | succ i => exact hi i
      · exact hi 0 x y rfl rfl
      · exact hi (i + 1)

theorem eqvFields_iff {fs gs : Fields State} : eqvFields fs (Fields.index gs) = true ↔
    ∀ f ∈ fs, ∃ y, Fields.get? gs f.1 = some y ∧ f.2.eqv y = true := by
  induction fs with
  | nil => simp [eqvFields]
  | cons f fs ih =>
    rw [List.forall_mem_cons, ← ih, eqvFields, Fields.getElem?_index]
    cases Fields.get? gs f.1 <;> simp

theorem keys_of_eqvFields {fs gs : Fields State} (hf : (Fields.keys fs).Nodup)
    (hl : fs.length = gs.length) (h : eqvFields fs (Fields.index gs) = true) :
    (Fields.keys fs).Perm (Fields.keys gs) := by
  have hsub : Fields.keys fs ⊆ Fields.keys gs := by
    intro k hk
    obtain ⟨f, hmem, rfl⟩ := List.mem_map.1 hk
    obtain ⟨y, hy, -⟩ := eqvFields_iff.1 h f hmem
    exact Fields.mem_keys_of_get? hy
  -- as many names on the right, so there are no others
  refine (hf.subperm hsub).perm_of_length_le ?_
  rw [Fields.length_keys, Fields.length_keys]
  exact Nat.le_of_eq hl.symm

theorem eqv_object_iff {fs gs : Fields State} (hf : (Fields.keys fs).Nodup)
    (hg : (Fields.keys gs).Nodup) : (object fs).eqv (object gs) = true ↔
      (∀ k, k ∈ Fields.keys fs ↔ k ∈ Fields.keys gs) ∧
        ∀ k x y, Fields.get? fs k = some x → Fields.get? gs k = some y → x.eqv y = true := by
  rw [eqv, Bool.and_eq_true, beq_iff_eq]
  refine ⟨fun ⟨hl, h⟩ => ⟨fun k => ?_, fun k x y hx hy => ?_⟩, fun ⟨hn, hv⟩ => ⟨?_, ?_⟩⟩
  · exact (keys_of_eqvFields hf hl h).mem_iff
  · obtain ⟨z, hz, hxz⟩ := eqvFields_iff.1 h _ (Fields.mem_of_get? hx)
    obtain rfl : z = y := Option.some.inj (hz.symm.trans hy)
    exact hxz
  · have hp := ((List.perm_ext_iff_of_nodup hf hg).2 hn).length_eq
    rwa [Fields.length_keys, Fields.length_keys] at hp
  · refine eqvFields_iff.2 fun f hmem => ?_
    have hx := Fields.get?_of_mem hf hmem
    obtain ⟨y, hy⟩ := Fields.exists_get?_of_mem_keys ((hn f.1).1 (Fields.mem_keys_of_get? hx))
    exact ⟨y, hy, hv f.1 f.2 y hx hy⟩

theorem kind_of_eqv {s t : State} (h : s.eqv t = true) : s.kind = t.kind := by
  cases s <;> cases t <;> first | rfl | exact (Composite.eqv_iff.1 h).1 | cases h

theorem isLeaf_of_eqv {s t : State} (hs : s.IsLeaf) (h : s.eqv t = true) : t.IsLeaf := by
  cases t with
  | list ys => cases s <;> first | cases h | exact hs.elim
  | object gs => cases s <;> first | cases h | exact hs.elim
  | _ => trivial

/-- Trees of distinct names are equal exactly if they have one form and their leaves are equal. -/
theorem eqv_iff_matches {a b : State} (ha : a.Every DistinctNames) (hb : b.Every DistinctNames) :
    a.eqv b = true ↔ a.Matches (fun s t => s.eqv t = true) b := by
  induction a generalizing b with
  | list xs ih =>
    rw [matches_list_iff]
    cases b with
    | list ys =>
      rw [eqv, eqvItems_iff]
      simp only [list.injEq, exists_eq_left']
      refine and_congr_right fun _ => forall₃_congr fun i x y => ?_
      refine imp_congr_right fun hxi => imp_congr_right fun hyi => ?_
      have hx := List.mem_of_getElem? hxi
      have hy := List.mem_of_getElem? hyi
      exact ih x hx ((every_list_iff.1 ha).2 x hx) ((every_list_iff.1 hb).2 y hy)
    | _ => simp [eqv]
  | object fs ih =>
    rw [matches_object_iff]
    cases b with
    | object gs =>
      obtain ⟨hf, hx⟩ := every_object_iff.1 ha
      obtain ⟨hg, hy⟩ := every_object_iff.1 hb
      rw [eqv_object_iff hf hg]
      simp only [object.injEq, exists_eq_left']
      refine and_congr_right fun _ => forall₃_congr fun k x y => ?_
      refine imp_congr_right fun hxk => imp_congr_right fun hyk => ?_
      have hmem := Fields.mem_of_get? hxk
      exact ih _ hmem (hx _ hmem) (hy _ (Fields.mem_of_get? hyk))
    | _ => simp [eqv]
  | _ =>
    rw [matches_leaf_iff]
    · exact (and_iff_right_of_imp fun h => isLeaf_of_eqv (by trivial) h).symm
    · trivial

/-! ## The laws of equality -/

/-- The node has no float, and no component, that is a NaN. -/
def NoNaN : State → Prop
  | float x => x.isNaN = false
  | double x => x.isNaN = false
  | composite c => ∀ x ∈ c.components, x.isNaN = false
  | bool _ | int _ | long _ | string _ | list _ | object _ => True

instance : DecidablePred NoNaN
  | float x => inferInstanceAs (Decidable (x.isNaN = false))
  | double x => inferInstanceAs (Decidable (x.isNaN = false))
  | composite c => inferInstanceAs (Decidable (∀ x ∈ c.components, x.isNaN = false))
  | bool _ | int _ | long _ | string _ | list _ | object _ => isTrue trivial

section Laws

variable {a b c : State}

theorem eqv_leaf_symm {s t : State} (hs : s.IsLeaf) (h : s.eqv t = true) : t.eqv s = true := by
  cases s <;> cases t <;> first
    | exact hs.elim
    | cases h
    | exact Bool.beq_comm.trans h
    | exact (Binary.eqv_comm _ _).trans h
    | exact (Composite.eqv_comm _ _).trans h

theorem eqv_leaf_trans {s t u : State} (hs : s.IsLeaf) (hst : s.eqv t = true)
    (htu : t.eqv u = true) : s.eqv u = true := by
  cases s <;> cases t <;> first
    | exact hs.elim
    | cases hst
    | cases u <;> first
      | cases htu
      | exact Binary.eqv_trans hst htu
      | exact Composite.eqv_trans hst htu
      | simp_all [eqv]

theorem eqv_leaf_self_iff {s : State} : (s.IsLeaf → s.eqv s = true) ↔ s.NoNaN := by
  cases s with
  | float x => simp [IsLeaf, eqv, NoNaN, Binary.eqv_self]
  | double x => simp [IsLeaf, eqv, NoNaN, Binary.eqv_self]
  | composite c => simp only [IsLeaf, eqv, NoNaN, Composite.eqv_self_iff, true_imp_iff]
  | _ => simp [IsLeaf, eqv, NoNaN]

theorem eqv_symm (ha : a.Every DistinctNames) (hb : b.Every DistinctNames)
    (h : a.eqv b = true) : b.eqv a = true :=
  (eqv_iff_matches hb ha).2 (((eqv_iff_matches ha hb).1 h).symm fun _ _ => eqv_leaf_symm)

theorem eqv_trans (ha : a.Every DistinctNames) (hb : b.Every DistinctNames)
    (hc : c.Every DistinctNames) (hab : a.eqv b = true) (hbc : b.eqv c = true) :
    a.eqv c = true :=
  (eqv_iff_matches ha hc).2 <| ((eqv_iff_matches ha hb).1 hab).trans
    ((eqv_iff_matches hb hc).1 hbc) fun _ _ _ => eqv_leaf_trans

theorem eqv_self_iff (ha : a.Every DistinctNames) : a.eqv a = true ↔ a.Every NoNaN := by
  rw [eqv_iff_matches ha ha, matches_self_iff ha]
  exact ⟨Every.mono fun s => eqv_leaf_self_iff.1, Every.mono fun s => eqv_leaf_self_iff.2⟩

/-! ## Trees rearranged -/

/-- A float is one of the two zeros and becomes the other one or stays: alone or as a component. -/
inductive ZeroSigned : State → State → Prop
  | float {x y : Binary32} (hx : x.IsZero) (hy : y.IsZero) : ZeroSigned (float x) (float y)
  | double {x y : Binary64} (hx : x.IsZero) (hy : y.IsZero) : ZeroSigned (double x) (double y)
  | component {c d : Composite} {i : Nat} {x y : Binary32} (hc : c.get? i = some (.float x))
      (hx : x.IsZero) (hy : y.IsZero) (hd : c.set i (.float y) = some d) :
      ZeroSigned (composite c) (composite d)

/-- One node is changed without effect on equality: the fields of an object stand in another order
or a zero has another sign. -/
def Turned (s t : State) : Prop := Permuted s t ∨ ZeroSigned s t

/-- The tree with the fields of some objects in another order and some zeros of another sign. -/
def Rearranged : State → State → Prop := Relation.ReflTransGen (Inside Turned)

theorem distinctNames_of_turned {s t : State} (h : Turned s t) (hs : s.Every DistinctNames) :
    t.Every DistinctNames := by
  rcases h with h | h
  · exact distinctNames_of_permuted h hs
  · cases h <;> exact (every_leaf_iff rfl).2 trivial

theorem eqv_of_zeroSigned {s t : State} (h : ZeroSigned s t) (hs : s.Every NoNaN) :
    s.eqv t = true := by
  cases h with
  | float hx hy => exact Binary.eqv_of_isZero hx hy
  | double hx hy => exact Binary.eqv_of_isZero hx hy
  | @component c d i x y hc hx hy hd =>
    have hn : (composite c).NoNaN := (every_leaf_iff rfl).1 hs
    refine Composite.eqv_iff.2 ⟨(Composite.kind_set hd).symm, fun j u v hu hv => ?_⟩
    rw [Composite.get?, Composite.components_set hd] at hv
    by_cases hij : i = j
    · subst hij
      obtain rfl : .float x = u := Option.some.inj (hc.symm.trans hu)
      rw [List.getElem?_set_self (List.getElem?_eq_some_iff.1 hu).1] at hv
      cases hv
      exact Binary.eqv_of_isZero hx hy
    · rw [List.getElem?_set_ne hij] at hv
      obtain rfl : u = v := Option.some.inj (hu.symm.trans hv)
      rw [Component.eqv_self, hn u (List.mem_of_getElem? hu)]
      rfl

theorem eqv_of_permuted {s t : State} (h : Permuted s t) (hd : s.Every DistinctNames)
    (hs : s.Every NoNaN) : s.eqv t = true := by
  have hself := (eqv_iff_matches hd hd).1 ((eqv_self_iff hd).2 hs)
  refine (eqv_iff_matches hd (distinctNames_of_permuted h hd)).2 ?_
  obtain ⟨hp⟩ := h
  obtain ⟨gs, heq, -, hv⟩ := matches_object_iff.1 hself
  cases heq
  refine .object (fun k => (List.Perm.map Prod.fst hp).mem_iff) fun k x y hx hy => ?_
  rw [Fields.get?_of_perm (every_object_iff.1 hd).1 hp] at hy
  exact hv k x y hx hy

theorem eqv_of_inside {s t : State} (h : Inside Turned s t) (hd : s.Every DistinctNames)
    (hs : s.Every NoNaN) : s.eqv t = true := by
  induction h with
  | here h =>
    rcases h with h | h
    · exact eqv_of_permuted h hd hs
    · exact eqv_of_zeroSigned h hs
  | @item xs i x y hx _ ih =>
    have hself : ∀ z ∈ xs, z.eqv z = true := fun z hz =>
      (eqv_self_iff ((every_list_iff.1 hd).2 z hz)).2 ((every_list_iff.1 hs).2 z hz)
    have hmem := List.mem_of_getElem? hx
    rw [eqv, eqvItems_iff, List.length_set]
    refine ⟨rfl, fun j u v hu hv => ?_⟩
    by_cases hij : i = j
    · subst hij
      obtain rfl : x = u := Option.some.inj (hx.symm.trans hu)
      rw [List.getElem?_set_self (List.getElem?_eq_some_iff.1 hu).1] at hv
      cases hv
      exact ih ((every_list_iff.1 hd).2 x hmem) ((every_list_iff.1 hs).2 x hmem)
    · rw [List.getElem?_set_ne hij] at hv
      obtain rfl : u = v := Option.some.inj (hu.symm.trans hv)
      exact hself u (List.mem_of_getElem? hu)
  | @field fs name x y hx _ ih =>
    obtain ⟨hn, hd⟩ := every_object_iff.1 hd
    have hself : ∀ f ∈ fs, f.2.eqv f.2 = true := fun f hf =>
      (eqv_self_iff (hd f hf)).2 ((every_object_iff.1 hs).2 f hf)
    have hmem := Fields.mem_of_get? hx
    rw [eqv_object_iff hn (Fields.nodup_keys_set hn name y), Fields.keys_set,
      if_pos (Fields.mem_keys_of_get? hx)]
    refine ⟨fun k => Iff.rfl, fun k u v hu hv => ?_⟩
    rw [Fields.get?_set] at hv
    split at hv
    · next hk =>
      subst hk
      obtain rfl : x = u := Option.some.inj (hx.symm.trans hu)
      cases hv
      exact ih (hd _ hmem) ((every_object_iff.1 hs).2 _ hmem)
    · obtain rfl : u = v := Option.some.inj (hu.symm.trans hv)
      exact hself _ (Fields.mem_of_get? hu)

/-- A tree without NaN equals each tree that differs from it in the order of fields and the signs
of zeros only. -/
theorem eqv_of_rearranged {t : State} (ha : a.Every DistinctNames) (hn : a.Every NoNaN)
    (h : a.Rearranged t) : t.Every DistinctNames ∧ a.eqv t = true := by
  induction h with
  | refl => exact ⟨ha, (eqv_self_iff ha).2 hn⟩
  | tail _ hstep ih =>
    obtain ⟨hb, hab⟩ := ih
    -- what equals some tree equals itself, so it has no NaN either
    have hbb := eqv_trans hb ha hb (eqv_symm ha hb hab) hab
    have hc := distinctNames_of_inside (fun _ _ => distinctNames_of_turned) hstep hb
    exact ⟨hc, eqv_trans ha hb hc hab (eqv_of_inside hstep hb ((eqv_self_iff hb).1 hbb))⟩

/-- Equality of trees of distinct names is symmetric and transitive, and a tree equals itself
exactly if it has no NaN. Then it also equals each tree that has the fields of its objects in
another order and its zeros of another sign. Equal trees have the same kinds, lists of the same
lengths and objects of the same names at the same places. -/
theorem eqv_partial_equivalence (ha : a.Every DistinctNames) (hb : b.Every DistinctNames)
    (hc : c.Every DistinctNames) :
    (a.eqv b = true → b.eqv a = true) ∧
    (a.eqv b = true → b.eqv c = true → a.eqv c = true) ∧
    (a.eqv a = true ↔ a.Every NoNaN) ∧
    (a.Every NoNaN → ∀ t, a.Rearranged t → a.eqv t = true) ∧
    (a.eqv b = true → a.Matches (fun s t => s.kind = t.kind) b) := by
  refine ⟨eqv_symm ha hb, eqv_trans ha hb hc, eqv_self_iff ha, fun hn t ht => ?_, fun h => ?_⟩
  · exact (eqv_of_rearranged ha hn ht).2
  · exact ((eqv_iff_matches ha hb).1 h).mono fun _ _ _ => kind_of_eqv

end Laws

/-- A tree with two zeros. -/
def zeroTree : State :=
  .object [("hp", .double ⟨0x0#64⟩),
    ("at", .composite (.vector2 ⟨0x3F800000#32⟩ ⟨0x80000000#32⟩))]

/-- The same fields in another order, and the zero of the vector without its sign. -/
def turnedTree : State :=
  .object [("at", .composite (.vector2 ⟨0x3F800000#32⟩ ⟨0x0#32⟩)), ("hp", .double ⟨0x0#64⟩)]

/-- A tree with a NaN deep inside, so it differs from itself. -/
def oddTree : State := .list [.object [("at", .composite (.vector2 ⟨0x0#32⟩ ⟨0x7FC00001#32⟩))]]

theorem rearranged_zeroTree : zeroTree.Rearranged turnedTree := by
  refine .tail (.single (.here (.inl (.object (List.Perm.swap _ _ _))))) ?_
  have hat : ZeroSigned (.composite (.vector2 ⟨0x3F800000#32⟩ ⟨0x80000000#32⟩))
      (.composite (.vector2 ⟨0x3F800000#32⟩ ⟨0x0#32⟩)) :=
    .component (i := 1) rfl (by decide +kernel) (by decide +kernel) rfl
  exact @Inside.field Turned _ "at" _ _ rfl (.here (.inr hat))

theorem eqv_partial_equivalence_zeroTree :
    zeroTree.eqv turnedTree = true ∧ turnedTree.eqv zeroTree = true ∧
      ¬ oddTree.eqv oddTree = true ∧ zeroTree.Matches (fun s t => s.kind = t.kind) turnedTree := by
  have hz : zeroTree.Every DistinctNames := by decide
  have ht : turnedTree.Every DistinctNames := by decide
  have hn : oddTree.Every DistinctNames := by decide
  obtain ⟨hsymm, -, -, hturned, hform⟩ := eqv_partial_equivalence hz ht hn
  obtain ⟨-, -, hself, -, -⟩ := eqv_partial_equivalence hn hz ht
  have heq := hturned (by decide +kernel) turnedTree rearranged_zeroTree
  exact ⟨heq, hsymm heq, mt hself.1 (by decide +kernel), hform heq⟩

end State

end SaveTree
