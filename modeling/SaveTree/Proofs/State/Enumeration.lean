/-
  Enumeration at a path.

  The children of a node can be listed by its views and can be reached one by one, by a path that
  goes one step further. Both find the same children in the same order, so what an enumeration
  at a path gives is told by reads at longer paths alone. A test is taken with all its effects: it
  is asked once for each candidate, in order (`filterM_eq`), and for nothing else.
-/
import SaveTree.Proofs.State.Built

namespace SaveTree

/-! ## Children by position and by name -/

namespace State

theorem toOption_child_index (s : State) (i : UInt64) :
    (s.child (.index i)).toOption = s.items[i.toNat]? := by
  cases s with
  | list xs =>
    simp only [child, item, items]
    cases xs[i.toNat]? <;> rfl
  | composite c =>
    simp only [child, item_composite]
    cases (composite c).items[i.toNat]? <;> rfl
  | _ => rfl

theorem toOption_child_field (s : State) (name : String) :
    (s.child (.field name)).toOption = Fields.get? s.fields name := by
  cases s with
  | object fs =>
    simp only [child, field, fields]
    cases Fields.get? fs name <;> rfl
  | composite c =>
    simp only [child, field_composite]
    cases Fields.get? (composite c).fields name <;> rfl
  | _ => rfl

end State

namespace Path

variable {p : Path} {r node : State}

/-- The nodes at the indexes from `first` on, up to the first that fails. -/
def itemsFrom (p : Path) (r : State) (first : Nat) : List State :=
  if first < 2 ^ 64 then
    match (p.index (UInt64.ofNat first)).get r with
    | .ok x => x :: p.itemsFrom r (first + 1)
    | .error _ => []
  else []
termination_by 2 ^ 64 - first

/-- The nodes in the fields of the names, each under its name. -/
def fieldsOf (p : Path) (r : State) (names : List String) : Fields State :=
  Fields.ofNames (fun name => ((p.field name).get r).toOption) names

theorem get_index_of_get (h : p.get r = .ok node) (i : UInt64) :
    (p.index i).get r = node.child (.index i) := by
  rw [index, get_step, h]
  rfl

theorem get_field_of_get (h : p.get r = .ok node) (name : String) :
    (p.field name).get r = node.child (.field name) := by
  rw [field, get_step, h]
  rfl

theorem toOption_get_index (h : p.get r = .ok node) {i : Nat} (hi : i < 2 ^ 64) :
    ((p.index (UInt64.ofNat i)).get r).toOption = node.items[i]? := by
  rw [get_index_of_get h, State.toOption_child_index, UInt64.toNat_ofNat_of_lt' hi]

theorem itemsFrom_eq (h : p.get r = .ok node) (hl : node.items.length ≤ 2 ^ 64) (first : Nat) :
    p.itemsFrom r first = node.items.drop first := by
  fun_induction itemsFrom p r first with
  | case1 first hlt x hx ih =>
    have hat := toOption_get_index h hlt
    rw [hx] at hat
    obtain ⟨hi, hx⟩ := List.getElem?_eq_some_iff.1 hat.symm
    rw [ih, List.drop_eq_getElem_cons hi, hx]
  | case2 first hlt e he =>
    have hat := toOption_get_index h hlt
    rw [he] at hat
    exact (List.drop_eq_nil_of_le (List.getElem?_eq_none_iff.1 hat.symm)).symm
  | case3 first hge => exact (List.drop_eq_nil_of_le (by omega)).symm

theorem fieldsOf_eq (h : p.get r = .ok node) (hn : node.DistinctNames) :
    p.fieldsOf r (Fields.keys node.fields) = node.fields := by
  refine Fields.ofNames_keys fun k v hf => ?_
  rw [get_field_of_get h, State.toOption_child_field]
  exact Fields.get?_of_mem (State.nodup_names_of_distinctNames hn) hf

end Path

/-! ## Tests with effects -/

section Tests

variable {m : Type → Type} [Monad m] [LawfulMonad m] {α : Type}

/-- The values that were accepted. -/
def accepted (xs : List α) (answers : List Bool) : List α :=
  ((xs.zip answers).filter (·.2)).map (·.1)

theorem filterAuxM_eq (test : α → m Bool) (xs acc : List α) :
    List.filterAuxM test xs acc =
      (fun answers => (accepted xs answers).reverse ++ acc) <$> xs.mapM test := by
  induction xs generalizing acc with
  | nil => simp [List.filterAuxM, accepted]
  | cons x xs ih =>
    simp only [List.filterAuxM, List.mapM_cons, ih, map_bind]
    congr 1
    funext b
    cases b <;> simp [accepted]

theorem filterM_eq (test : α → m Bool) (xs : List α) :
    xs.filterM test = accepted xs <$> xs.mapM test := by
  simp [List.filterM, filterAuxM_eq]

/-- The test, which also writes down each node it is asked for and what it says. -/
def noting (test : State → m Bool) (x : State) : StateT (List (State × Bool)) m Bool := do
  let answer ← test x
  modify (· ++ [(x, answer)])
  return answer

theorem run_noting (test : State → m Bool) (x : State) (calls : List (State × Bool)) :
    (noting test x).run calls = (fun answer => (answer, calls ++ [(x, answer)])) <$> test x := by
  simp [noting]

theorem run_mapM_noting (test : State → m Bool) (node : α → State) (xs : List α)
    (calls : List (State × Bool)) :
    (xs.mapM fun x => noting test (node x)).run calls =
      (fun answers => (answers, calls ++ (xs.map node).zip answers)) <$>
        xs.mapM fun x => test (node x) := by
  induction xs generalizing calls with
  | nil => simp
  | cons x xs ih => simp [run_noting, ih]

theorem run_filterM_noting (test : State → m Bool) (node : α → State) (xs : List α)
    (calls : List (State × Bool)) :
    (xs.filterM fun x => noting test (node x)).run calls =
      (fun answers => (accepted xs answers, calls ++ (xs.map node).zip answers)) <$>
        xs.mapM fun x => test (node x) := by
  rw [filterM_eq, StateT.run_map, run_mapM_noting, Functor.map_map]

theorem Items.ofType_eq_filter (t : TypeName) (xs : List State) :
    Items.ofType t xs = xs.filter (t.accepts ·.kind) := by
  rw [Items.ofType, ← List.filterMap_eq_filter]
  congr 1

theorem Items.select_eq (t : TypeName) (test : State → m Bool) (xs : List State) :
    Items.select t test xs =
      accepted (xs.filter (t.accepts ·.kind)) <$> (xs.filter (t.accepts ·.kind)).mapM test := by
  rw [Items.select, filterM_eq, Items.ofType_eq_filter]

theorem Members.select_eq (t : TypeName) (test : State → m Bool) (fs : Fields State) :
    Members.select t test fs = accepted (fs.filter (t.accepts ·.2.kind)) <$>
      (fs.filter (t.accepts ·.2.kind)).mapM fun f => test f.2 := by
  rw [Members.select, filterM_eq, Members.ofType]

theorem Items.run_select_noting (t : TypeName) (test : State → m Bool) (xs : List State)
    (calls : List (State × Bool)) :
    (Items.select t (noting test) xs).run calls =
      (fun answers => (accepted (xs.filter (t.accepts ·.kind)) answers,
        calls ++ (xs.filter (t.accepts ·.kind)).zip answers)) <$>
          (xs.filter (t.accepts ·.kind)).mapM test := by
  rw [Items.select, Items.ofType_eq_filter]
  simpa using run_filterM_noting test id (xs.filter (t.accepts ·.kind)) calls

theorem Members.run_select_noting (t : TypeName) (test : State → m Bool) (fs : Fields State)
    (calls : List (State × Bool)) :
    (Members.select t (noting test) fs).run calls =
      (fun answers => (accepted (fs.filter (t.accepts ·.2.kind)) answers,
        calls ++ (Fields.values (fs.filter (t.accepts ·.2.kind))).zip answers)) <$>
          (fs.filter (t.accepts ·.2.kind)).mapM fun f => test f.2 :=
  run_filterM_noting test Prod.snd (Members.ofType t fs) calls

end Tests

/-! ## Enumerations and reads at longer paths -/

section Agreement

variable {m : Type → Type} [Monad m]

/-- The nodes of a type at the indexes behind a path, in order, up to the first index that
fails. -/
def Path.candidateItems (p : Path) (r : State) (t : TypeName) : List State :=
  (p.itemsFrom r 0).filter (t.accepts ·.kind)

/-- The nodes of a type in the fields behind a path, in the order in which `node` has the names. -/
def Path.candidateFields (p : Path) (r : State) (t : TypeName) (node : State) : Fields State :=
  (p.fieldsOf r (Fields.keys node.fields)).filter (t.accepts ·.2.kind)

namespace State

/-- The items that are enumerated at a path are those that reads at longer paths find, and the
test is asked for each of them once, in order. -/
structure ItemsAgree (r : State) (p : Path) (t : TypeName) (test : State → m Bool)
    (node : State) : Prop where
  read : r.itemsAtPath t test (.path p) =
    (fun answers => .ok (accepted (p.candidateItems r t) answers)) <$>
      (p.candidateItems r t).mapM test
  calls : ∀ calls, (r.itemsAtPath t (noting test) (.path p)).run calls =
    (fun answers => (.ok (accepted (p.candidateItems r t) answers),
      calls ++ (p.candidateItems r t).zip answers)) <$> (p.candidateItems r t).mapM test
  empty : node.shape.isListLike = false → r.itemsAtPath t test (.path p) = pure (.ok [])
  list : ∀ xs, node = list xs →
    r.itemsAtPath t test (.path p) = Except.ok <$> Items.select t test xs

/-- The fields that are enumerated at a path are those that reads at longer paths find, and the
test is asked for each of their values once, in order. -/
structure FieldsAgree (r : State) (p : Path) (t : TypeName) (test : State → m Bool)
    (node : State) : Prop where
  found : ∀ name, name ∈ Fields.keys node.fields ↔ ∃ v, (p.field name).get r = .ok v
  read : r.fieldsAtPath t test (.path p) =
    (fun answers => .ok (accepted (p.candidateFields r t node) answers)) <$>
      (p.candidateFields r t node).mapM fun f => test f.2
  calls : ∀ calls, (r.fieldsAtPath t (noting test) (.path p)).run calls =
    (fun answers => (.ok (accepted (p.candidateFields r t node) answers),
      calls ++ (p.candidateFields r t node).values.zip answers)) <$>
        (p.candidateFields r t node).mapM fun f => test f.2
  keys : r.keysAtPath t test (.path p) =
    Except.map Fields.keys <$> r.fieldsAtPath t test (.path p)
  values : r.valuesAtPath t test (.path p) =
    Except.map Fields.values <$> r.fieldsAtPath t test (.path p)
  empty : node.shape.isObjectLike = false → r.fieldsAtPath t test (.path p) = pure (.ok []) ∧
    r.keysAtPath t test (.path p) = pure (.ok []) ∧
    r.valuesAtPath t test (.path p) = pure (.ok [])
  object : ∀ fs, node = object fs →
    r.fieldsAtPath t test (.path p) = Except.ok <$> Members.select t test fs

variable {r node : State} {p : Path}

theorem items_of_shape {s : State} (h : s.shape.isListLike = false) : s.items = [] := by
  cases s with
  | list xs => cases h
  | composite c => rw [shape_composite] at h; cases h
  | _ => rfl

theorem fields_of_shape {s : State} (h : s.shape.isObjectLike = false) : s.fields = [] := by
  cases s with
  | object fs => cases h
  | composite c => rw [shape_composite] at h; cases h
  | _ => rfl

theorem mem_keys_fields_iff (h : p.get r = .ok node) (name : String) :
    name ∈ Fields.keys node.fields ↔ ∃ v, (p.field name).get r = .ok v := by
  have hfield := toOption_child_field node name
  rw [Path.get_field_of_get h]
  constructor
  · intro hname
    obtain ⟨v, hv⟩ := Fields.exists_get?_of_mem_keys hname
    cases hc : node.child (.field name) with
    | ok c => exact ⟨c, rfl⟩
    | error e =>
      rw [hc, hv] at hfield
      cases hfield
  · rintro ⟨v, hv⟩
    rw [hv] at hfield
    exact Fields.mem_keys_of_get? hfield.symm

theorem itemsAtPath_of_get (h : p.get r = .ok node) (t : TypeName) (test : State → m Bool) :
    r.itemsAtPath t test (.path p) = Except.ok <$> Items.select t test node.items := by
  have hat : r.atPath (.path p) = .ok node := h
  rw [itemsAtPath, hat]

theorem fieldsAtPath_of_get (h : p.get r = .ok node) (t : TypeName) (test : State → m Bool) :
    r.fieldsAtPath t test (.path p) = Except.ok <$> Members.select t test node.fields := by
  have hat : r.atPath (.path p) = .ok node := h
  rw [fieldsAtPath, hat]

variable [LawfulMonad m]

theorem keysAtPath_of_fieldsAtPath {t : TypeName} {test : State → m Bool} {a : Address}
    {x : Except Error (Fields State)} (h : r.fieldsAtPath t test a = pure x) :
    r.keysAtPath t test a = pure (x.map Fields.keys) := by
  rw [keysAtPath, h, map_pure]

theorem valuesAtPath_of_fieldsAtPath {t : TypeName} {test : State → m Bool} {a : Address}
    {x : Except Error (Fields State)} (h : r.fieldsAtPath t test a = pure x) :
    r.valuesAtPath t test a = pure (x.map Fields.values) := by
  rw [valuesAtPath, h, map_pure]

theorem itemsAgree (h : p.get r = .ok node) (hl : node.items.length ≤ 2 ^ 64) (t : TypeName)
    (test : State → m Bool) : ItemsAgree r p t test node := by
  have hitems : p.candidateItems r t = node.items.filter (t.accepts ·.kind) := by
    rw [Path.candidateItems, Path.itemsFrom_eq h hl, List.drop_zero]
  refine ⟨?_, fun calls => ?_, fun hshape => ?_, fun xs hxs => ?_⟩
  · rw [itemsAtPath_of_get h, Items.select_eq, hitems, Functor.map_map]
  · rw [itemsAtPath_of_get h, StateT.run_map, Items.run_select_noting, hitems, Functor.map_map]
  · rw [itemsAtPath_of_get h, items_of_shape hshape]
    simp [Items.select_eq, accepted]
  · rw [itemsAtPath_of_get h, hxs, items]

theorem fieldsAgree (h : p.get r = .ok node) (hn : node.DistinctNames) (t : TypeName)
    (test : State → m Bool) : FieldsAgree r p t test node := by
  have hfields : p.candidateFields r t node = node.fields.filter (t.accepts ·.2.kind) := by
    rw [Path.candidateFields, Path.fieldsOf_eq h hn]
  refine ⟨mem_keys_fields_iff h, ?_, fun calls => ?_, rfl, rfl, fun hshape => ?_, fun fs hfs => ?_⟩
  · rw [fieldsAtPath_of_get h, Members.select_eq, hfields, Functor.map_map]
  · rw [fieldsAtPath_of_get h, StateT.run_map, Members.run_select_noting, hfields,
      Functor.map_map]
  · have hnone : r.fieldsAtPath t test (.path p) = pure (.ok []) := by
      rw [fieldsAtPath_of_get h, fields_of_shape hshape]
      simp [Members.select_eq, accepted]
    exact ⟨hnone, keysAtPath_of_fieldsAtPath hnone, valuesAtPath_of_fieldsAtPath hnone⟩
  · rw [fieldsAtPath_of_get h, hfs, fields]

/-- Enumerations at a path agree with reads at the paths that go one step further: for items where
each position has a 64-bit index, for fields where the names differ. Where the path leads nowhere
they all fail as the read does. -/
theorem enumeration_at_path (r : State) (p : Path) (t : TypeName) (test : State → m Bool) :
    (∀ e, p.get r = .error e →
      r.itemsAtPath t test (.path p) = pure (.error e) ∧
      r.fieldsAtPath t test (.path p) = pure (.error e) ∧
      r.keysAtPath t test (.path p) = pure (.error e) ∧
      r.valuesAtPath t test (.path p) = pure (.error e)) ∧
    ∀ node, p.get r = .ok node →
      (node.items.length ≤ 2 ^ 64 → ItemsAgree r p t test node) ∧
      (node.DistinctNames → FieldsAgree r p t test node) := by
  refine ⟨fun e h => ?_, fun node h => ⟨fun hl => itemsAgree h hl t test,
    fun hn => fieldsAgree h hn t test⟩⟩
  have hat : r.atPath (.path p) = .error e := h
  have hfields : r.fieldsAtPath t test (.path p) = pure (.error e) := by rw [fieldsAtPath, hat]
  exact ⟨by rw [itemsAtPath, hat], hfields, keysAtPath_of_fieldsAtPath hfields,
    valuesAtPath_of_fieldsAtPath hfields⟩

/-- A test that counts how often it is asked and accepts every other time. -/
def everyOther (_ : State) : StateM Nat Bool := do
  let asked ← get
  set (asked + 1)
  return asked % 2 == 0

theorem enumeration_at_path_sampleTree :
    (∃ xs, (Path.root.field "tags").get Path.sampleTree = .ok (.list xs) ∧
      (((Path.sampleTree.itemsAtPath .any (noting everyOther) (.path (Path.root.field "tags"))).run
        []).run 0) = ((.ok [.string "a"], [(.string "a", true), (.long 7, false)]), 2)) ∧
    (Path.sampleTree.keysAtPath .any everyOther (.path (Path.root.field "at"))).run 0 =
      (.ok ["x"], 2) := by
  constructor
  · obtain ⟨-, hnode⟩ :=
      enumeration_at_path Path.sampleTree (Path.root.field "tags") .any everyOther
    have hitems := (hnode _ rfl).1 (by decide)
    refine ⟨_, rfl, ?_⟩
    rw [hitems.calls, Path.candidateItems, Path.itemsFrom_eq rfl (by decide)]
    rfl
  · obtain ⟨-, hnode⟩ :=
      enumeration_at_path Path.sampleTree (Path.root.field "at") .any everyOther
    have hfields := (hnode _ rfl).2 trivial
    rw [hfields.keys, hfields.read]
    rfl

end State

end Agreement

end SaveTree
