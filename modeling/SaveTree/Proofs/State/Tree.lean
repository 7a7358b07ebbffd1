/-
  Trees taken node by node.

  Induction over a tree gives a list the claim for its items and an object the claim for the
  values of its fields. `Every p` says that a condition on single nodes holds at every depth,
  and `nesting` counts the lists and objects on the longest way down.
-/
import SaveTree.Fields.Lemmas
import SaveTree.State.Basic

namespace SaveTree.State

/-! ## Induction -/

/-- Induction over the nodes of a tree. -/
@[elab_as_elim, induction_eliminator]
theorem nodeInduction {motive : State → Prop} (bool : ∀ b, motive (bool b))
    (int : ∀ n, motive (int n)) (long : ∀ n, motive (long n)) (float : ∀ x, motive (float x))
    (double : ∀ x, motive (double x)) (string : ∀ s, motive (string s))
    (list : ∀ xs, (∀ x ∈ xs, motive x) → motive (list xs))
    (object : ∀ fs : List (String × State), (∀ f ∈ fs, motive f.2) → motive (object fs))
    (composite : ∀ c, motive (composite c)) (s : State) : motive s :=
  match s with
  | .bool b => bool b
  | .int n => int n
  | .long n => long n
  | .float x => float x
  | .double x => double x
  | .string s => string s
  | .composite c => composite c
  | .list xs => list xs fun x hx =>
    have := List.sizeOf_lt_of_mem hx
    nodeInduction bool int long float double string list object composite x
  | .object fs => object fs fun f hf =>
    have := List.sizeOf_lt_of_mem hf
    have : sizeOf f = 1 + sizeOf f.1 + sizeOf f.2 := by cases f; rfl
    nodeInduction bool int long float double string list object composite f.2
termination_by sizeOf s
decreasing_by
  all_goals
    simp only [State.list.sizeOf_spec, State.object.sizeOf_spec]
    omega

/-! ## Conditions on every node -/

/-- The nodes directly inside a list or an object. -/
def entries : State → List State
  | list xs => xs
  | object fs => Fields.values fs
  | _ => []

/-- The condition holds of the node and of every node inside it. -/
inductive Every (p : State → Prop) : State → Prop
  | node {s : State} (here : p s) (inside : ∀ x ∈ s.entries, Every p x) : Every p s

variable {p : State → Prop}

theorem every_iff {s : State} : s.Every p ↔ p s ∧ ∀ x ∈ s.entries, x.Every p := by
  refine ⟨fun h => ?_, fun h => ?_⟩
  · obtain ⟨here, inside⟩ := h
    exact ⟨here, inside⟩
  · obtain ⟨here, inside⟩ := h
    exact .node here inside

theorem every_leaf_iff {s : State} (h : s.entries = []) : s.Every p ↔ p s := by
  rw [every_iff, h]
  simp

theorem every_list_iff {xs : List State} :
    (list xs).Every p ↔ p (list xs) ∧ ∀ x ∈ xs, x.Every p :=
  every_iff

theorem every_object_iff {fs : Fields State} :
    (object fs).Every p ↔ p (object fs) ∧ ∀ f ∈ fs, f.2.Every p := by
  rw [every_iff]
  simp only [entries, Fields.values, List.forall_mem_map]

theorem Every.mono {q : State → Prop} {s : State} (hpq : ∀ x, p x → q x) (h : s.Every p) :
    s.Every q := by
  induction h with
  | node here _ ih => exact .node (hpq _ here) ih

/-- What every node of a kind of trees has, each node inside them being one of these trees too. -/
theorem every_of_inherited {q : State → Prop} (hp : ∀ s, q s → p s)
    (hi : ∀ s, q s → ∀ x ∈ s.entries, q x) {s : State} (h : q s) : s.Every p := by
  induction s with
  | list xs ih =>
    exact every_list_iff.2 ⟨hp _ h, fun x hx => ih x hx (hi _ h x hx)⟩
  | object fs ih =>
    refine every_object_iff.2 ⟨hp _ h, fun f hf => ih f hf (hi _ h f.2 ?_)⟩
    exact List.mem_map_of_mem hf
  | _ => exact (every_leaf_iff rfl).2 (hp _ h)

theorem every_list_set {xs : List State} {i : Nat} {v : State} (hs : (list xs).Every p)
    (hv : v.Every p) (h : p (list (xs.set i v))) : (list (xs.set i v)).Every p := by
  refine every_list_iff.2 ⟨h, fun x hx => ?_⟩
  rcases List.mem_or_eq_of_mem_set hx with hx | rfl
  · exact (every_list_iff.1 hs).2 x hx
  · exact hv

theorem every_object_set {fs : Fields State} {name : String} {v : State}
    (hs : (object fs).Every p) (hv : v.Every p) (h : p (object (Fields.set fs name v))) :
    (object (Fields.set fs name v)).Every p := by
  refine every_object_iff.2 ⟨h, fun f hf => ?_⟩
  rcases Fields.mem_set hf with hf | rfl
  · exact (every_object_iff.1 hs).2 f hf
  · exact hv

mutual

/-- Whether a condition holds of a node and of every node inside it. -/
def decideEvery (p : State → Prop) [DecidablePred p] : (s : State) → Decidable (s.Every p)
  | list xs =>
    have := decideEveryItem p xs
    decidable_of_iff (p (list xs) ∧ ∀ x ∈ xs, x.Every p) every_list_iff.symm
  | object fs =>
    have := decideEveryValue p fs
    decidable_of_iff (p (object fs) ∧ ∀ f ∈ fs, f.2.Every p) every_object_iff.symm
  | bool b => decidable_of_iff (p (bool b)) (every_leaf_iff rfl).symm
  | int n => decidable_of_iff (p (int n)) (every_leaf_iff rfl).symm
  | long n => decidable_of_iff (p (long n)) (every_leaf_iff rfl).symm
  | float x => decidable_of_iff (p (float x)) (every_leaf_iff rfl).symm
  | double x => decidable_of_iff (p (double x)) (every_leaf_iff rfl).symm
  | string s => decidable_of_iff (p (string s)) (every_leaf_iff rfl).symm
  | composite c => decidable_of_iff (p (composite c)) (every_leaf_iff rfl).symm

/-- Whether a condition holds of every item of a list and of every node inside. -/
def decideEveryItem (p : State → Prop) [DecidablePred p] :
    (xs : List State) → Decidable (∀ x ∈ xs, x.Every p)
  | [] => isTrue (List.forall_mem_nil _)
  | x :: xs =>
    have := decideEvery p x
    have := decideEveryItem p xs
    decidable_of_iff (x.Every p ∧ ∀ y ∈ xs, y.Every p) List.forall_mem_cons.symm

/-- Whether a condition holds of every value of an object and of every node inside. -/
def decideEveryValue (p : State → Prop) [DecidablePred p] :
    (fs : List (String × State)) → Decidable (∀ f ∈ fs, f.2.Every p)
  | [] => isTrue (List.forall_mem_nil _)
  | (name, x) :: fs =>
    have := decideEvery p x
    have := decideEveryValue p fs
    decidable_of_iff (x.Every p ∧ ∀ f ∈ fs, f.2.Every p)
      (List.forall_mem_cons (p := fun f : String × State => f.2.Every p)
        (a := (name, x)) (l := fs)).symm

end

instance [DecidablePred p] (s : State) : Decidable (s.Every p) := decideEvery p s

/-- The names of an object differ from one another. -/
def DistinctNames : State → Prop
  | object fs => (Fields.keys fs).Nodup
  | _ => True

/-- A list or an object has so few entries that their number fits four bytes. -/
def FewEntries : State → Prop
  | list xs => xs.length < 2 ^ 32
  | object fs => fs.length < 2 ^ 32
  | _ => True

/-- The texts of a node, names included, have so few bytes that their number fits four bytes. -/
def ShortTexts : State → Prop
  | string s => (Utf8.encode s).length < 2 ^ 32
  | object fs => ∀ f ∈ fs, (Utf8.encode f.1).length < 2 ^ 32
  | _ => True

instance : DecidablePred DistinctNames
  | object fs => inferInstanceAs (Decidable (Fields.keys fs).Nodup)
  | bool _ | int _ | long _ | float _ | double _ | string _ | list _ | composite _ => isTrue trivial

instance : DecidablePred FewEntries
  | list xs => inferInstanceAs (Decidable (xs.length < 2 ^ 32))
  | object fs => inferInstanceAs (Decidable (fs.length < 2 ^ 32))
  | bool _ | int _ | long _ | float _ | double _ | string _ | composite _ => isTrue trivial

instance : DecidablePred ShortTexts
  | string s => inferInstanceAs (Decidable ((Utf8.encode s).length < 2 ^ 32))
  | object fs => inferInstanceAs (Decidable (∀ f ∈ fs, (Utf8.encode f.1).length < 2 ^ 32))
  | bool _ | int _ | long _ | float _ | double _ | list _ | composite _ => isTrue trivial

/-! ## Trees that can be stored -/

/-- The names of each object differ, and no text or name is too long for its header. -/
def Storable (s : State) : Prop := s.Every DistinctNames ∧ s.Every ShortTexts

instance (s : State) : Decidable s.Storable := inferInstanceAs (Decidable (_ ∧ _))

theorem storable_leaf_iff {s : State} (h : s.entries = []) :
    s.Storable ↔ s.DistinctNames ∧ s.ShortTexts := by
  rw [Storable, every_leaf_iff h, every_leaf_iff h]

theorem storable_list_iff {xs : List State} : (list xs).Storable ↔ ∀ x ∈ xs, x.Storable := by
  simp only [Storable, every_list_iff, DistinctNames, ShortTexts, true_and, ← forall_and]

theorem storable_object_iff {fs : Fields State} : (object fs).Storable ↔
    (Fields.keys fs).Nodup ∧
      ∀ f ∈ fs, (Utf8.encode f.1).length < 2 ^ 32 ∧ f.2.Storable := by
  simp only [Storable, every_object_iff, DistinctNames, ShortTexts]
  refine ⟨fun ⟨⟨hn, hd⟩, ht, hs⟩ => ⟨hn, fun f hf => ⟨ht f hf, hd f hf, hs f hf⟩⟩,
    fun ⟨hn, h⟩ => ⟨⟨hn, fun f hf => (h f hf).2.1⟩, fun f hf => (h f hf).1,
      fun f hf => (h f hf).2.2⟩⟩

/-! ## Nesting -/

mutual

/-- The number of lists and objects on the longest way down from the node, itself included. -/
def nesting : State → Nat
  | list xs => nestingItems xs + 1
  | object fs => nestingFields fs + 1
  | _ => 0

/-- The deepest nesting among the items of a list. -/
def nestingItems : List State → Nat
  | [] => 0
  | x :: xs => max (nesting x) (nestingItems xs)

/-- The deepest nesting among the values of an object. -/
def nestingFields : List (String × State) → Nat
  | [] => 0
  | (_, x) :: fs => max (nesting x) (nestingFields fs)

end

theorem nestingItems_le_iff {xs : List State} {n : Nat} :
    nestingItems xs ≤ n ↔ ∀ x ∈ xs, x.nesting ≤ n := by
  induction xs with
  | nil => simp [nestingItems]
  | cons x xs ih => rw [nestingItems, Nat.max_le, ih, List.forall_mem_cons]

theorem nestingFields_le_iff {fs : List (String × State)} {n : Nat} :
    nestingFields fs ≤ n ↔ ∀ f ∈ fs, f.2.nesting ≤ n := by
  induction fs with
  | nil => simp [nestingFields]
  | cons f fs ih => rw [nestingFields, Nat.max_le, ih, List.forall_mem_cons]

theorem nesting_list_le_iff {xs : List State} {n : Nat} :
    (list xs).nesting ≤ n ↔ 0 < n ∧ ∀ x ∈ xs, x.nesting ≤ n - 1 := by
  rw [← nestingItems_le_iff, nesting]
  omega

theorem nesting_object_le_iff {fs : List (String × State)} {n : Nat} :
    (object fs).nesting ≤ n ↔ 0 < n ∧ ∀ f ∈ fs, f.2.nesting ≤ n - 1 := by
  rw [← nestingFields_le_iff, nesting]
  omega

end SaveTree.State
