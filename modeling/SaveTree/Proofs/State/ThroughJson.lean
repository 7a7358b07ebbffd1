/-
  Trees written as documents and read back.

  A tree that goes through a document keeps its names, its order and its values and loses kinds:
  `throughJson` says what is left of it. A document has no place for a NaN or an infinity, and a
  tree with one of them cannot be read back (`ofJson_toJson`).
-/
import SaveTree.Proofs.Number.Finite
import SaveTree.Proofs.State.FromJson

namespace SaveTree

/-! ## Floats as documents -/

namespace Binary

/-- The number that a reader of the shortest decimal of a float sees. The texts of an infinity and
of a NaN read as an infinity and as the plain NaN. -/
def reread (x : Binary32) : Binary64 :=
  if x.isFinite then x.widen
  else if x.isNaN then ⟨0x7FF8000000000000#64⟩
  else ofMagnitude x.isNegative BinaryFormat.double.infinity

theorem isFinite_reread (x : Binary32) : x.reread.isFinite = x.isFinite := by
  unfold reread
  split
  · next h => rw [isFinite_widen, h]
  · next h =>
    rw [Bool.eq_false_iff.2 h]
    split
    · decide +kernel
    · unfold isFinite
      rw [magnitude_ofMagnitude BinaryFormat.infinity_lt_signStep]
      exact decide_eq_false (Nat.lt_irrefl _)

end Binary

theorem Json.ofDouble_of_not_finite {x : Binary64} (h : x.isFinite = false) :
    Json.ofDouble x = .null := by
  rw [ofDouble, h]
  rfl

theorem Json.ofFloat_eq (x : Binary32) : Json.ofFloat x = Json.ofDouble x.reread := by
  unfold ofFloat
  split
  · next h => rw [Binary.reread, if_pos h]
  · next h =>
    rw [Json.ofDouble_of_not_finite]
    rw [Binary.isFinite_reread, Bool.eq_false_iff.2 h]

theorem Json.gaps_ofDouble (x : Binary64) :
    (Json.ofDouble x).gaps = if x.isFinite then [] else [.null] := by
  unfold ofDouble
  split <;> rfl

/-! ## What is left of a tree -/

/-- The component is no NaN and no infinity. -/
def Component.Finite : Component → Prop
  | float x => x.isFinite = true
  | int _ => True

/-- What is left of a component that goes through a document. -/
def Component.throughJson : Component → State
  | float x => .double x.reread
  | int n => .int n

namespace State

mutual

/-- What is left of a tree that goes through a document: a long that fits 32 bits is an int, a
float is a double, and a composite is an object of its components. -/
def throughJson : State → State
  | bool b => bool b
  | int n => int n
  | long n => if -2 ^ 31 ≤ n.toInt ∧ n.toInt < 2 ^ 31 then int (Int32.ofInt n.toInt) else long n
  | float x => double x.reread
  | double x => double x
  | string s => string s
  | list xs => list (itemsThroughJson xs)
  | object fs => object (fieldsThroughJson fs)
  | composite c => object (c.fields.map fun (name, x) => (name, x.throughJson))

/-- What is left of the items of a list. -/
def itemsThroughJson : List State → List State
  | [] => []
  | x :: xs => throughJson x :: itemsThroughJson xs

/-- What is left of the fields of an object. -/
def fieldsThroughJson : List (String × State) → List (String × State)
  | [] => []
  | (name, x) :: fs => (name, throughJson x) :: fieldsThroughJson fs

end

theorem itemsThroughJson_eq_map (xs : List State) :
    itemsThroughJson xs = xs.map throughJson := by
  induction xs with
  | nil => rfl
  | cons x xs ih => rw [itemsThroughJson, List.map_cons, ih]

theorem fieldsThroughJson_eq_map (fs : List (String × State)) :
    fieldsThroughJson fs = fs.map fun f => (f.1, f.2.throughJson) := by
  induction fs with
  | nil => rfl
  | cons f fs ih => rw [fieldsThroughJson, List.map_cons, ih]

theorem itemsToJson_eq_map (xs : List State) : itemsToJson xs = xs.map toJson := by
  induction xs with
  | nil => rfl
  | cons x xs ih => rw [itemsToJson, List.map_cons, ih]

theorem fieldsToJson_eq_map (fs : List (String × State)) :
    fieldsToJson fs = fs.map fun f => (f.1, f.2.toJson) := by
  induction fs with
  | nil => rfl
  | cons f fs ih => rw [fieldsToJson, List.map_cons, ih]

theorem toJson_componentThroughJson (x : Component) : x.throughJson.toJson = x.toJson := by
  cases x with
  | float x => exact (Json.ofFloat_eq x).symm
  | int n => rfl

/-- What is left of a tree has the tree's document. -/
theorem toJson_throughJson (s : State) : s.throughJson.toJson = s.toJson := by
  induction s with
  | long n =>
    rw [throughJson]
    split
    · next h => rw [toJson, toJson, Int32.toInt_ofInt_of_le h.1 h.2]
    · rfl
  | float x => exact (Json.ofFloat_eq x).symm
  | list xs ih =>
    rw [throughJson, toJson, toJson, itemsThroughJson_eq_map, itemsToJson_eq_map,
      itemsToJson_eq_map, List.map_map]
    exact congrArg Json.array (List.map_congr_left ih)
  | object fs ih =>
    rw [throughJson, toJson, toJson, fieldsThroughJson_eq_map, fieldsToJson_eq_map,
      fieldsToJson_eq_map, List.map_map]
    exact congrArg Json.object (List.map_congr_left fun f hf => Prod.ext rfl (ih f hf))
  | composite c =>
    rw [throughJson, toJson, toJson, fieldsToJson_eq_map, List.map_map]
    refine congrArg Json.object (List.map_congr_left fun f _ => ?_)
    exact Prod.ext rfl (toJson_componentThroughJson f.2)
  | _ => rfl

theorem throughJson_componentThroughJson (x : Component) :
    x.throughJson.throughJson = x.throughJson := by
  cases x <;> rfl

/-- Nothing is lost a second time. -/
theorem throughJson_throughJson (s : State) : s.throughJson.throughJson = s.throughJson := by
  induction s with
  | long n =>
    rw [throughJson]
    split
    · rfl
    · next h => rw [throughJson, if_neg h]
  | list xs ih =>
    rw [throughJson, throughJson, itemsThroughJson_eq_map, itemsThroughJson_eq_map, List.map_map]
    exact congrArg State.list (List.map_congr_left ih)
  | object fs ih =>
    rw [throughJson, throughJson, fieldsThroughJson_eq_map, fieldsThroughJson_eq_map,
      List.map_map]
    exact congrArg State.object (List.map_congr_left fun f hf => Prod.ext rfl (ih f hf))
  | composite c =>
    rw [throughJson, throughJson, fieldsThroughJson_eq_map, List.map_map]
    refine congrArg State.object (List.map_congr_left fun f _ => ?_)
    exact Prod.ext rfl (throughJson_componentThroughJson f.2)
  | _ => rfl

/-! ## Floats that have no document -/

/-- The node has no float, and no component, that is a NaN or an infinity. -/
def Finite : State → Prop
  | float x => x.isFinite = true
  | double x => x.isFinite = true
  | composite c => ∀ x ∈ c.components, x.Finite
  | bool _ | int _ | long _ | string _ | list _ | object _ => True

instance : DecidablePred Component.Finite
  | .float x => inferInstanceAs (Decidable (x.isFinite = true))
  | .int _ => isTrue trivial

instance : DecidablePred Finite
  | float x => inferInstanceAs (Decidable (x.isFinite = true))
  | double x => inferInstanceAs (Decidable (x.isFinite = true))
  | composite c => inferInstanceAs (Decidable (∀ x ∈ c.components, x.Finite))
  | bool _ | int _ | long _ | string _ | list _ | object _ => isTrue trivial

theorem forall_mem_fields_iff {c : Composite} {p : Component → Prop} :
    (∀ f ∈ c.fields, p f.2) ↔ ∀ x ∈ c.components, p x := by
  cases c <;> simp [Composite.fields, Composite.names, Composite.components]

theorem gaps_int (n : Int32) : (Json.number (.integer n.toInt)).gaps = [] := by
  rw [Json.gaps, if_pos (Int.le_trans n.toInt_le (by decide))]

theorem gaps_long (n : Int64) : (Json.number (.integer n.toInt)).gaps = [] := by
  rw [Json.gaps, if_pos (Int.le_sub_one_of_lt n.toInt_lt)]

theorem gaps_ofDouble_eq_nil_iff {x : Binary64} :
    (Json.ofDouble x).gaps = [] ↔ x.isFinite = true := by
  rw [Json.gaps_ofDouble]
  split <;> simp_all

theorem gaps_componentToJson_eq_nil_iff {x : Component} : x.toJson.gaps = [] ↔ x.Finite := by
  cases x with
  | float x =>
    rw [Component.toJson, Json.ofFloat_eq, gaps_ofDouble_eq_nil_iff, Binary.isFinite_reread]
    rfl
  | int n => exact iff_of_true (gaps_int n) trivial

/-- The document of a tree has no gap exactly if all floats of the tree are finite. -/
theorem gaps_toJson_eq_nil_iff {s : State} : s.toJson.gaps = [] ↔ s.Every Finite := by
  induction s with
  | bool b => exact iff_of_true rfl ((every_leaf_iff rfl).2 trivial)
  | int n => exact iff_of_true (gaps_int n) ((every_leaf_iff rfl).2 trivial)
  | long n => exact iff_of_true (gaps_long n) ((every_leaf_iff rfl).2 trivial)
  | float x =>
    rw [every_leaf_iff rfl, toJson, Json.ofFloat_eq, gaps_ofDouble_eq_nil_iff,
      Binary.isFinite_reread]
    rfl
  | double x =>
    rw [every_leaf_iff rfl]
    exact gaps_ofDouble_eq_nil_iff
  | string t => exact iff_of_true rfl ((every_leaf_iff rfl).2 trivial)
  | list xs ih =>
    rw [toJson, Json.gaps, Json.itemGaps_eq_flatMap, itemsToJson_eq_map, List.flatMap_map,
      List.flatMap_eq_nil_iff, every_list_iff]
    exact ⟨fun h => ⟨trivial, fun x hx => (ih x hx).1 (h x hx)⟩,
      fun h x hx => (ih x hx).2 (h.2 x hx)⟩
  | object fs ih =>
    rw [toJson, Json.gaps, Json.memberGaps_eq_flatMap, fieldsToJson_eq_map, List.flatMap_map,
      List.flatMap_eq_nil_iff, every_object_iff]
    exact ⟨fun h => ⟨trivial, fun f hf => (ih f hf).1 (h f hf)⟩,
      fun h f hf => (ih f hf).2 (h.2 f hf)⟩
  | composite c =>
    rw [every_leaf_iff rfl, toJson, Json.gaps, Json.memberGaps_eq_flatMap, List.flatMap_map,
      List.flatMap_eq_nil_iff, Finite]
    simp only [gaps_componentToJson_eq_nil_iff]
    exact forall_mem_fields_iff

theorem eq_null_of_mem_gaps_ofDouble {x : Binary64} {gap : JsonGap}
    (h : gap ∈ (Json.ofDouble x).gaps) : gap = .null := by
  rw [Json.gaps_ofDouble] at h
  split at h
  · cases h
  · exact List.mem_singleton.1 h

/-- The only gaps in the document of a tree are nulls. -/
theorem eq_null_of_mem_gaps_toJson {s : State} {gap : JsonGap} (h : gap ∈ s.toJson.gaps) :
    gap = .null := by
  induction s with
  | bool b => cases h
  | int n =>
    rw [toJson, gaps_int] at h
    cases h
  | long n =>
    rw [toJson, gaps_long] at h
    cases h
  | float x =>
    rw [toJson, Json.ofFloat_eq] at h
    exact eq_null_of_mem_gaps_ofDouble h
  | double x => exact eq_null_of_mem_gaps_ofDouble h
  | string t => cases h
  | list xs ih =>
    rw [toJson, Json.gaps, Json.itemGaps_eq_flatMap, itemsToJson_eq_map, List.flatMap_map] at h
    obtain ⟨x, hx, hgap⟩ := List.mem_flatMap.1 h
    exact ih x hx hgap
  | object fs ih =>
    rw [toJson, Json.gaps, Json.memberGaps_eq_flatMap, fieldsToJson_eq_map,
      List.flatMap_map] at h
    obtain ⟨f, hf, hgap⟩ := List.mem_flatMap.1 h
    exact ih f hf hgap
  | composite c =>
    rw [toJson, Json.gaps, Json.memberGaps_eq_flatMap, List.flatMap_map] at h
    obtain ⟨⟨name, x⟩, hf, hgap⟩ := List.mem_flatMap.1 h
    cases x with
    | float x =>
      have hgap : gap ∈ (Json.ofFloat x).gaps := hgap
      rw [Json.ofFloat_eq] at hgap
      exact eq_null_of_mem_gaps_ofDouble hgap
    | int n =>
      have hgap : gap ∈ (Json.number (.integer n.toInt)).gaps := hgap
      rw [gaps_int] at hgap
      cases hgap

/-! ### The document is one that values stand for -/

theorem sound_ofDouble (x : Binary64) : (Json.ofDouble x).Sound := by
  unfold Json.ofDouble
  split
  · next h => exact .number h
  · exact .null

theorem sound_int (n : Int32) : (Json.number (.integer n.toInt)).Sound := by
  have hlow := n.le_toInt
  have hhigh := n.toInt_lt
  exact .number ⟨by omega, by omega⟩

theorem sound_long (n : Int64) : (Json.number (.integer n.toInt)).Sound := by
  have hlow := n.le_toInt
  have hhigh := n.toInt_lt
  exact .number ⟨by omega, by omega⟩

theorem sound_componentToJson (x : Component) : x.toJson.Sound := by
  cases x with
  | float x =>
    rw [Component.toJson, Json.ofFloat_eq]
    exact sound_ofDouble _
  | int n => exact sound_int n

theorem nodup_keys_fields (c : Composite) : (Fields.keys c.fields).Nodup := by
  have hkeys : Fields.keys c.fields = c.names := by cases c <;> rfl
  rw [hkeys]
  exact c.nodup_names

theorem keys_map_values {α β : Type} (fs : Fields α) (make : α → β) :
    Fields.keys (fs.map fun f => (f.1, make f.2)) = Fields.keys fs := by
  unfold Fields.keys
  rw [List.map_map]
  rfl

theorem sound_toJson {s : State} (hs : s.Every DistinctNames) : s.toJson.Sound := by
  induction s with
  | bool b => exact .bool b
  | int n => exact sound_int n
  | long n => exact sound_long n
  | float x =>
    rw [toJson, Json.ofFloat_eq]
    exact sound_ofDouble _
  | double x => exact sound_ofDouble x
  | string t => exact .string t
  | list xs ih =>
    obtain ⟨-, hxs⟩ := every_list_iff.1 hs
    rw [toJson, itemsToJson_eq_map]
    exact .array (List.forall_mem_map.2 fun x hx => ih x hx (hxs x hx))
  | object fs ih =>
    obtain ⟨hn, hfs⟩ := every_object_iff.1 hs
    rw [toJson, fieldsToJson_eq_map]
    refine .object ?_ (List.forall_mem_map.2 fun f hf => ih f hf (hfs f hf))
    rw [keys_map_values]
    exact hn
  | composite c =>
    rw [toJson]
    refine .object ?_ (List.forall_mem_map.2 fun f _ => sound_componentToJson f.2)
    exact (keys_map_values c.fields Component.toJson).symm ▸ nodup_keys_fields c

/-! ### Reading it back -/

theorem itemsOfJson_map {α : Type} {xs : List α} {document : α → Json} {tree : α → State}
    (h : ∀ x ∈ xs, ofJson (document x) = .ok (tree x)) :
    itemsOfJson (xs.map document) = .ok (xs.map tree) := by
  rw [itemsOfJson_eq_ok_iff, List.map_map, List.map_map]
  exact List.map_congr_left h

theorem fieldsOfJson_map {α : Type} {fs : Fields α} {document : α → Json} {tree : α → State}
    (h : ∀ f ∈ fs, ofJson (document f.2) = .ok (tree f.2)) :
    fieldsOfJson (fs.map fun f => (f.1, document f.2)) = .ok (fs.map fun f => (f.1, tree f.2)) := by
  rw [fieldsOfJson_eq_ok_iff, List.map_map, List.map_map]
  exact List.map_congr_left fun f hf => Prod.ext rfl (h f hf)

theorem ofJson_object_map {α : Type} {fs : Fields α} {document : α → Json} {tree : α → State}
    (hn : fs.keys.Nodup) (h : ∀ f ∈ fs, ofJson (document f.2) = .ok (tree f.2)) :
    ofJson (.object (fs.map fun f => (f.1, document f.2))) =
      .ok (object (fs.map fun f => (f.1, tree f.2))) := by
  have hofPairs := Fields.ofPairs_of_nodup ((keys_map_values fs tree).symm ▸ hn)
  rw [ofJson_object, fieldsOfJson_map h]
  show Except.ok (object (Fields.ofPairs _)) = _
  rw [hofPairs]

theorem ofJson_ofDouble {x : Binary64} (h : x.isFinite = true) :
    ofJson (Json.ofDouble x) = .ok (double x) := by
  rw [Json.ofDouble, if_pos h]
  rfl

theorem ofJson_int (n : Int32) : ofJson (.number (.integer n.toInt)) = .ok (int n) := by
  rw [ofJson, ofNumber, if_pos ⟨n.le_toInt, n.toInt_lt⟩, n.ofInt_toInt]

theorem ofJson_componentToJson {x : Component} (h : x.Finite) :
    ofJson x.toJson = .ok x.throughJson := by
  cases x with
  | float x =>
    rw [Component.toJson, Json.ofFloat_eq]
    exact ofJson_ofDouble ((Binary.isFinite_reread x).trans h)
  | int n => exact ofJson_int n

/-- A tree of finite floats is read back as what is left of it. -/
theorem ofJson_toJson_of_finite {s : State} (hn : s.Every DistinctNames)
    (hs : s.Every Finite) : ofJson s.toJson = .ok s.throughJson := by
  induction s with
  | bool b => rfl
  | int n => exact ofJson_int n
  | long n =>
    rw [toJson, throughJson, ofJson, ofNumber]
    split
    · rfl
    · rw [if_pos ⟨n.le_toInt, n.toInt_lt⟩, n.ofInt_toInt]
  | float x =>
    have hx : x.isFinite = true := (every_leaf_iff rfl).1 hs
    rw [toJson, Json.ofFloat_eq]
    exact ofJson_ofDouble ((Binary.isFinite_reread x).trans hx)
  | double x => exact ofJson_ofDouble ((every_leaf_iff rfl).1 hs)
  | string t => rfl
  | list xs ih =>
    obtain ⟨-, hn⟩ := every_list_iff.1 hn
    obtain ⟨-, hs⟩ := every_list_iff.1 hs
    rw [toJson, throughJson, itemsToJson_eq_map, itemsThroughJson_eq_map, ofJson_array,
      itemsOfJson_map fun x hx => ih x hx (hn x hx) (hs x hx)]
    rfl
  | object fs ih =>
    obtain ⟨hnames, hn⟩ := every_object_iff.1 hn
    obtain ⟨-, hs⟩ := every_object_iff.1 hs
    rw [toJson, throughJson, fieldsToJson_eq_map, fieldsThroughJson_eq_map]
    exact ofJson_object_map hnames fun f hf => ih f hf (hn f hf) (hs f hf)
  | composite c =>
    have hc : ∀ x ∈ c.components, x.Finite := (every_leaf_iff rfl).1 hs
    rw [toJson, throughJson]
    exact ofJson_object_map (nodup_keys_fields c)
      (forall_mem_fields_iff.2 fun x hx => ofJson_componentToJson (hc x hx))

theorem ofJson_toJson_of_not_finite {s : State} (hn : s.Every DistinctNames)
    (hs : ¬ s.Every Finite) : ofJson s.toJson = .error (.unsupportedJson .null) := by
  have hends := endsBy_ofJson (sound_toJson hn)
  cases hgaps : s.toJson.gaps with
  | nil => exact absurd (gaps_toJson_eq_nil_iff.1 hgaps) hs
  | cons gap rest =>
    have hnull : gap = .null :=
      eq_null_of_mem_gaps_toJson (by rw [hgaps]; exact List.mem_cons_self)
    rw [hgaps, hnull] at hends
    exact hends

/-- A tree can be written as a document and read back exactly if its floats are finite. What is
read is what is left of the tree, which has the tree's document and loses nothing more. -/
theorem ofJson_toJson {s : State} (hn : s.Every DistinctNames) :
    (s.Every Finite → ofJson s.toJson = .ok s.throughJson) ∧
    (¬ s.Every Finite → ofJson s.toJson = .error (.unsupportedJson .null)) ∧
    s.throughJson.toJson = s.toJson ∧ s.throughJson.throughJson = s.throughJson :=
  ⟨ofJson_toJson_of_finite hn, ofJson_toJson_of_not_finite hn, toJson_throughJson s,
    throughJson_throughJson s⟩

/-- A tree with a long that fits 32 bits, one that does not, a float and a vector. -/
def lossyTree : State :=
  .object [
    ("b", .list [.long 5, .float ⟨0x3DCCCCCD#32⟩, .composite (.vector2int 7 (-1))]),
    ("a", .long 4294967296)]

/-- A tree with a NaN as the last component of a quaternion. -/
def nanTree : State :=
  .list [.int 1, .composite (.quaternion ⟨0#32⟩ ⟨0#32⟩ ⟨0#32⟩ ⟨0x7FC00000#32⟩)]

theorem ofJson_toJson_lossyTree :
    lossyTree.Every DistinctNames ∧ nanTree.Every DistinctNames ∧
      ofJson lossyTree.toJson = .ok (.object [
        ("b", .list [.int 5, .double ⟨0x3FB999999999999A#64⟩,
          .object [("x", .int 7), ("y", .int (-1))]]),
        ("a", .long 4294967296)]) ∧
      ofJson nanTree.toJson = .error (.unsupportedJson .null) := by
  have hlossy : lossyTree.Every DistinctNames := by decide
  have hnan : nanTree.Every DistinctNames := by decide
  have hreread : Binary.reread ⟨0x3DCCCCCD#32⟩ = ⟨0x3FB999999999999A#64⟩ := by decide +kernel
  refine ⟨hlossy, hnan, ?_, (ofJson_toJson hnan).2.1 (by decide +kernel)⟩
  rw [(ofJson_toJson hlossy).1 (by decide +kernel), ← hreread]
  rfl

end State

end SaveTree
