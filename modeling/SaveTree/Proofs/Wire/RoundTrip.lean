/-
  What is encoded decodes to the same tree.

  Every block that the writer emits belongs to the grammar of the decoder: the header it picks
  for a length announces that length, integers are written at full width, and the fields of an
  object with distinct names are the ones that setting them in order builds.
-/
import SaveTree.Fields.Lemmas
import SaveTree.Proofs.Wire.Decode
import SaveTree.Proofs.Wire.Encode

namespace SaveTree.Wire

/-! ## Headers -/

theorem announces_textHeader {n : Nat} (h : n < 2 ^ 32) :
    HeaderForm.text.Announces (textHeader n) n := by
  unfold textHeader
  rw [Nat.mod_eq_of_lt h]
  dsimp only
  split
  · next h₀ => exact .held n h₀
  split
  · next h₁ => exact .wide 0xD9 1 n (by decide) h₁
  split
  · next h₂ => exact .wide 0xDA 2 n (by decide) h₂
  · exact .wide 0xDB 4 n (by decide) h

theorem announces_arrayHeader {n : Nat} (h : n < 2 ^ 32) :
    HeaderForm.array.Announces (arrayHeader n) n := by
  unfold arrayHeader
  split
  · next h₀ => exact .held n h₀
  split
  · next h₁ => exact .wide 0xDC 2 n (by decide) h₁
  · exact .wide 0xDD 4 n (by decide) h

theorem announces_mapHeader {n : Nat} (h : n < 2 ^ 32) :
    HeaderForm.map.Announces (mapHeader n) n := by
  unfold mapHeader
  split
  · next h₀ => exact .held n h₀
  split
  · next h₁ => exact .wide 0xDE 2 n (by decide) h₁
  · exact .wide 0xDF 4 n (by decide) h

theorem announces_extensionHeader {n : Nat} (h : n < 2 ^ 32) (code : Nat) :
    ∃ header, HeaderForm.extension.Announces header n ∧
      extensionHeader n code = header ++ [UInt8.ofNat code] := by
  -- the five lengths that a lead byte can hold are the powers of two up to 16
  have held : ∀ k < 5, n = 2 ^ k → HeaderForm.extension.Announces [UInt8.ofNat (0xD4 + k)] n := by
    rintro k hk rfl
    exact .held k hk
  unfold extensionHeader
  split
  · next h₀ => exact ⟨_, held 0 (by decide) h₀, rfl⟩
  split
  · next h₁ => exact ⟨_, held 1 (by decide) h₁, rfl⟩
  split
  · next h₂ => exact ⟨_, held 2 (by decide) h₂, rfl⟩
  split
  · next h₃ => exact ⟨_, held 3 (by decide) h₃, rfl⟩
  split
  · next h₄ => exact ⟨_, held 4 (by decide) h₄, rfl⟩
  split
  · next h₅ => exact ⟨_, .wide 0xC7 1 n (by decide) h₅, rfl⟩
  split
  · next h₆ => exact ⟨_, .wide 0xC8 2 n (by decide) h₆, rfl⟩
  · exact ⟨_, .wide 0xC9 4 n (by decide) h, rfl⟩

/-! ## Scalars and composites -/

theorem integerForm_intBytes (n : Int32) : IntegerForm 4 (intBytes n) n.toInt := by
  have hl := n.le_toInt
  have hu := n.toInt_lt
  exact .signed 0xD2 4 n.toInt (by decide) ⟨by omega, by omega⟩

theorem integerForm_longBytes (n : Int64) : IntegerForm 8 (longBytes n) n.toInt := by
  have hl := n.le_toInt
  have hu := n.toInt_lt
  exact .signed 0xD3 8 n.toInt (by decide) ⟨by omega, by omega⟩

theorem textForm_textBytes {s : String} (h : (Utf8.encode s).length < 2 ^ 32) :
    TextForm (textBytes s) s :=
  ⟨_, announces_textHeader h, rfl⟩

theorem componentForm_componentBytes (x : Component) : ComponentForm (componentBytes x) x := by
  cases x with
  | float x => exact .float rfl
  | int n => exact .int (integerForm_intBytes n)

theorem length_componentBytes (x : Component) : (componentBytes x).length = 5 := by
  cases x <;> simp [componentBytes, floatBytes, intBytes]

theorem joined_flatMap {α : Type} {P : Bytes → α → Prop} {block : α → Bytes}
    (h : ∀ x, P (block x) x) (xs : List α) : Joined P (xs.flatMap block) xs := by
  induction xs with
  | nil => exact .nil
  | cons x xs ih => exact .cons (h x) ih

theorem length_payload (c : Composite) :
    (c.components.flatMap componentBytes).length = 5 * c.kind.arity := by
  rw [List.length_flatMap, List.map_congr_left fun x _ => length_componentBytes x,
    List.map_const', List.sum_replicate_nat, c.length_components, Nat.mul_comm]

theorem length_payload_lt (c : Composite) :
    (c.components.flatMap componentBytes).length < 2 ^ 8 := by
  have hk : c.kind.arity ≤ 4 := by cases c <;> simp [Composite.kind, Kind.arity]
  rw [length_payload]
  omega

theorem compositeForm_compositeBytes (c : Composite) : CompositeForm (compositeBytes c) c := by
  obtain ⟨header, hh, he⟩ := announces_extensionHeader (Nat.lt_trans (length_payload_lt c) (by decide)) c.code
  refine ⟨header, _, hh, joined_flatMap componentForm_componentBytes c.components, ?_⟩
  unfold compositeBytes
  dsimp only
  rw [he, List.append_assoc, List.singleton_append]

/-! ## Trees -/

theorem items_plainItems {depth : Nat} {xs : List State}
    (h : ∀ x ∈ xs, Value depth (plainBytes x) x) : Items depth (plainItems xs) xs := by
  induction xs with
  | nil => exact .nil depth
  | cons x xs ih =>
    rw [List.forall_mem_cons] at h
    exact .cons h.1 (ih h.2)

theorem members_plainFields {depth : Nat} {fs : List (String × State)}
    (hk : ∀ f ∈ fs, (Utf8.encode f.1).length < 2 ^ 32)
    (h : ∀ f ∈ fs, Value depth (plainBytes f.2) f.2) : Members depth (plainFields fs) fs := by
  induction fs with
  | nil => exact .nil depth
  | cons f fs ih =>
    obtain ⟨name, x⟩ := f
    rw [List.forall_mem_cons] at hk h
    exact .cons (textForm_textBytes hk.1) h.1 (ih hk.2 h.2)

/-- The plain bytes of a tree within the limits are a value that denotes it. -/
theorem value_plainBytes {depth : Nat} {s : State} (hw : Writable depth s)
    (ht : s.Every State.ShortTexts) (hn : s.Every State.DistinctNames) :
    Value depth (plainBytes s) s := by
  induction s generalizing depth with
  | bool b =>
    cases b
    · exact .false depth
    · exact .true depth
  | int n => exact .int (by decide) (integerForm_intBytes n)
  | long n => exact .long (integerForm_longBytes n)
  | float x => exact .float rfl
  | double x => exact .double rfl
  | string s => exact .string (textForm_textBytes (State.every_iff.1 ht).1)
  | composite c => exact .composite (compositeForm_compositeBytes c)
  | list xs ih =>
    obtain ⟨hd, hl, hw⟩ := writable_list_iff.1 hw
    obtain ⟨-, ht⟩ := State.every_list_iff.1 ht
    obtain ⟨-, hn⟩ := State.every_list_iff.1 hn
    have hi := items_plainItems fun x hx => ih x hx (hw x hx) (ht x hx) (hn x hx)
    exact .list hd (announces_arrayHeader hl) hi
  | object fs ih =>
    obtain ⟨hd, hl, hw⟩ := writable_object_iff.1 hw
    obtain ⟨hk, ht⟩ := State.every_object_iff.1 ht
    obtain ⟨hu, hn⟩ := State.every_object_iff.1 hn
    have hm := members_plainFields hk fun f hf => ih f hf (hw f hf) (ht f hf) (hn f hf)
    have hv := Value.object hd (announces_mapHeader hl) hm
    rwa [Fields.foldl_set_of_nodup [] fs hu, List.nil_append] at hv

end SaveTree.Wire

namespace SaveTree

open Wire

/-- Encoding succeeds exactly on the trees that are not nested too deep, and what it writes
decodes to the tree itself. -/
theorem encode_roundtrip (s : State) (hn : s.Every State.DistinctNames)
    (ht : s.Every State.ShortTexts) (he : s.Every State.FewEntries) :
    ((∃ bytes, encode s = .ok bytes) ↔ s.nesting ≤ 512) ∧
      ∀ bytes, encode s = .ok bytes → decode bytes = .ok s := by
  constructor
  · refine ⟨fun hx => ?_, fun h => ?_⟩
    · obtain ⟨bytes, h⟩ := hx
      exact (encode_eq_ok_iff.1 h).1.1
    · exact ⟨_, encode_eq_ok_iff.2 ⟨⟨h, he⟩, rfl⟩⟩
  · intro bytes h
    obtain ⟨hw, rfl⟩ := encode_eq_ok_iff.1 h
    exact decode_of_value (value_plainBytes hw ht hn)

/-- A tree with nodes inside one another, a NaN with a payload, a negative zero and texts beyond
ASCII. -/
def mixedTree : State :=
  .object [
    ("é", .list [.float ⟨0x7FC00001#32⟩, .double ⟨0x8000000000000000#64⟩, .object []]),
    ("", .composite (.quaternion ⟨0xFFFFFFFF#32⟩ ⟨0#32⟩ ⟨0x80000000#32⟩ ⟨0x3F800000#32⟩)),
    ("n", .list [.composite (.vector2int (-1) 70000), .long (-1), .list [.string "€ 💾"]])]

theorem encode_roundtrip_mixedTree :
    mixedTree.Every State.DistinctNames ∧ mixedTree.Every State.ShortTexts ∧
      mixedTree.Every State.FewEntries ∧
        ∃ bytes, encode mixedTree = .ok bytes ∧ decode bytes = .ok mixedTree := by
  have hn : mixedTree.Every State.DistinctNames := by decide
  have ht : mixedTree.Every State.ShortTexts := by decide
  have he : mixedTree.Every State.FewEntries := by decide
  obtain ⟨hs, hr⟩ := encode_roundtrip mixedTree hn ht he
  obtain ⟨bytes, hb⟩ := hs.2 (by decide)
  exact ⟨hn, ht, he, bytes, hb, hr bytes hb⟩

end SaveTree
