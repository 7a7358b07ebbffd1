/-
  The trees that bytes denote.

  What a value denotes stays within the limits of the writer: no length needs more than four
  bytes, a name that repeats is kept once, and lists and objects stop at the same depth. So each
  tree that can be decoded can be encoded, and a tree within the limits is read back from its
  encoding (`decode_of_encode`).
-/
import SaveTree.Proofs.Wire.RoundTrip

namespace SaveTree

open Wire

theorem decode_of_encode {s : State} {bytes : Bytes} (hs : s.Storable)
    (h : encode s = .ok bytes) : decode bytes = .ok s := by
  obtain ⟨hw, rfl⟩ := encode_eq_ok_iff.1 h
  exact decode_of_value (value_plainBytes hw hs.2 hs.1)

namespace Wire

/-! ## Single nodes -/

theorem lt_of_announces {form : HeaderForm} {header : Bytes} {n : Nat}
    (hh : ∀ k < form.span, form.held k < 2 ^ 32) (hw : ∀ p ∈ form.wide, p.2 ≤ 4)
    (h : form.Announces header n) : n < 2 ^ 32 := by
  cases h with
  | held k hk => exact hh k hk
  | wide lead width n hl hn =>
    have hp : 256 ^ width ≤ 256 ^ 4 := Nat.pow_le_pow_right (by decide) (hw (lead, width) hl)
    omega

theorem length_lt_of_textForm {bytes : Bytes} {s : String} (h : TextForm bytes s) :
    (Utf8.encode s).length < 2 ^ 32 := by
  obtain ⟨header, hh, -⟩ := h
  exact lt_of_announces (by decide) (by decide) hh

theorem exists_of_mem_joined {α : Type} {P : Bytes → α → Prop} {b : Bytes} {xs : List α} {x : α}
    (h : Joined P b xs) (hx : x ∈ xs) : ∃ block, P block x := by
  induction h with
  | nil => cases hx
  | cons hy _ ih =>
    rcases List.mem_cons.1 hx with rfl | hx
    · exact ⟨_, hy⟩
    · exact ih hx

theorem exists_object_of_value {depth : Nat} {bytes : Bytes} {fs : Fields State}
    (h : Value depth bytes (.object fs)) : ∃ ms : List (String × State), fs = Fields.ofPairs ms ∧
      depth < maxNesting ∧ ms.length < 2 ^ 32 ∧
        ∀ m ∈ ms, (Utf8.encode m.1).length < 2 ^ 32 ∧ ∃ block, Value (depth + 1) block m.2 := by
  generalize hs : State.object fs = s at h
  cases h with
  | @object _ _ _ ms hd hh hb =>
    refine ⟨ms, ?_, hd, lt_of_announces (by decide) (by decide) hh, ?_⟩
    · rw [Fields.ofPairs_eq_foldl_set]
      exact State.object.inj hs
    · intro m hm
      obtain ⟨_, key, block, hk, hx, -⟩ := exists_of_mem_joined (members_iff_joined.1 hb) hm
      exact ⟨length_lt_of_textForm hk, block, hx⟩
  | _ => cases hs

theorem distinctNames_of_value {depth : Nat} {bytes : Bytes} {s : State}
    (h : Value depth bytes s) : s.DistinctNames := by
  cases s with
  | object fs =>
    obtain ⟨ms, rfl, -⟩ := exists_object_of_value h
    exact Fields.nodup_keys_ofPairs ms
  | _ => trivial

theorem shortTexts_of_value {depth : Nat} {bytes : Bytes} {s : State}
    (h : Value depth bytes s) : s.ShortTexts := by
  cases s with
  | string s => cases h with | string hs => exact length_lt_of_textForm hs
  | object fs =>
    obtain ⟨ms, rfl, -, -, hm⟩ := exists_object_of_value h
    exact fun f hf => (hm f (Fields.mem_of_mem_ofPairs hf)).1
  | _ => trivial

theorem fewEntries_of_value {depth : Nat} {bytes : Bytes} {s : State}
    (h : Value depth bytes s) : s.FewEntries := by
  cases s with
  | list xs => cases h with | list _ hh _ => exact lt_of_announces (by decide) (by decide) hh
  | object fs =>
    obtain ⟨ms, rfl, -, hl, -⟩ := exists_object_of_value h
    exact Nat.lt_of_le_of_lt (Fields.length_ofPairs_le ms) hl
  | _ => trivial

/-! ## Whole trees -/

theorem value_of_mem_list {depth : Nat} {bytes : Bytes} {xs : List State}
    (h : Value depth bytes (.list xs)) :
    depth < maxNesting ∧ ∀ x ∈ xs, ∃ block, Value (depth + 1) block x := by
  cases h with
  | list hd _ hb => exact ⟨hd, fun x hx => exists_of_mem_joined (items_iff_joined.1 hb) hx⟩

theorem value_of_mem_object {depth : Nat} {bytes : Bytes} {fs : Fields State}
    (h : Value depth bytes (.object fs)) :
    depth < maxNesting ∧ ∀ f ∈ fs, ∃ block, Value (depth + 1) block f.2 := by
  obtain ⟨ms, rfl, hd, -, hm⟩ := exists_object_of_value h
  exact ⟨hd, fun f hf => (hm f (Fields.mem_of_mem_ofPairs hf)).2⟩

/-- What holds of every node that has a value holds of all nodes of a tree that has one. -/
theorem every_of_value {p : State → Prop}
    (hp : ∀ depth bytes s, Value depth bytes s → p s) {depth : Nat} {bytes : Bytes} {s : State}
    (h : Value depth bytes s) : s.Every p := by
  refine State.every_of_inherited (q := fun s => ∃ depth bytes, Value depth bytes s) ?_ ?_
    ⟨depth, bytes, h⟩
  · rintro s ⟨depth, bytes, hs⟩
    exact hp depth bytes s hs
  · rintro s ⟨depth, bytes, hs⟩ x hx
    cases s with
    | list xs => exact ⟨depth + 1, (value_of_mem_list hs).2 x hx⟩
    | object fs =>
      obtain ⟨f, hf, rfl⟩ := List.mem_map.1 hx
      exact ⟨depth + 1, (value_of_mem_object hs).2 f hf⟩
    | _ => cases hx

theorem nesting_le_of_value {depth : Nat} {bytes : Bytes} {s : State}
    (h : Value depth bytes s) : s.nesting ≤ maxNesting - depth := by
  induction s generalizing depth bytes with
  | list xs ih =>
    obtain ⟨hd, hx⟩ := value_of_mem_list h
    refine State.nesting_list_le_iff.2 ⟨by omega, fun x hm => ?_⟩
    obtain ⟨block, hb⟩ := hx x hm
    exact Nat.sub_sub maxNesting depth 1 ▸ ih x hm hb
  | object fs ih =>
    obtain ⟨hd, hf⟩ := value_of_mem_object h
    refine State.nesting_object_le_iff.2 ⟨by omega, fun f hm => ?_⟩
    obtain ⟨block, hb⟩ := hf f hm
    exact Nat.sub_sub maxNesting depth 1 ▸ ih f hm hb
  | _ => exact Nat.zero_le _

theorem writable_of_value {depth : Nat} {bytes : Bytes} {s : State} (h : Value depth bytes s) :
    Writable depth s :=
  ⟨nesting_le_of_value h, every_of_value (fun _ _ _ => fewEntries_of_value) h⟩

theorem storable_of_value {depth : Nat} {bytes : Bytes} {s : State} (h : Value depth bytes s) :
    s.Storable :=
  ⟨every_of_value (fun _ _ _ => distinctNames_of_value) h,
    every_of_value (fun _ _ _ => shortTexts_of_value) h⟩

end Wire

theorem storable_of_decode {bytes : Bytes} {s : State} (h : decode bytes = .ok s) : s.Storable :=
  storable_of_value (value_of_decode h)

theorem encode_of_decode {bytes : Bytes} {s : State} (h : decode bytes = .ok s) :
    encode s = .ok (plainBytes s) :=
  encode_eq_ok_iff.2 ⟨writable_of_value (value_of_decode h), rfl⟩

end SaveTree
