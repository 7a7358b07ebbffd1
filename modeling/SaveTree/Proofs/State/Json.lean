/-
  The trees that JSON text gives.

  The names of an object come from the members of a document, of which a repeated one counts
  once, and no text is longer than the document's own. So a tree read from JSON text that is not
  too long can be stored. It nests no deeper than the reader goes, and an entry takes at least one
  character, so such a tree can be encoded as well.
-/
import SaveTree.Proofs.Json.Parse
import SaveTree.Proofs.State.FromJson
import SaveTree.Proofs.Wire.Denoted

namespace SaveTree.State

open Json

theorem ofJsonText_eq_ok_iff {text : String} {s : State} :
    ofJsonText text = .ok s ↔ ∃ j, parse text = .ok j ∧ ofJson j = .ok s := by
  unfold ofJsonText
  exact bind_eq_ok_iff

theorem exists_of_mem_itemsOfJson {js : List Json} {xs : List State}
    (h : itemsOfJson js = .ok xs) {x : State} (hx : x ∈ xs) : ∃ j ∈ js, ofJson j = .ok x := by
  rw [← List.mem_map, itemsOfJson_eq_ok_iff.1 h]
  exact List.mem_map_of_mem hx

theorem exists_of_mem_fieldsOfJson {ms : List (String × Json)} {fs : List (String × State)}
    (h : fieldsOfJson ms = .ok fs) {f : String × State} (hf : f ∈ fs) :
    ∃ m ∈ ms, m.1 = f.1 ∧ ofJson m.2 = .ok f.2 := by
  simp only [← Prod.mk.injEq]
  rw [← List.mem_map, fieldsOfJson_eq_ok_iff.1 h]
  exact List.mem_map_of_mem hf

/-- A number is read as one of three kinds. -/
theorem ofNumber_cases {x : JsonNumber} {s : State} (h : ofNumber x = .ok s) :
    (∃ n, s = int n) ∨ (∃ n, s = long n) ∨ ∃ y, s = double y := by
  cases x with
  | float y =>
    cases h
    exact Or.inr (Or.inr ⟨y, rfl⟩)
  | integer n =>
    rw [ofNumber] at h
    split at h
    · cases h
      exact Or.inl ⟨_, rfl⟩
    · split at h <;> cases h
      exact Or.inr (Or.inl ⟨_, rfl⟩)

theorem storable_of_ofNumber {x : JsonNumber} {s : State} (h : ofNumber x = .ok s) :
    s.Storable := by
  obtain ⟨n, rfl⟩ | ⟨n, rfl⟩ | ⟨y, rfl⟩ := ofNumber_cases h
  all_goals exact (storable_leaf_iff rfl).2 ⟨trivial, trivial⟩

theorem storable_of_fits {n : Nat} {j : Json} {s : State} (hn : n < 2 ^ 32) (hj : j.Fits n)
    (h : ofJson j = .ok s) : s.Storable := by
  induction hj generalizing s with
  | null =>
    rw [ofJson] at h
    cases h
  | bool b =>
    rw [ofJson] at h
    cases h
    exact (storable_leaf_iff rfl).2 ⟨trivial, trivial⟩
  | number x =>
    rw [ofJson] at h
    exact storable_of_ofNumber h
  | string hs =>
    rw [ofJson] at h
    cases h
    exact (storable_leaf_iff rfl).2 ⟨trivial, Nat.lt_of_le_of_lt hs hn⟩
  | array hx ih =>
    rw [ofJson] at h
    split at h <;> cases h
    next xs hxs =>
    refine storable_list_iff.2 fun x hmem => ?_
    obtain ⟨j, hj, hofJson⟩ := exists_of_mem_itemsOfJson hxs hmem
    exact ih j hj hofJson
  | object hnames hx ih =>
    rw [ofJson] at h
    split at h <;> cases h
    next fs hfs =>
    refine storable_object_iff.2 ⟨Fields.nodup_keys_ofPairs fs, fun f hmem => ?_⟩
    obtain ⟨m, hm, hname, hofJson⟩ := exists_of_mem_fieldsOfJson hfs (Fields.mem_of_mem_ofPairs hmem)
    exact ⟨hname ▸ Nat.lt_of_le_of_lt (hnames m hm) hn, ih m hm hofJson⟩

/-- A tree read from JSON text can be stored, if the text is not too long for a header. -/
theorem storable_of_ofJsonText {text : String} {s : State}
    (hn : (Utf8.encode text).length < 2 ^ 32) (h : ofJsonText text = .ok s) : s.Storable := by
  obtain ⟨j, hj, hs⟩ := ofJsonText_eq_ok_iff.1 h
  exact storable_of_fits hn (fits_of_parse hj) hs

/-! ## Trees that can be encoded -/

theorem fewEntries_iff {s : State} : s.FewEntries ↔ s.entries.length < 2 ^ 32 := by
  cases s with
  | list xs => exact Iff.rfl
  | object fs => rw [FewEntries, entries, Fields.values, List.length_map]
  | _ => exact iff_of_true trivial (Nat.two_pow_pos 32)

/-- The tree nests at most so many levels deep, and its lists and objects have at most so many
entries. -/
def Within (levels most : Nat) (s : State) : Prop :=
  s.nesting ≤ levels ∧ s.Every fun x => x.entries.length ≤ most

section Bounds

variable {levels most : Nat}

theorem within_leaf {s : State} (hn : s.nesting = 0) (he : s.entries = []) :
    Within levels most s := by
  refine ⟨by omega, (every_leaf_iff he).2 ?_⟩
  rw [he]
  exact Nat.zero_le most

theorem within_list_iff {xs : List State} : Within (levels + 1) most (list xs) ↔
    xs.length ≤ most ∧ ∀ x ∈ xs, Within levels most x := by
  unfold Within
  rw [nesting_list_le_iff, every_list_iff, Nat.add_sub_cancel]
  refine ⟨fun hwithin => ?_, fun hwithin => ?_⟩
  · obtain ⟨⟨-, hn⟩, hl, hx⟩ := hwithin
    exact ⟨hl, fun x h => ⟨hn x h, hx x h⟩⟩
  · obtain ⟨hl, hx⟩ := hwithin
    exact ⟨⟨by omega, fun x h => (hx x h).1⟩, hl, fun x h => (hx x h).2⟩

theorem within_object_iff {fs : Fields State} : Within (levels + 1) most (object fs) ↔
    fs.length ≤ most ∧ ∀ f ∈ fs, Within levels most f.2 := by
  unfold Within
  rw [nesting_object_le_iff, every_object_iff, Nat.add_sub_cancel, entries, Fields.values,
    List.length_map]
  refine ⟨fun hwithin => ?_, fun hwithin => ?_⟩
  · obtain ⟨⟨-, hn⟩, hl, hf⟩ := hwithin
    exact ⟨hl, fun f h => ⟨hn f h, hf f h⟩⟩
  · obtain ⟨hl, hf⟩ := hwithin
    exact ⟨⟨by omega, fun f h => (hf f h).1⟩, hl, fun f h => (hf f h).2⟩

theorem length_itemsOfJson {js : List Json} {xs : List State} (h : itemsOfJson js = .ok xs) :
    xs.length = js.length := by
  have hlength := congrArg List.length (itemsOfJson_eq_ok_iff.1 h)
  rw [List.length_map, List.length_map] at hlength
  exact hlength.symm

theorem length_fieldsOfJson {ms : List (String × Json)} {fs : List (String × State)}
    (h : fieldsOfJson ms = .ok fs) : fs.length = ms.length := by
  have hkeys := congrArg List.length (keys_fieldsOfJson h)
  rwa [Fields.length_keys, Fields.length_keys] at hkeys

theorem within_ofNumber {x : JsonNumber} {s : State} (h : ofNumber x = .ok s) :
    Within levels most s := by
  obtain ⟨n, rfl⟩ | ⟨n, rfl⟩ | ⟨y, rfl⟩ := ofNumber_cases h
  all_goals exact within_leaf rfl rfl

/-- What is read from a document has the bounds of the document. -/
theorem heritable_within (n most : Nat) : Heritable n (most + 1) fun levels j =>
    ∀ s, ofJson j = .ok s → Within levels most s where
  null _ _ h := by cases h
  bool _ _ _ h := by
    cases h
    exact within_leaf rfl rfl
  number _ _ _ _ h := within_ofNumber h
  string _ _ _ _ h := by
    cases h
    exact within_leaf rfl rfl
  array levels js hlength hjs s h := by
    rw [ofJson] at h
    split at h <;> cases h
    next xs hxs =>
    refine within_list_iff.2 ⟨by rw [length_itemsOfJson hxs]; omega, fun x hx => ?_⟩
    obtain ⟨j, hj, hofJson⟩ := exists_of_mem_itemsOfJson hxs hx
    exact hjs j hj x hofJson
  object levels ms _ hlength hms s h := by
    rw [ofJson] at h
    split at h <;> cases h
    next fs hfs =>
    have hcount := Fields.length_ofPairs_le fs
    rw [length_fieldsOfJson hfs] at hcount
    refine within_object_iff.2 ⟨by omega, fun f hf => ?_⟩
    obtain ⟨m, hm, -, hofJson⟩ := exists_of_mem_fieldsOfJson hfs (Fields.mem_of_mem_ofPairs hf)
    exact (hms m hm).2 f.2 hofJson

end Bounds

/-- A tree read from JSON text nests no deeper than the reader goes, and its lists and objects have
no more entries than the text has characters. -/
theorem within_of_ofJsonText {text : String} {s : State} (h : ofJsonText text = .ok s) :
    Within Json.maxNesting text.toList.length s := by
  obtain ⟨j, hj, hs⟩ := ofJsonText_eq_ok_iff.1 h
  exact parse_induction (heritable_within _ _) hj s hs

/-- A tree read from JSON text can be encoded if no list or object has too many entries for a
header. -/
theorem exists_encode_iff_of_ofJsonText {text : String} {s : State}
    (h : ofJsonText text = .ok s) : (∃ bytes, encode s = .ok bytes) ↔ s.Every FewEntries := by
  obtain ⟨hnesting, -⟩ := within_of_ofJsonText h
  have hlevels : s.nesting ≤ Wire.maxNesting := Nat.le_trans hnesting (by decide)
  refine ⟨fun ⟨bytes, hbytes⟩ => ?_, fun hfew => ⟨_, encode_of_nesting_le hfew hlevels⟩⟩
  obtain ⟨⟨-, hfew⟩, -⟩ := encode_eq_ok_iff.1 hbytes
  exact hfew

/-- No list or object has too many entries if the text is not too long for a header. -/
theorem fewEntries_of_ofJsonText {text : String} {s : State}
    (hn : (Utf8.encode text).length < 2 ^ 32) (h : ofJsonText text = .ok s) :
    s.Every FewEntries := by
  obtain ⟨-, hentries⟩ := within_of_ofJsonText h
  refine hentries.mono fun x hx => fewEntries_iff.2 ?_
  have hlength := Utf8.length_le_width text.toList
  rw [← Utf8.length_encode] at hlength
  omega

end SaveTree.State
