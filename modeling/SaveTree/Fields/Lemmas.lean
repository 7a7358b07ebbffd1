/-
  Facts about named fields.

  An index finds what a search from the front finds (`getElem?_index`), and building from pairs
  is setting the pairs one after the other (`ofPairs_eq_foldl_set`), so each name stands at its
  first place with its last value.
-/
import Mathlib.Data.List.Induction
import SaveTree.Fields

namespace SaveTree.Fields

variable {α : Type}

@[simp] theorem get?_nil (name : String) : get? ([] : Fields α) name = none := rfl

theorem get?_cons (k : String) (v : α) (fs : Fields α) (name : String) :
    get? ((k, v) :: fs) name = if k = name then some v else get? fs name := by
  unfold get?
  rw [List.lookup_cons]
  by_cases h : k = name
  · simp [h]
  · have : (name == k) = false := by simpa using fun h' => h h'.symm
    simp [h, this]

@[simp] theorem keys_nil : keys ([] : Fields α) = [] := rfl

@[simp] theorem keys_cons (k : String) (v : α) (fs : Fields α) :
    keys ((k, v) :: fs) = k :: keys fs := rfl

theorem length_keys (fs : Fields α) : fs.keys.length = fs.length := List.length_map _

theorem mem_keys_iff (fs : Fields α) (name : String) :
    name ∈ fs.keys ↔ (fs.get? name).isSome := by
  induction fs with
  | nil => simp [keys]
  | cons p fs ih =>
    obtain ⟨k, v⟩ := p
    rw [get?_cons]
    by_cases h : k = name
    · simp [keys, h]
    · have hk : ¬ name = k := fun h' => h h'.symm
      simpa [keys, h, hk] using ih

theorem mem_keys_of_get? {fs : Fields α} {name : String} {v : α} (h : fs.get? name = some v) :
    name ∈ fs.keys :=
  (mem_keys_iff fs name).2 (h ▸ rfl)

theorem exists_get?_of_mem_keys {fs : Fields α} {name : String} (h : name ∈ fs.keys) :
    ∃ v, fs.get? name = some v :=
  Option.isSome_iff_exists.1 ((mem_keys_iff fs name).1 h)

theorem set_cons (k : String) (v : α) (fs : Fields α) (name : String) (value : α) :
    set ((k, v) :: fs) name value =
      if k = name then (k, value) :: fs else (k, v) :: set fs name value := rfl

theorem get?_set (fs : Fields α) (k : String) (v : α) (name : String) :
    (fs.set k v).get? name = if k = name then some v else fs.get? name := by
  induction fs with
  | nil => simp [set, get?_cons]
  | cons p fs ih =>
    obtain ⟨k', v'⟩ := p
    rw [set_cons]
    by_cases h : k' = k
    · subst h
      by_cases hn : k' = name <;> simp [get?_cons, hn]
    · rw [if_neg h, get?_cons, get?_cons, ih]
      by_cases hn : k' = name
      · have hk : ¬ k = name := fun h' => h (hn.trans h'.symm)
        simp [hn, hk]
      · simp [hn]

theorem keys_set (fs : Fields α) (k : String) (v : α) :
    (fs.set k v).keys = if k ∈ fs.keys then fs.keys else fs.keys ++ [k] := by
  induction fs with
  | nil => simp [set, keys]
  | cons p fs ih =>
    obtain ⟨k', v'⟩ := p
    rw [set_cons]
    by_cases h : k' = k
    · simp [keys, h]
    · have hk : ¬ k = k' := fun h' => h h'.symm
      rw [if_neg h]
      unfold keys at *
      by_cases hm : k ∈ fs.map Prod.fst <;> simp_all

theorem mem_of_get? {fs : Fields α} {k : String} {v : α} (h : fs.get? k = some v) :
    (k, v) ∈ fs := by
  induction fs with
  | nil => cases h
  | cons p fs ih =>
    obtain ⟨k', v'⟩ := p
    rw [get?_cons] at h
    split at h
    · next hk =>
      obtain rfl := Option.some.inj h
      rw [hk]
      exact List.mem_cons_self
    · exact List.mem_cons_of_mem _ (ih h)

theorem get?_of_mem {fs : Fields α} (h : fs.keys.Nodup) {k : String} {v : α}
    (hm : (k, v) ∈ fs) : fs.get? k = some v := by
  induction fs with
  | nil => cases hm
  | cons p fs ih =>
    obtain ⟨k', v'⟩ := p
    rw [keys_cons, List.nodup_cons] at h
    rw [get?_cons]
    rcases List.mem_cons.1 hm with heq | hm
    · cases heq
      exact if_pos rfl
    · have hk : k ∈ keys fs := List.mem_map_of_mem hm
      have hne : k' ≠ k := fun hk' => h.1 (hk' ▸ hk)
      rw [if_neg hne, ih h.2 hm]

/-- What is under a name does not depend on the order. -/
theorem get?_of_perm {fs gs : Fields α} (h : fs.keys.Nodup) (hp : fs.Perm gs) (name : String) :
    gs.get? name = fs.get? name := by
  have hg : gs.keys.Nodup := (List.Perm.map Prod.fst hp).nodup_iff.1 h
  cases hf : fs.get? name with
  | some v => exact get?_of_mem hg (hp.mem_iff.1 (mem_of_get? hf))
  | none =>
    refine Option.eq_none_iff_forall_not_mem.2 fun v hv => ?_
    rw [get?_of_mem h (hp.mem_iff.2 (mem_of_get? hv))] at hf
    cases hf

/-- Under a name is what stands at its position. -/
theorem get?_zip (names : List String) (xs : List α) (name : String) :
    get? (names.zip xs) name = names.idxOf? name >>= fun i => xs[i]? := by
  induction names generalizing xs with
  | nil => rfl
  | cons n names ih =>
    cases xs with
    | nil => cases (n :: names).idxOf? name <;> rfl
    | cons x xs =>
      rw [List.zip_cons_cons, get?_cons, ih, List.idxOf?_cons]
      by_cases h : n = name
      · simp [h]
      · simp only [h, beq_iff_eq, if_false]
        cases names.idxOf? name <;> rfl

theorem set_of_get? {fs : Fields α} {k : String} {v : α} (h : fs.get? k = some v) :
    fs.set k v = fs := by
  induction fs with
  | nil => cases h
  | cons p fs ih =>
    obtain ⟨k', v'⟩ := p
    rw [get?_cons] at h
    rw [set_cons]
    split at h
    · next hk => rw [if_pos hk, Option.some.inj h]
    · next hk => rw [if_neg hk, ih h]

theorem set_set (fs : Fields α) (k : String) (v w : α) : (fs.set k v).set k w = fs.set k w := by
  induction fs with
  | nil => simp [set]
  | cons p fs ih =>
    obtain ⟨k', v'⟩ := p
    rw [set_cons, set_cons]
    split
    · next hk => rw [set_cons, if_pos hk]
    · next hk => rw [set_cons, if_neg hk, ih]

theorem set_eq_append_of_notMem {fs : Fields α} {k : String} (h : k ∉ fs.keys) (v : α) :
    fs.set k v = fs ++ [(k, v)] := by
  induction fs with
  | nil => rfl
  | cons p fs ih =>
    obtain ⟨k', v'⟩ := p
    rw [keys_cons, List.mem_cons, not_or] at h
    rw [set_cons, if_neg (Ne.symm h.1), ih h.2, List.cons_append]

theorem exchange_eq (fs : Fields α) (name : String) (value : α) :
    fs.exchange name value = (fs.get? name, fs.set name value) := by
  induction fs with
  | nil => rfl
  | cons p fs ih =>
    obtain ⟨k, v⟩ := p
    rw [exchange, get?_cons, set_cons, ih]
    split <;> rfl

theorem setEntry_eq_set (fs : Fields α) (name : String) (value : α) :
    fs.setEntry name value = fs.set name value := by
  induction fs with
  | nil => rfl
  | cons p fs ih =>
    obtain ⟨k, v⟩ := p
    rw [set_cons, ← ih, setEntry, setEntry, keys_cons, List.idxOf?_cons]
    by_cases h : k = name
    · simp [h]
    · simp only [beq_iff_eq, h, if_false]
      cases List.idxOf? name (keys fs) <;> rfl

/-- Two names are set in either order, unless both are new. -/
theorem set_comm {fs : Fields α} {k l : String} (hkl : k ≠ l) (h : k ∈ fs.keys ∨ l ∈ fs.keys)
    (v w : α) : (fs.set k v).set l w = (fs.set l w).set k v := by
  induction fs with
  | nil => simp at h
  | cons p fs ih =>
    obtain ⟨n, x⟩ := p
    by_cases hk : n = k
    · subst hk
      simp only [set_cons, hkl, if_true, if_false]
    · by_cases hl : n = l
      · subst hl
        simp only [set_cons, hk, if_true, if_false]
      · have hrest : k ∈ keys fs ∨ l ∈ keys fs := by
          simpa [Ne.symm hk, Ne.symm hl] using h
        simp only [set_cons, hk, hl, if_false, ih hrest]

/-- Two new names stand in the order in which they were set. -/
theorem perm_set_set {fs : Fields α} {k l : String} (hkl : k ≠ l) (hk : k ∉ fs.keys)
    (hl : l ∉ fs.keys) (v w : α) : ((fs.set k v).set l w).Perm ((fs.set l w).set k v) := by
  have hl' : l ∉ (fs.set k v).keys := by simp [keys_set, hk, hl, Ne.symm hkl]
  have hk' : k ∉ (fs.set l w).keys := by simp [keys_set, hk, hl, hkl]
  rw [set_eq_append_of_notMem hl', set_eq_append_of_notMem hk', set_eq_append_of_notMem hk,
    set_eq_append_of_notMem hl, List.append_assoc, List.append_assoc]
  exact List.Perm.append_left fs (List.Perm.swap _ _ _)

/-- Setting fields of distinct names one after the other appends them. -/
theorem foldl_set_of_nodup (fs gs : Fields α) (h : (keys (fs ++ gs)).Nodup) :
    gs.foldl (fun fs (k, v) => fs.set k v) fs = fs ++ gs := by
  induction gs generalizing fs with
  | nil => simp
  | cons p gs ih =>
    obtain ⟨k, v⟩ := p
    have hk : k ∉ fs.keys := by
      simp only [keys, List.map_append, List.map_cons, List.nodup_append, List.mem_cons] at h
      exact fun hm => h.2.2 k hm k (Or.inl rfl) rfl
    rw [List.foldl_cons]
    dsimp only
    rw [set_eq_append_of_notMem hk v, ih _ (by simpa using h), List.append_assoc]
    rfl

theorem getElem?_index (fs : Fields α) (name : String) : (index fs)[name]? = get? fs name := by
  have h : ∀ (fs : Fields α) (m : Index α),
      (fs.foldl (fun m (k, v) => m.insertIfNew k v) m)[name]? = m[name]?.or (get? fs name) := by
    intro fs
    induction fs with
    | nil => simp
    | cons p fs ih =>
      obtain ⟨k, v⟩ := p
      intro m
      rw [List.foldl_cons, ih, Std.HashMap.getElem?_insertIfNew, get?_cons]
      by_cases hk : k = name
      · subst hk
        by_cases hm : k ∈ m
        · simp [hm]
        · simp [hm]
      · simp [hk]
  simpa [index] using h fs ∅

/-! ## Building from pairs -/

/-- The fields of some names with the values a function gives them. -/
def ofNames (values : String → Option α) (names : List String) : Fields α :=
  names.filterMap fun k => (values k).map fun v => (k, v)

theorem ofNames_cons_of_some {values : String → Option α} {k : String} {v : α}
    (names : List String) (h : values k = some v) :
    ofNames values (k :: names) = (k, v) :: ofNames values names := by
  simp [ofNames, h]

theorem ofNames_cons_of_none {values : String → Option α} {k : String} (names : List String)
    (h : values k = none) : ofNames values (k :: names) = ofNames values names := by
  simp [ofNames, h]

theorem set_ofNames_of_notMem (values : String → Option α) (names : List String) (k : String)
    (v : α) (h : k ∉ names) :
    (ofNames values names).set k v = ofNames values names ++ [(k, v)] := by
  induction names with
  | nil => rfl
  | cons n names ih =>
    rw [List.mem_cons, not_or] at h
    have hn : ¬ n = k := fun h' => h.1 h'.symm
    cases hv : values n with
    | none => rw [ofNames_cons_of_none _ hv, ih h.2]
    | some w => rw [ofNames_cons_of_some _ hv, set_cons, if_neg hn, ih h.2, List.cons_append]

theorem ofNames_congr {f g : String → Option α} {names : List String}
    (h : ∀ k ∈ names, f k = g k) : ofNames f names = ofNames g names := by
  induction names with
  | nil => rfl
  | cons n names ih =>
    have hn := h n List.mem_cons_self
    have hrest := ih fun k hk => h k (List.mem_cons_of_mem _ hk)
    cases hg : g n with
    | none => rw [ofNames_cons_of_none _ (hn.trans hg), ofNames_cons_of_none _ hg, hrest]
    | some v => rw [ofNames_cons_of_some _ (hn.trans hg), ofNames_cons_of_some _ hg, hrest]

/-- The fields of their own names are the fields. -/
theorem ofNames_keys {values : String → Option α} {fs : Fields α}
    (h : ∀ k v, (k, v) ∈ fs → values k = some v) : ofNames values fs.keys = fs := by
  induction fs with
  | nil => rfl
  | cons f fs ih =>
    obtain ⟨k, v⟩ := f
    have hrest := ih fun k v hf => h k v (List.mem_cons_of_mem _ hf)
    rw [keys_cons, ofNames_cons_of_some _ (h k v List.mem_cons_self), hrest]

theorem set_ofNames_of_mem (values : String → Option α) (names : List String) (k : String)
    (v : α) (hk : k ∈ names) (hd : names.Nodup) (hs : (values k).isSome) :
    (ofNames values names).set k v =
      ofNames (fun n => if n = k then some v else values n) names := by
  induction names with
  | nil => cases hk
  | cons n names ih =>
    rw [List.nodup_cons] at hd
    by_cases hn : n = k
    · subst hn
      obtain ⟨w, hw⟩ := Option.isSome_iff_exists.1 hs
      have hrest : ofNames values names =
          ofNames (fun m => if m = n then some v else values m) names := by
        apply ofNames_congr
        intro m hm
        have : ¬ m = n := fun h' => hd.1 (h' ▸ hm)
        simp [this]
      rw [ofNames_cons_of_some _ hw, set_cons, if_pos rfl, hrest]
      exact (ofNames_cons_of_some names (by simp)).symm
    · have hk' : k ∈ names := by
        rcases List.mem_cons.1 hk with h | h
        · exact absurd h.symm hn
        · exact h
      cases hv : values n with
      | none =>
        rw [ofNames_cons_of_none _ hv, ih hk' hd.2]
        exact (ofNames_cons_of_none names (by simp [hn, hv])).symm
      | some w =>
        rw [ofNames_cons_of_some _ hv, set_cons, if_neg hn, ih hk' hd.2]
        exact (ofNames_cons_of_some names (by simp [hn, hv])).symm

theorem mem_firstKeys (seen : Index Unit) (out : Array String) (pairs : List (String × α))
    (k : String) : k ∈ (firstKeys seen out pairs).toList ↔
      k ∈ out.toList ∨ (k ∈ keys pairs ∧ seen.contains k = false) := by
  induction pairs generalizing seen out with
  | nil => simp [firstKeys, keys]
  | cons p pairs ih =>
    obtain ⟨k', v'⟩ := p
    unfold firstKeys
    by_cases h : seen.contains k' = true
    · rw [if_pos h, ih]
      by_cases hk : k = k'
      · subst hk
        simp [h]
      · simp [keys, hk]
    · rw [if_neg h, ih]
      by_cases hk : k = k'
      · subst hk
        simp [keys, (Bool.not_eq_true _).mp h]
      · have hk' : ¬ k' = k := fun h' => hk h'.symm
        simp [keys, hk, hk', Std.HashMap.contains_insert]

theorem nodup_firstKeys (seen : Index Unit) (out : Array String) (pairs : List (String × α))
    (hd : out.toList.Nodup) (hs : ∀ k ∈ out.toList, seen.contains k = true) :
    (firstKeys seen out pairs).toList.Nodup := by
  induction pairs generalizing seen out with
  | nil => exact hd
  | cons p pairs ih =>
    obtain ⟨k, v⟩ := p
    unfold firstKeys
    by_cases h : seen.contains k = true
    · rw [if_pos h]
      exact ih seen out hd hs
    · rw [if_neg h]
      apply ih
      · rw [Array.toList_push, List.nodup_append]
        refine ⟨hd, by simp, ?_⟩
        intro a ha b hb hab
        rw [List.mem_singleton] at hb
        subst hab hb
        exact h (hs a ha)
      · intro n hn
        rw [Array.toList_push, List.mem_append, List.mem_singleton] at hn
        rcases hn with hn | hn
        · simp [Std.HashMap.contains_insert, hs n hn]
        · simp [Std.HashMap.contains_insert, hn]

theorem firstKeys_append (seen : Index Unit) (out : Array String) (pairs : List (String × α))
    (k : String) (v : α) : (firstKeys seen out (pairs ++ [(k, v)])).toList =
      (firstKeys seen out pairs).toList ++
        if seen.contains k = true ∨ k ∈ keys pairs then [] else [k] := by
  induction pairs generalizing seen out with
  | nil => by_cases h : seen.contains k <;> simp [firstKeys, h]
  | cons p pairs ih =>
    obtain ⟨k', v'⟩ := p
    rw [List.cons_append, keys_cons]
    unfold firstKeys
    by_cases h : seen.contains k' = true
    · rw [if_pos h, if_pos h, ih]
      have hiff : (seen.contains k = true ∨ k ∈ keys pairs) ↔
          (seen.contains k = true ∨ k ∈ k' :: keys pairs) := by
        rw [List.mem_cons]
        constructor
        · rintro (hs | hk)
          · exact Or.inl hs
          · exact Or.inr (Or.inr hk)
        · rintro (hs | rfl | hk)
          · exact Or.inl hs
          · exact Or.inl h
          · exact Or.inr hk
      simp only [hiff]
    · rw [if_neg h, if_neg h, ih]
      have hiff : ((seen.insert k' ()).contains k = true ∨ k ∈ keys pairs) ↔
          (seen.contains k = true ∨ k ∈ k' :: keys pairs) := by
        rw [List.mem_cons, Std.HashMap.contains_insert, Bool.or_eq_true, beq_iff_eq]
        constructor
        · rintro ((rfl | hs) | hk)
          · exact Or.inr (Or.inl rfl)
          · exact Or.inl hs
          · exact Or.inr (Or.inr hk)
        · rintro (hs | rfl | hk)
          · exact Or.inl (Or.inr hs)
          · exact Or.inl (Or.inl rfl)
          · exact Or.inr hk
      simp only [hiff]

theorem latest_append (pairs : List (String × α)) (k : String) (v : α) :
    latest (pairs ++ [(k, v)]) = (latest pairs).insert k v := by
  simp [latest]

theorem isSome_latest (pairs : List (String × α)) (k : String) :
    (latest pairs)[k]?.isSome ↔ k ∈ keys pairs := by
  have h : ∀ (pairs : List (String × α)) (m : Index α),
      (pairs.foldl (fun m (k, v) => m.insert k v) m)[k]?.isSome ↔
        m[k]?.isSome ∨ k ∈ keys pairs := by
    intro pairs
    induction pairs with
    | nil => simp [keys]
    | cons p pairs ih =>
      obtain ⟨k', v'⟩ := p
      intro m
      rw [List.foldl_cons, ih, Std.HashMap.getElem?_insert]
      by_cases hk : k' = k
      · simp [keys, hk]
      · have hk' : ¬ k = k' := fun h' => hk h'.symm
        simp [keys, hk, hk']
  simpa [latest] using h pairs ∅

theorem ofPairs_eq_ofNames (pairs : List (String × α)) :
    ofPairs pairs = ofNames (fun k => (latest pairs)[k]?) (firstKeys ∅ #[] pairs).toList := rfl

theorem ofPairs_append (pairs : List (String × α)) (k : String) (v : α) :
    ofPairs (pairs ++ [(k, v)]) = (ofPairs pairs).set k v := by
  rw [ofPairs_eq_ofNames, ofPairs_eq_ofNames, firstKeys_append]
  have hf : (fun n => (latest (pairs ++ [(k, v)]))[n]?) =
      fun n => if n = k then some v else (latest pairs)[n]? := by
    funext n
    rw [latest_append, Std.HashMap.getElem?_insert]
    by_cases h : n = k
    · simp [h]
    · have h' : ¬ k = n := fun h' => h h'.symm
      simp [h, h']
  rw [hf]
  by_cases h : k ∈ keys pairs
  · have hm : k ∈ (firstKeys ∅ #[] pairs).toList :=
      (mem_firstKeys ∅ #[] pairs k).2 (Or.inr ⟨h, by simp⟩)
    have hd := nodup_firstKeys ∅ #[] pairs (by simp) (by simp)
    rw [set_ofNames_of_mem _ _ _ _ hm hd ((isSome_latest pairs k).2 h)]
    simp [h]
  · have hm : k ∉ (firstKeys ∅ #[] pairs).toList := by
      rw [mem_firstKeys]
      simp [h]
    rw [set_ofNames_of_notMem _ _ _ _ hm]
    have hc : ofNames (fun n => if n = k then some v else (latest pairs)[n]?)
        (firstKeys ∅ #[] pairs).toList =
          ofNames (fun n => (latest pairs)[n]?) (firstKeys ∅ #[] pairs).toList := by
      apply ofNames_congr
      intro n hn
      have : ¬ n = k := fun h' => hm (h' ▸ hn)
      simp [this]
    rw [← hc]
    simp [h, ofNames]

/-- Building from pairs is setting them one after the other. -/
theorem ofPairs_eq_foldl_set (pairs : List (String × α)) :
    ofPairs pairs = pairs.foldl (fun fs (k, v) => Fields.set fs k v) [] := by
  have h : ∀ (pairs done : List (String × α)),
      ofPairs (done ++ pairs) =
        pairs.foldl (fun fs (k, v) => Fields.set fs k v) (ofPairs done) := by
    intro pairs
    induction pairs with
    | nil => simp
    | cons p pairs ih =>
      intro done
      rw [List.append_cons, ih, ofPairs_append, List.foldl_cons]
  exact h pairs []

/-- A name is in the first place it has among the pairs. -/
theorem keys_ofPairs (pairs : List (String × α)) :
    keys (ofPairs pairs) = (keys pairs).eraseDups := by
  induction pairs using List.reverseRecOn with
  | nil => rfl
  | append_singleton pairs p ih =>
    obtain ⟨k, v⟩ := p
    have happend : keys (pairs ++ [(k, v)]) = keys pairs ++ [k] := List.map_append
    rw [ofPairs_append, keys_set, ih, happend, List.eraseDups_append]
    by_cases hk : k ∈ keys pairs <;> simp [hk, List.removeAll, List.eraseDups_cons]

/-- A name has the last value that the pairs give it. -/
theorem get?_ofPairs (pairs : List (String × α)) (name : String) :
    get? (ofPairs pairs) name = get? pairs.reverse name := by
  induction pairs using List.reverseRecOn with
  | nil => rfl
  | append_singleton pairs p ih =>
    obtain ⟨k, v⟩ := p
    rw [ofPairs_append, get?_set, List.reverse_append, List.reverse_singleton,
      List.singleton_append, get?_cons, ih]

/-- Values may be changed before the fields are built or afterwards. -/
theorem map_ofPairs {β : Type} (change : α → β) (pairs : List (String × α)) :
    (ofPairs pairs).map (Prod.map id change) = ofPairs (pairs.map (Prod.map id change)) := by
  have hset : ∀ (fs : Fields α) (k : String) (v : α), (fs.set k v).map (Prod.map id change) =
      Fields.set (fs.map (Prod.map id change)) k (change v) := by
    intro fs k v
    induction fs with
    | nil => rfl
    | cons f fs ih =>
      obtain ⟨n, w⟩ := f
      rw [set_cons, List.map_cons, Prod.map_apply, id_eq, set_cons]
      by_cases hn : n = k
      · rw [if_pos hn, if_pos hn, List.map_cons, Prod.map_apply, id_eq]
      · rw [if_neg hn, if_neg hn, List.map_cons, ih, Prod.map_apply, id_eq]
  induction pairs using List.reverseRecOn with
  | nil => rfl
  | append_singleton pairs p ih =>
    obtain ⟨k, v⟩ := p
    rw [ofPairs_append, hset, ih, List.map_append, List.map_singleton, Prod.map_apply,
      ofPairs_append]
    rfl

/-! ## What is kept -/

theorem mem_set {fs : Fields α} {k : String} {v : α} {f : String × α} (h : f ∈ fs.set k v) :
    f ∈ fs ∨ f = (k, v) := by
  induction fs with
  | nil => exact Or.inr (List.mem_singleton.1 h)
  | cons p fs ih =>
    obtain ⟨k', v'⟩ := p
    rw [set_cons] at h
    split at h
    · next hk =>
      rcases List.mem_cons.1 h with h | h
      · exact Or.inr (by rw [h, hk])
      · exact Or.inl (List.mem_cons_of_mem _ h)
    · rcases List.mem_cons.1 h with h | h
      · exact Or.inl (h ▸ List.mem_cons_self)
      · exact (ih h).imp_left (List.mem_cons_of_mem _)

theorem nodup_keys_set {fs : Fields α} (h : fs.keys.Nodup) (k : String) (v : α) :
    (fs.set k v).keys.Nodup := by
  rw [keys_set]
  split
  · exact h
  · next hk =>
    refine List.nodup_append.2 ⟨h, List.pairwise_singleton _ k, ?_⟩
    intro a ha b hb hab
    rw [List.mem_singleton] at hb
    exact hk (hb ▸ hab ▸ ha)

theorem erase_sublist (fs : Fields α) (name : String) : (fs.erase name).Sublist fs := by
  induction fs with
  | nil => exact List.Sublist.refl _
  | cons p fs ih =>
    obtain ⟨k, v⟩ := p
    unfold erase
    split
    · exact List.sublist_cons_self _ _
    · exact ih.cons_cons _

theorem erase_cons (k : String) (v : α) (fs : Fields α) (name : String) :
    erase ((k, v) :: fs) name = if k = name then fs else (k, v) :: erase fs name := rfl

theorem remove_eq (fs : Fields α) (name : String) :
    fs.remove name = (fs.get? name, fs.erase name) := by
  induction fs with
  | nil => rfl
  | cons p fs ih =>
    obtain ⟨k, v⟩ := p
    rw [remove, get?_cons, erase_cons, ih]
    split <;> rfl

theorem keys_erase (fs : Fields α) (name : String) :
    (fs.erase name).keys = List.erase fs.keys name := by
  induction fs with
  | nil => rfl
  | cons p fs ih =>
    obtain ⟨k, v⟩ := p
    rw [erase_cons, keys_cons, List.erase_cons]
    by_cases h : k = name
    · simp [h]
    · simp [h, ih]

theorem get?_erase {fs : Fields α} (h : fs.keys.Nodup) (k name : String) :
    (fs.erase k).get? name = if k = name then none else fs.get? name := by
  induction fs with
  | nil => simp [erase]
  | cons p fs ih =>
    obtain ⟨k', v'⟩ := p
    rw [keys_cons, List.nodup_cons] at h
    rw [erase_cons, get?_cons]
    by_cases hk : k' = k
    · subst hk
      rw [if_pos rfl]
      by_cases hn : k' = name
      · subst hn
        have hnone : ¬ (get? fs k').isSome := fun hs => h.1 ((mem_keys_iff fs k').2 hs)
        rw [if_pos rfl, Option.not_isSome_iff_eq_none.1 hnone]
      · rw [if_neg hn, if_neg hn]
    · rw [if_neg hk, get?_cons, ih h.2]
      by_cases hn : k' = name
      · have hne : ¬ k = name := fun h' => hk (hn.trans h'.symm)
        rw [if_pos hn, if_neg hne, if_pos hn]
      · rw [if_neg hn, if_neg hn]

theorem nodup_keys_erase {fs : Fields α} (h : fs.keys.Nodup) (name : String) :
    (fs.erase name).keys.Nodup :=
  h.sublist (List.Sublist.map Prod.fst (erase_sublist fs name))

theorem length_set_le (fs : Fields α) (k : String) (v : α) :
    (fs.set k v).length ≤ fs.length + 1 := by
  rw [← length_keys, ← length_keys, keys_set]
  split
  · exact Nat.le_succ _
  · exact Nat.le_of_eq List.length_append

/-- What holds of no fields and is kept by setting each of the pairs holds of what they build. -/
theorem ofPairs_induction {P : Fields α → Prop} (pairs : List (String × α)) (nil : P [])
    (set : ∀ p ∈ pairs, ∀ fs : Fields α, P fs → P (fs.set p.1 p.2)) : P (ofPairs pairs) := by
  have h : ∀ (pairs : List (String × α)) (fs : Fields α),
      (∀ p ∈ pairs, ∀ fs : Fields α, P fs → P (fs.set p.1 p.2)) → P fs →
        P (pairs.foldl (fun fs (k, v) => Fields.set fs k v) fs) := by
    intro pairs
    induction pairs with
    | nil => exact fun fs _ hfs => hfs
    | cons p pairs ih =>
      intro fs hset hfs
      rw [List.forall_mem_cons] at hset
      exact ih _ hset.2 (hset.1 fs hfs)
  rw [ofPairs_eq_foldl_set]
  exact h pairs [] set nil

theorem nodup_keys_ofPairs (pairs : List (String × α)) : (keys (ofPairs pairs)).Nodup :=
  ofPairs_induction (P := fun fs => fs.keys.Nodup) pairs List.nodup_nil
    fun p _ _ h => nodup_keys_set h p.1 p.2

theorem ofPairs_of_nodup {fs : Fields α} (h : fs.keys.Nodup) : ofPairs fs = fs := by
  rw [ofPairs_eq_foldl_set, foldl_set_of_nodup [] fs h, List.nil_append]

theorem mem_of_mem_ofPairs {pairs : List (String × α)} {f : String × α}
    (h : f ∈ ofPairs pairs) : f ∈ pairs := by
  have hall : ∀ f ∈ ofPairs pairs, f ∈ pairs := by
    refine ofPairs_induction (P := fun fs => ∀ f ∈ fs, f ∈ pairs) pairs nofun ?_
    intro p hp fs hfs f hf
    rcases mem_set hf with hf | rfl
    · exact hfs f hf
    · exact hp
  exact hall f h

theorem length_ofPairs_le (pairs : List (String × α)) :
    (ofPairs pairs).length ≤ pairs.length := by
  have h : ∀ (pairs : List (String × α)) (fs : Fields α),
      (pairs.foldl (fun fs (k, v) => Fields.set fs k v) fs).length ≤ fs.length + pairs.length := by
    intro pairs
    induction pairs with
    | nil => exact fun fs => Nat.le_refl _
    | cons p pairs ih =>
      intro fs
      obtain ⟨k, v⟩ := p
      have hset := length_set_le fs k v
      rw [List.foldl_cons, List.length_cons]
      exact Nat.le_trans (ih (fs.set k v)) (by omega)
  have hp := h pairs []
  rw [ofPairs_eq_foldl_set]
  simpa using hp

end SaveTree.Fields
