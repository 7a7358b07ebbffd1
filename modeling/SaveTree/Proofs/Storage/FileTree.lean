/-
  What stands where in a file tree.

  A location of a tree holds nothing, a directory or a file with its bytes (`occupant?`). Putting a
  node under a name or dropping a name changes what stands at that one place; everything else
  stays where it was. This needs no more of the old node than that it is no directory, and of the
  new one that nothing lies below it.
-/
import SaveTree.Fields.Lemmas
import SaveTree.Storage.FileTree

namespace SaveTree

/-! ## Fields -/

namespace Fields

variable {α : Type}

theorem get?_modify (fs : Fields α) (name : String) (g : α → α) (k : String) :
    (fs.modify name g).get? k = if name = k then (fs.get? name).map g else fs.get? k := by
  unfold modify
  split
  · next v hv => rw [get?_set, hv, Option.map_some]
  · next hv =>
    rw [hv, Option.map_none]
    split
    · next hk => rw [← hk, hv]
    · rfl

theorem keys_modify (fs : Fields α) (name : String) (g : α → α) :
    (fs.modify name g).keys = fs.keys := by
  unfold modify
  split
  · next v hv =>
    have hm : name ∈ fs.keys := mem_keys_of_get? hv
    rw [keys_set, if_pos hm]
  · rfl

theorem get?_erase_ne (fs : Fields α) {name k : String} (h : k ≠ name) :
    (fs.erase name).get? k = fs.get? k := by
  induction fs with
  | nil => rfl
  | cons p fs ih =>
    obtain ⟨n, v⟩ := p
    unfold erase
    split
    · next hn => rw [get?_cons, if_neg (fun hk => h (hk.symm.trans hn))]
    · rw [get?_cons, get?_cons, ih]

theorem get?_erase_self {fs : Fields α} (h : fs.keys.Nodup) (name : String) :
    (fs.erase name).get? name = none := by
  induction fs with
  | nil => rfl
  | cons p fs ih =>
    obtain ⟨n, v⟩ := p
    rw [keys_cons, List.nodup_cons] at h
    unfold erase
    split
    · next hn =>
      rw [← Option.not_isSome_iff_eq_none, ← mem_keys_iff, ← hn]
      exact h.1
    · next hn => rw [get?_cons, if_neg hn, ih h.2]

end Fields

/-! ## Occupants -/

/-- What stands at a location of a file tree. -/
inductive Occupant where
  | directory
  | file (bytes : Bytes)
  deriving DecidableEq

namespace FileTree

/-- A node without what lies below it. -/
def occupant : FileTree → Occupant
  | directory _ => .directory
  | file bytes => .file bytes

/-- What stands at a location, if anything does. -/
def occupant? (t : FileTree) (location : List String) : Option Occupant :=
  (t.get? location).map occupant

variable {t : FileTree} {here location : List String} {name : String} {es : Fields FileTree}

theorem get?_nil (t : FileTree) : t.get? [] = some t := by
  unfold get?
  rfl

theorem get?_file_cons (bytes : Bytes) (name : String) (names : List String) :
    (file bytes).get? (name :: names) = none := by
  unfold get?
  rfl

theorem get?_directory_cons (es : Fields FileTree) (name : String) (names : List String) :
    (directory es).get? (name :: names) = (Fields.get? es name).bind fun c => c.get? names := by
  rw [get?]
  cases Fields.get? es name <;> rfl

theorem get?_append (t : FileTree) (l m : List String) :
    t.get? (l ++ m) = (t.get? l).bind fun c => c.get? m := by
  induction l generalizing t with
  | nil => rw [List.nil_append, get?_nil, Option.bind_some]
  | cons name l ih =>
    rw [List.cons_append]
    cases t with
    | file bytes => rw [get?_file_cons, get?_file_cons, Option.bind_none]
    | directory es =>
      rw [get?_directory_cons, get?_directory_cons, Option.bind_assoc]
      congr 1
      funext c
      exact ih c

theorem occupant?_eq_directory_iff :
    t.occupant? location = some .directory ↔ ∃ es, t.get? location = some (.directory es) := by
  unfold occupant?
  cases t.get? location with
  | none => simp
  | some c => cases c <;> simp [occupant]

theorem occupant?_eq_file_iff {bytes : Bytes} :
    t.occupant? location = some (.file bytes) ↔ t.get? location = some (.file bytes) := by
  unfold occupant?
  cases t.get? location with
  | none => simp
  | some c => cases c <;> simp [occupant]

theorem occupant?_root_of_isSome {o : Occupant} (h : t.occupant? (name :: location) = some o) :
    t.occupant? [] = some .directory := by
  cases t with
  | file bytes =>
    rw [occupant?, get?_file_cons] at h
    cases h
  | directory es => rw [occupant?, get?_nil]; rfl

/-- Only a directory has something below it. -/
theorem directory_of_occupant?_append {m : List String} {o : Occupant} (hm : m ≠ [])
    (h : t.occupant? (location ++ m) = some o) : t.occupant? location = some .directory := by
  obtain ⟨name, m, rfl⟩ := List.exists_cons_of_ne_nil hm
  unfold occupant? at h
  rw [get?_append] at h
  cases hc : t.get? location with
  | none =>
    rw [hc] at h
    cases h
  | some c =>
    rw [hc] at h
    have hr := occupant?_root_of_isSome (t := c) h
    rw [occupant?, get?_nil] at hr
    rw [occupant?, hc]
    exact hr

theorem occupant?_dropLast (h : t.occupant? location = some .directory) :
    t.occupant? location.dropLast = some .directory := by
  by_cases hl : location = []
  · rw [hl] at h ⊢
    exact h
  · rw [← List.dropLast_concat_getLast hl] at h
    exact directory_of_occupant?_append (List.cons_ne_nil _ _) h

/-- A directory has an entry of a name exactly if something stands there. -/
theorem hasKey_iff (h : t.get? here = some (.directory es)) (name : String) :
    Fields.hasKey es name = (t.occupant? (here ++ [name])).isSome := by
  rw [occupant?, get?_append, h, Option.bind_some, get?_directory_cons, Option.isSome_map]
  unfold Fields.hasKey
  cases Fields.get? es name with
  | none => rfl
  | some c => rw [Option.bind_some, get?_nil]

/-! ## Changes of one directory -/

theorem get?_change_self {f : Fields FileTree → Fields FileTree}
    (h : t.get? location = some (.directory es)) :
    (t.change location f).get? location = some (.directory (f es)) := by
  induction location generalizing t with
  | nil =>
    rw [get?_nil] at h
    cases h
    rw [change, get?_nil]
  | cons name location ih =>
    cases t with
    | file bytes =>
      rw [get?_file_cons] at h
      cases h
    | directory fs =>
      rw [get?_directory_cons] at h
      rw [change, get?_directory_cons, Fields.get?_modify, if_pos rfl]
      cases hc : Fields.get? fs name with
      | none =>
        rw [hc] at h
        cases h
      | some c =>
        rw [hc] at h
        exact ih h

/-- A change that touches one name of a directory keeps what stands anywhere else. -/
theorem occupant?_change {f : Fields FileTree → Fields FileTree} {l : List String}
    (hf : ∀ es k, k ≠ name → Fields.get? (f es) k = Fields.get? es k)
    (hl : ¬ location ++ [name] <+: l) :
    (t.change location f).occupant? l = t.occupant? l := by
  induction location generalizing t l with
  | nil =>
    cases t with
    | file bytes => rfl
    | directory es =>
      cases l with
      | nil => rfl
      | cons k l =>
        have hk : k ≠ name := by
          rintro rfl
          exact hl ⟨l, rfl⟩
        rw [change, occupant?, occupant?, get?_directory_cons, get?_directory_cons, hf es k hk]
  | cons n location ih =>
    cases t with
    | file bytes => rfl
    | directory es =>
      cases l with
      | nil => rfl
      | cons k l =>
        rw [change, occupant?, occupant?, get?_directory_cons, get?_directory_cons,
          Fields.get?_modify]
        split
        · next hk =>
          subst hk
          have hl' : ¬ location ++ [name] <+: l := fun h => hl (List.cons_prefix_cons.2 ⟨rfl, h⟩)
          cases Fields.get? es n with
          | none => rfl
          | some c => exact ih hl'
        · rfl

/-- What stands elsewhere is kept, if nothing but a single node was at the place. -/
theorem occupant?_change_of_ne {f : Fields FileTree → Fields FileTree} {l : List String}
    {o : Occupant} (hf : ∀ es k, k ≠ name → Fields.get? (f es) k = Fields.get? es k)
    (hd : t.occupant? (location ++ [name]) ≠ some .directory) (hl : l ≠ location ++ [name])
    (h : t.occupant? l = some o) : (t.change location f).occupant? l = some o := by
  rw [occupant?_change hf, h]
  rintro ⟨m, rfl⟩
  have hm : m ≠ [] := by
    rintro rfl
    exact hl (List.append_nil _)
  exact hd (directory_of_occupant?_append hm h)

theorem get?_put (h : t.get? location = some (.directory es)) (node : FileTree) :
    (t.put location name node).get? (location ++ [name]) = some node := by
  rw [put, get?_append, get?_change_self h, Option.bind_some, get?_directory_cons,
    Fields.get?_set, if_pos rfl, Option.bind_some, get?_nil]

theorem occupant?_put_self (h : t.occupant? location = some .directory) (node : FileTree) :
    (t.put location name node).occupant? (location ++ [name]) = some node.occupant := by
  obtain ⟨es, he⟩ := occupant?_eq_directory_iff.1 h
  rw [occupant?, get?_put he, Option.map_some]

theorem occupant?_put_of_ne {l : List String} {o : Occupant} (node : FileTree)
    (hd : t.occupant? (location ++ [name]) ≠ some .directory) (hl : l ≠ location ++ [name])
    (h : t.occupant? l = some o) : (t.put location name node).occupant? l = some o := by
  refine occupant?_change_of_ne (fun es k hk => ?_) hd hl h
  rw [Fields.get?_set, if_neg hk.symm]

theorem occupant?_drop_of_ne {l : List String} {o : Occupant}
    (hd : t.occupant? (location ++ [name]) ≠ some .directory) (hl : l ≠ location ++ [name])
    (h : t.occupant? l = some o) : (t.drop location name).occupant? l = some o :=
  occupant?_change_of_ne (fun es _ hk => Fields.get?_erase_ne es hk) hd hl h

/-! ## Distinct names -/

/-- No directory has two entries of one name. -/
def DistinctNames (t : FileTree) : Prop :=
  ∀ location es, t.get? location = some (.directory es) → (Fields.keys es).Nodup

theorem distinctNames_file (bytes : Bytes) : (file bytes).DistinctNames := by
  intro location es h
  cases location with
  | nil => cases (get?_nil _).symm.trans h
  | cons name location => cases (get?_file_cons bytes name location).symm.trans h

theorem distinctNames_directory_iff : (directory es).DistinctNames ↔
    (Fields.keys es).Nodup ∧ ∀ name c, Fields.get? es name = some c → c.DistinctNames := by
  refine ⟨fun h => ⟨h [] es (get?_nil _), fun name c hc location fs hf => ?_⟩, fun h => ?_⟩
  · refine h (name :: location) fs ?_
    rw [get?_directory_cons, hc]
    exact hf
  · obtain ⟨hn, hc⟩ := h
    intro location fs hf
    cases location with
    | nil =>
      rw [get?_nil] at hf
      cases hf
      exact hn
    | cons name location =>
      rw [get?_directory_cons] at hf
      cases hg : Fields.get? es name with
      | none =>
        rw [hg] at hf
        cases hf
      | some c =>
        rw [hg] at hf
        exact hc name c hg location fs hf

theorem distinctNames_empty : empty.DistinctNames := by
  refine distinctNames_directory_iff.2 ⟨List.nodup_nil, fun name c h => ?_⟩
  rw [Fields.get?_nil] at h
  cases h

theorem distinctNames_put (ht : t.DistinctNames) {node : FileTree} (hn : node.DistinctNames)
    (location : List String) (name : String) : (t.put location name node).DistinctNames := by
  unfold put
  induction location generalizing t with
  | nil =>
    cases t with
    | file bytes => exact ht
    | directory es =>
      obtain ⟨hk, hc⟩ := distinctNames_directory_iff.1 ht
      refine distinctNames_directory_iff.2 ⟨Fields.nodup_keys_set hk name node, fun k c h => ?_⟩
      rw [Fields.get?_set] at h
      split at h
      · cases h
        exact hn
      · exact hc k c h
  | cons n location ih =>
    cases t with
    | file bytes => exact ht
    | directory es =>
      obtain ⟨hk, hc⟩ := distinctNames_directory_iff.1 ht
      rw [change]
      refine distinctNames_directory_iff.2 ⟨by rwa [Fields.keys_modify], fun k c h => ?_⟩
      rw [Fields.get?_modify] at h
      split at h
      · obtain ⟨d, hd, rfl⟩ := Option.map_eq_some_iff.1 h
        exact ih (hc n d hd)
      · exact hc k c h

theorem occupant?_drop_self (ht : t.DistinctNames)
    (h : t.occupant? location = some .directory) (name : String) :
    (t.drop location name).occupant? (location ++ [name]) = none := by
  obtain ⟨es, he⟩ := occupant?_eq_directory_iff.1 h
  rw [occupant?, drop, get?_append, get?_change_self he, Option.bind_some, get?_directory_cons,
    Fields.get?_erase_self (ht location es he)]
  rfl

end FileTree

end SaveTree
