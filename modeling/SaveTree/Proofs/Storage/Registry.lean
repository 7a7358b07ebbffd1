/-
  The order of a registry.

  A registration puts the adapter last and sorts the whole registry again. A sort moves no adapter
  past one of its own priority (`filter_register`), so after any sequence of registrations the
  adapters of each priority stand as they came (`Sorts`). A look-up takes the first adapter that
  fits, which of those that fit is the earliest of the least priority (`Foremost`).
-/
import SaveTree.Proofs.Storage.Listing

namespace SaveTree

namespace Store

variable {s : Store} {a b : Adapter} {as sorted : List Adapter} {fits : Adapter → Bool}

/-- The store after a sequence of registrations. -/
def registerAll (s : Store) (as : List Adapter) : Store := as.foldl register s

/-! ## The order -/

/-- The adapters of a sequence in order of priority, those of one priority as they came. -/
structure Sorts (as sorted : List Adapter) : Prop where
  perm : sorted.Perm as
  priorities : sorted.Pairwise fun a b => a.priority ≤ b.priority
  stable : ∀ p, sorted.filter (·.priority = p) = as.filter (·.priority = p)

/-- Sorting again keeps the order among the adapters of a priority. -/
theorem filter_register (s : Store) (a : Adapter) (p : Int32) :
    (s.register a).adapters.filter (·.priority = p) =
      (s.adapters ++ [a]).filter (·.priority = p) := by
  have hequal : ((s.adapters ++ [a]).filter (·.priority = p)).Pairwise
      fun x y => decide (x.priority ≤ y.priority) = true := by
    refine List.pairwise_of_forall_mem_list fun x hx y hy => decide_eq_true ?_
    have hx : x.priority = p := by simpa using (List.mem_filter.1 hx).2
    have hy : y.priority = p := by simpa using (List.mem_filter.1 hy).2
    rw [hx, hy]
    exact Int32.le_refl p
  have hsub := List.sublist_mergeSort priority_le_trans priority_le_total hequal
    List.filter_sublist
  have hperm : (s.register a).adapters.Perm (s.adapters ++ [a]) := List.mergeSort_perm _ _
  have hboth := hsub.filter (·.priority = p)
  rw [List.filter_filter] at hboth
  simp only [Bool.and_self] at hboth
  exact (hboth.eq_of_length (hperm.filter _).length_eq.symm).symm

theorem sorts_nil : Sorts [] [] := ⟨.refl [], .nil, fun _ => rfl⟩

theorem Sorts.register (h : Sorts as s.adapters) (a : Adapter) :
    Sorts (as ++ [a]) (s.register a).adapters := by
  refine ⟨?_, pairwise_register s a, fun p => ?_⟩
  · exact (List.mergeSort_perm _ _).trans (h.perm.append_right [a])
  · rw [filter_register, List.filter_append, List.filter_append, h.stable p]

theorem Sorts.registerAll (h : Sorts as s.adapters) (later : List Adapter) :
    Sorts (as ++ later) (s.registerAll later).adapters := by
  induction later generalizing s as with
  | nil =>
    rw [List.append_nil]
    exact h
  | cons a later ih =>
    rw [List.append_cons]
    exact ih (h.register a)

/-! ## Look-ups -/

/-- Of the adapters of a sequence that fit, the earliest of the least priority. -/
def Foremost (as : List Adapter) (fits : Adapter → Bool) (a : Adapter) : Prop :=
  ∃ i : Nat, as[i]? = some a ∧ fits a = true ∧ ∀ (j : Nat) (b : Adapter), as[j]? = some b →
    fits b = true → a.priority < b.priority ∨ a.priority = b.priority ∧ i ≤ j

theorem Foremost.unique (ha : Foremost as fits a) (hb : Foremost as fits b) : a = b := by
  obtain ⟨i, hi, hfa, hleast⟩ := ha
  obtain ⟨j, hj, hfb, hleast'⟩ := hb
  rcases hleast j b hj hfb with hlt | ⟨heq, hij⟩
  · rcases hleast' i a hi hfa with hlt' | ⟨heq, -⟩
    · exact absurd hlt' (Int32.lt_asymm hlt)
    · exact absurd (heq ▸ hlt) Int32.lt_irrefl
  · rcases hleast' i a hi hfa with hlt | ⟨-, hji⟩
    · exact absurd (heq ▸ hlt) Int32.lt_irrefl
    · rw [Nat.le_antisymm hij hji, hj] at hi
      exact (Option.some.inj hi).symm

/-- What stands first among those that fit has a priority as low as any of them. -/
theorem Sorts.priority_le (h : Sorts as sorted) (hfind : sorted.find? fits = some a)
    (hb : b ∈ as) (hfits : fits b = true) : a.priority ≤ b.priority := by
  obtain ⟨-, before, after, hsplit, hbefore⟩ := List.find?_eq_some_iff_append.1 hfind
  have hordered := h.priorities
  rw [hsplit] at hordered
  have hmem : b ∈ before ++ a :: after := hsplit ▸ h.perm.mem_iff.2 hb
  rcases List.mem_append.1 hmem with hb | hb
  · have hnot := hbefore b hb
    rw [hfits] at hnot
    cases hnot
  rcases List.mem_cons.1 hb with rfl | hb
  · exact Int32.le_refl _
  · exact (List.pairwise_cons.1 (List.pairwise_append.1 hordered).2.1).1 b hb

/-- What stands first among those that fit came first of those that fit and have its priority. -/
theorem Sorts.find?_priority (h : Sorts as sorted) (hfind : sorted.find? fits = some a) :
    (as.filter (·.priority = a.priority)).find? fits = some a := by
  rw [← h.stable, List.find?_filter]
  obtain ⟨hfits, before, after, hsplit, hbefore⟩ := List.find?_eq_some_iff_append.1 hfind
  refine List.find?_eq_some_iff_append.2 ⟨by simp [hfits], before, after, hsplit, ?_⟩
  intro b hb
  have hnot := hbefore b hb
  rw [Bool.not_eq_true'] at hnot
  simp [hnot]

theorem Sorts.foremost (h : Sorts as sorted) (hfind : sorted.find? fits = some a) :
    Foremost as fits a := by
  have hfirst := h.find?_priority hfind
  rw [List.find?_filter] at hfirst
  obtain ⟨-, i, hi, hget, hearlier⟩ := List.find?_eq_some_iff_getElem.1 hfirst
  refine ⟨i, List.getElem?_eq_some_iff.2 ⟨hi, hget⟩, List.find?_some hfind, fun j b hj hb => ?_⟩
  obtain ⟨hlt, hgetb⟩ := List.getElem?_eq_some_iff.1 hj
  have hle := h.priority_le hfind (List.mem_of_getElem? hj) hb
  rcases Int32.le_iff_lt_or_eq.1 hle with hlower | hequal
  · exact .inl hlower
  · refine .inr ⟨hequal, Nat.not_lt.1 fun hji => ?_⟩
    have hnot := hearlier j hji
    rw [hgetb, hequal, hb] at hnot
    simp at hnot

/-- The first adapter that fits is the foremost of the sequence. -/
theorem Sorts.find?_eq_some_iff (h : Sorts as sorted) :
    sorted.find? fits = some a ↔ Foremost as fits a := by
  refine ⟨h.foremost, fun ha => ?_⟩
  cases hfind : sorted.find? fits with
  | none =>
    obtain ⟨i, hi, hfits, -⟩ := ha
    have hmem : a ∈ sorted := h.perm.mem_iff.2 (List.mem_of_getElem? hi)
    exact absurd hfits (List.find?_eq_none.1 hfind a hmem)
  | some b => rw [ha.unique (h.foremost hfind)]

theorem Sorts.find?_eq_none_iff (h : Sorts as sorted) :
    sorted.find? fits = none ↔ ∀ a ∈ as, fits a = false := by
  simp only [List.find?_eq_none, h.perm.mem_iff, Bool.not_eq_true]

theorem firstEnabled_eq_ok_iff : s.firstEnabled = .ok a ↔ s.adapters.find? (·.enabled) = some a := by
  unfold firstEnabled enabledAdapters
  rw [← List.head?_filter]
  cases s.adapters.filter (·.enabled) <;> simp

theorem firstEnabled_eq_error_iff {e : Error} : s.firstEnabled = .error e ↔
    s.adapters.find? (·.enabled) = none ∧ e = .noEnabledAdapter := by
  unfold firstEnabled enabledAdapters
  rw [← List.head?_filter]
  cases s.adapters.filter (·.enabled) <;> simp [eq_comm]

theorem defaultFile_eq_ok_iff {path : String} {f : FileRef} :
    s.defaultFile path = .ok f ↔ ∃ a, s.firstEnabled = .ok a ∧ f = ⟨a.name, path⟩ := by
  unfold defaultFile
  cases s.firstEnabled <;> simp [bind, Except.bind, pure, Except.pure, eq_comm]

theorem defaultFile_eq_error_iff {path : String} {e : Error} :
    s.defaultFile path = .error e ↔ s.firstEnabled = .error e := by
  unfold defaultFile
  cases s.firstEnabled <;> simp [bind, Except.bind, pure, Except.pure]

/-- After any sequence of registrations the adapters are those of the sequence, sorted by priority
with equal ones as they came. A name means the foremost adapter of the name, and the first enabled
adapter is the foremost of all that are enabled; where no adapter fits, an error says so. -/
theorem registry_order (as : List Adapter) :
    Sorts as (empty.registerAll as).adapters ∧
    (∀ name a, (empty.registerAll as).adapter name = .ok a ↔ Foremost as (·.name = name) a) ∧
    (∀ name e, (empty.registerAll as).adapter name = .error e ↔
      (∀ a ∈ as, a.name ≠ name) ∧ e = .adapterNotFound name) ∧
    (∀ a, (empty.registerAll as).firstEnabled = .ok a ↔ Foremost as (·.enabled) a) ∧
    (∀ e, (empty.registerAll as).firstEnabled = .error e ↔
      (∀ a ∈ as, a.enabled = false) ∧ e = .noEnabledAdapter) ∧
    (∀ path f, (empty.registerAll as).defaultFile path = .ok f ↔
      ∃ a, Foremost as (·.enabled) a ∧ f = ⟨a.name, path⟩) ∧
    (∀ path e, (empty.registerAll as).defaultFile path = .error e ↔
      (∀ a ∈ as, a.enabled = false) ∧ e = .noEnabledAdapter) := by
  have h : Sorts as (empty.registerAll as).adapters := by
    simpa using Sorts.registerAll (s := empty) sorts_nil as
  refine ⟨h, fun name a => ?_, fun name e => ?_, fun a => ?_, fun e => ?_, fun path f => ?_,
    fun path e => ?_⟩
  · rw [adapter_eq_ok_iff, h.find?_eq_some_iff]
  · rw [adapter_eq_error_iff, h.find?_eq_none_iff]
    simp
  · rw [firstEnabled_eq_ok_iff, h.find?_eq_some_iff]
  · rw [firstEnabled_eq_error_iff, h.find?_eq_none_iff]
  · simp only [defaultFile_eq_ok_iff, firstEnabled_eq_ok_iff, h.find?_eq_some_iff]
  · rw [defaultFile_eq_error_iff, firstEnabled_eq_error_iff, h.find?_eq_none_iff]

end Store

end SaveTree
