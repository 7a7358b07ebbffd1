/-
  Sets of characters given by tables.

  Where the ranges of a table are in order, the search finds exactly the characters that lie in
  a range (`contains_iff`). The table of the alphanumeric characters is in order, and of the
  characters below 0x80 it holds the letters and the digits.
-/
import Mathlib.Data.List.Chain
import SaveTree.Text.Alphanumeric

namespace SaveTree.CharSet

/-- A character is in the set if it lies in a range. -/
instance : Membership Char CharSet :=
  ⟨fun s c => ∃ r ∈ s.ranges.toList, r.1 ≤ c.toNat ∧ c.toNat ≤ r.2⟩

theorem mem_iff {s : CharSet} {c : Char} :
    c ∈ s ↔ ∃ r ∈ s.ranges.toList, r.1 ≤ c.toNat ∧ c.toNat ≤ r.2 :=
  Iff.rfl

/-- The range `a` holds a code point and ends before the range `b`. -/
def Before (a b : Nat × Nat) : Prop := a.1 ≤ a.2 ∧ a.2 < b.1

instance (a b : Nat × Nat) : Decidable (Before a b) := inferInstanceAs (Decidable (_ ∧ _))

instance : IsTrans (Nat × Nat) Before where
  trans := by
    intro a b c hab hbc
    unfold Before at *
    omega

/-- The ranges follow one another. -/
def Ordered (s : CharSet) : Prop := s.ranges.toList.IsChain Before

instance (s : CharSet) : Decidable s.Ordered := inferInstanceAs (Decidable (List.IsChain _ _))

theorem Ordered.before {s : CharSet} (h : s.Ordered) {i j : Nat} {a b : Nat × Nat} (hij : i < j)
    (ha : s.ranges[i]? = some a) (hb : s.ranges[j]? = some b) : Before a b := by
  rw [← Array.getElem?_toList] at ha hb
  obtain ⟨hi, rfl⟩ := List.getElem?_eq_some_iff.1 ha
  obtain ⟨hj, rfl⟩ := List.getElem?_eq_some_iff.1 hb
  exact List.pairwise_iff_getElem.1 (List.isChain_iff_pairwise.1 h) i j hi hj hij

/-- One of the ranges from number `first` to below `last` holds the code point. -/
def Holds (s : CharSet) (code first last : Nat) : Prop :=
  ∃ i r, first ≤ i ∧ i < last ∧ s.ranges[i]? = some r ∧ r.1 ≤ code ∧ code ≤ r.2

section Search

variable {s : CharSet} {code first mid last : Nat} {r : Nat × Nat}

/-- A range that starts at or below the code point leaves out the ranges before it. -/
theorem holds_from (h : s.Ordered) (hr : s.ranges[mid]? = some r) (hc : r.1 ≤ code)
    (hm : first ≤ mid) : s.Holds code first last ↔ s.Holds code mid last := by
  constructor
  · rintro ⟨i, a, -, hl, ha, hal, hah⟩
    refine ⟨i, a, ?_, hl, ha, hal, hah⟩
    apply Nat.le_of_not_lt
    intro hi
    have hb := (h.before hi ha hr).2
    omega
  · rintro ⟨i, a, hi, hx⟩
    exact ⟨i, a, hm.trans hi, hx⟩

/-- A range that starts above the code point leaves out itself and the ranges behind it. -/
theorem holds_below (h : s.Ordered) (hr : s.ranges[mid]? = some r) (hc : code < r.1)
    (hm : mid ≤ last) : s.Holds code first last ↔ s.Holds code first mid := by
  constructor
  · rintro ⟨i, a, hf, -, ha, hal, hah⟩
    refine ⟨i, a, hf, ?_, ha, hal, hah⟩
    apply Nat.lt_of_not_le
    intro hi
    obtain rfl | hi := Nat.eq_or_lt_of_le hi
    · obtain rfl := Option.some.inj (hr.symm.trans ha)
      omega
    · obtain ⟨hrr, hra⟩ := h.before hi hr ha
      omega
  · rintro ⟨i, a, hf, hi, hx⟩
    exact ⟨i, a, hf, hi.trans_le hm, hx⟩

theorem holds_one (hr : s.ranges[first]? = some r) :
    s.Holds code first (first + 1) ↔ r.1 ≤ code ∧ code ≤ r.2 := by
  constructor
  · rintro ⟨i, a, hf, hi, ha, hx⟩
    obtain rfl : first = i := by omega
    obtain rfl := Option.some.inj (hr.symm.trans ha)
    exact hx
  · exact fun hx => ⟨first, r, Nat.le_refl _, Nat.lt_succ_self _, hr, hx⟩

end Search

/-- The search looks through the `size` ranges from number `first` on. -/
theorem search_iff {s : CharSet} (h : s.Ordered) (code : Nat) {first size : Nat}
    (hs : first + size ≤ s.ranges.size) :
    s.search code first size = true ↔ s.Holds code first (first + size) := by
  have hin : ∀ m, m < first + size → s.ranges[m]? ≠ none := by
    intro m hm hn
    rw [Array.getElem?_eq_none_iff] at hn
    omega
  fun_induction search s code first size with
  | case1 first =>
    refine iff_of_false nofun ?_
    rintro ⟨i, r, hf, hi, -⟩
    omega
  | case2 first low high hr =>
    rw [holds_one hr, Bool.and_eq_true, decide_eq_true_eq, decide_eq_true_eq]
  | case3 first hr => exact absurd hr (hin first (Nat.lt_succ_self _))
  | case4 first size h0 h1 half low high hr hc ih =>
    have hh : first + half + (size - half) = first + size := by omega
    rw [holds_from h hr hc (Nat.le_add_right _ _), ← hh]
    exact ih (by omega) (fun m hm => hin m (by omega))
  | case5 first size h0 h1 half low high hr hc ih =>
    rw [holds_below h hr (Nat.lt_of_not_le hc) (by omega)]
    exact ih (by omega) (fun m hm => hin m (by omega))
  | case6 first size h0 h1 half hr => exact absurd hr (hin _ (by omega))

theorem contains_iff {s : CharSet} (h : s.Ordered) (c : Char) : s.contains c = true ↔ c ∈ s := by
  rw [contains, search_iff h c.toNat (by omega), Nat.zero_add]
  constructor
  · rintro ⟨i, r, -, -, hr, hx⟩
    rw [← Array.getElem?_toList] at hr
    exact ⟨r, List.mem_of_getElem? hr, hx⟩
  · rintro ⟨r, hr, hx⟩
    obtain ⟨i, hi, rfl⟩ := List.mem_iff_getElem.1 hr
    exact ⟨i, _, Nat.zero_le _, by simpa using hi, by simp, hx⟩

/-! ## The alphanumeric characters -/

theorem ordered_alphanumeric : alphanumeric.Ordered := by decide +kernel

/-- The ranges below 0x80. -/
theorem mem_ranges_of_lt {r : Nat × Nat} (h : r.1 < 0x80) : r ∈ alphanumeric.ranges.toList ↔
    r = (48, 57) ∨ r = (65, 90) ∨ r = (97, 122) := by
  have hr : ∀ r ∈ alphanumeric.ranges.toList, r.1 < 0x80 →
      r = (48, 57) ∨ r = (65, 90) ∨ r = (97, 122) := by decide +kernel
  refine ⟨fun hm => hr r hm h, ?_⟩
  rintro (rfl | rfl | rfl) <;> decide +kernel

theorem isAlphanum_iff (c : Char) : c.isAlphanum = true ↔ (48 ≤ c.toNat ∧ c.toNat ≤ 57) ∨
    (65 ≤ c.toNat ∧ c.toNat ≤ 90) ∨ (97 ≤ c.toNat ∧ c.toNat ≤ 122) := by
  have hc : c.isAlphanum = ((decide (c.val ≥ 65 ∧ c.val ≤ 90) ||
      decide (c.val ≥ 97) && decide (c.val ≤ 122)) || decide (c.val ≥ 48) && decide (c.val ≤ 57)) :=
    rfl
  rw [hc]
  simp only [Bool.or_eq_true, Bool.and_eq_true, decide_eq_true_eq, ge_iff_le,
    UInt32.le_iff_toNat_le, Char.toNat_val, UInt32.reduceToNat]
  omega

/-- Of the characters below 0x80 the letters and the digits are alphanumeric. -/
theorem mem_alphanumeric_of_lt {c : Char} (h : c.toNat < 0x80) :
    c ∈ alphanumeric ↔ c.isAlphanum = true := by
  rw [isAlphanum_iff, mem_iff]
  constructor
  · rintro ⟨r, hr, hl, hu⟩
    obtain rfl | rfl | rfl := (mem_ranges_of_lt (by omega)).1 hr
    · exact Or.inl ⟨hl, hu⟩
    · exact Or.inr (Or.inl ⟨hl, hu⟩)
    · exact Or.inr (Or.inr ⟨hl, hu⟩)
  · rintro (hx | hx | hx)
    · exact ⟨_, (mem_ranges_of_lt (by decide)).2 (Or.inl rfl), hx⟩
    · exact ⟨_, (mem_ranges_of_lt (by decide)).2 (Or.inr (Or.inl rfl)), hx⟩
    · exact ⟨_, (mem_ranges_of_lt (by decide)).2 (Or.inr (Or.inr rfl)), hx⟩

end SaveTree.CharSet
