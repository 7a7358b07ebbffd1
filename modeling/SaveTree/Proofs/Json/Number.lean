/-
  The numbers of JSON text are within their range.

  Digits are taken up only as long as the significand fits 64 bits, scaling by a power of ten
  refuses the infinity, and dividing by one keeps a number finite. So a number that is read is an
  integer of 64 bits, with or without a sign, or a finite float (`sound_readNumber`).
-/
import SaveTree.Json.Reader
import SaveTree.Proofs.Json.Document
import SaveTree.Proofs.Number.Finite

namespace SaveTree.Json

variable {negative : Bool} {significand : Nat} {e : Int} {cs rest : List Char} {x : JsonNumber}

/-! ## Scaling -/

theorem two_mul_one :
    2 * BinaryFormat.double.one = 2 ^ (1023 + BinaryFormat.double.fractionBits) := by
  rw [BinaryFormat.one, Nat.mul_comm, ← Nat.pow_succ]
  exact congrArg (2 ^ ·) (by decide)

/-- A power of ten beyond the first is rounded to a number of at least two. -/
theorem powerOfTen_le {n : Nat} (hn : 0 < n) :
    2 * BinaryFormat.double.one ≤ BinaryFormat.double.units (powerOfTen n) := by
  have hten : 2 ≤ 10 ^ n := Nat.le_trans (by decide) (Nat.pow_le_pow_right (by decide) hn)
  rw [two_mul_one]
  refine BinaryFormat.le_units ((Nat.le_div_iff_mul_le (Nat.two_pow_pos _)).2 ?_)
  refine BinaryFormat.le_nearest (by decide) ?_
  rw [Nat.div_one, ← two_mul_one]
  exact Nat.mul_le_mul_right _ hten

theorem scale_lt_infinity {magnitude r : Nat} (hm : magnitude < BinaryFormat.double.infinity)
    (h : scale magnitude e = some r) : r < BinaryFormat.double.infinity := by
  fun_induction scale magnitude e with
  | case1 => cases h
  | case2 magnitude e _ _ product hproduct =>
    rw [← Option.some.inj h]
    exact Nat.lt_of_le_of_ne (BinaryFormat.nearest_le _ _ _) hproduct
  | case3 magnitude e hsmall hsign =>
    rw [← Option.some.inj h]
    exact BinaryFormat.quotient_lt_infinity (k := 2044) (by decide) hm
      (powerOfTen_le (by omega))
  | case4 =>
    rw [← Option.some.inj h]
    exact hm
  | case5 => cases h
  | case6 magnitude e hsmall hzero hsign ih =>
    exact ih (BinaryFormat.quotient_lt_infinity (k := 2044) (by decide) hm
      (powerOfTen_le (by decide))) h

theorem nearest_lt_of_le (h : significand ≤ maxSignificand) :
    BinaryFormat.double.nearest significand 1 < BinaryFormat.double.infinity := by
  refine BinaryFormat.nearest_lt_infinity (k := 1085) (by decide) ?_
  have hlt : significand < 2 ^ 64 := Nat.lt_of_le_of_lt h (by decide)
  rw [Nat.div_one, BinaryFormat.one]
  refine Nat.lt_of_lt_of_le (Nat.mul_lt_mul_of_pos_right hlt (Nat.two_pow_pos _)) ?_
  rw [← Nat.pow_add]
  exact Nat.pow_le_pow_right Nat.two_pos (by decide)

/-! ## Readers -/

theorem absorb_le {limit n : Nat} (h : n ≤ limit) (count : Nat) (cs : List Char) :
    (absorb limit n count cs).1 ≤ limit := by
  fun_induction absorb limit n count cs with
  | case1 => exact h
  | case2 n count c rest hc ih => exact ih hc.2
  | case3 => exact h

theorem sound_makeFloat (hs : significand ≤ maxSignificand)
    (h : makeFloat negative significand e cs = .ok (x, rest)) : x.Sound := by
  unfold makeFloat at h
  split at h <;> cases h
  next magnitude hscale =>
  exact Binary.isFinite_ofMagnitude (scale_lt_infinity (nearest_lt_of_le hs) hscale)

theorem sound_zero (negative : Bool) : (JsonNumber.float (Binary.ofMagnitude negative 0)).Sound :=
  Binary.isFinite_ofMagnitude (by decide +kernel)

theorem sound_readExponent (hs : significand ≤ maxSignificand)
    (h : readExponent negative significand e cs = .ok (x, rest)) : x.Sound := by
  unfold readExponent at h
  split at h
  next sign down after hsign =>
  split at h
  · cases h
  next c text =>
  split at h
  · cases h
  generalize absorb maxExponent 0 0 (c :: text) = absorbed at h
  obtain ⟨n, count, digits⟩ := absorbed
  dsimp only at h
  split at h
  · exact sound_makeFloat hs h
  split at h
  · cases h
  · cases h
    exact sound_zero negative

theorem sound_readExponent? (hs : significand ≤ maxSignificand)
    (h : readExponent? negative significand e cs = .ok (x, rest)) : x.Sound := by
  unfold readExponent? at h
  split at h
  · exact sound_readExponent hs h
  · exact sound_readExponent hs h
  · exact sound_makeFloat hs h

theorem sound_readFraction (hs : significand ≤ maxSignificand)
    (h : readFraction negative significand e cs = .ok (x, rest)) : x.Sound := by
  unfold readFraction at h
  have habsorb := absorb_le hs 0 cs
  generalize absorb maxSignificand significand 0 cs = absorbed at h habsorb
  obtain ⟨n, count, digits⟩ := absorbed
  dsimp only at h habsorb
  split at h
  · exact sound_readExponent? habsorb h
  split at h
  · split at h <;> cases h
  · exact sound_readExponent? habsorb h

theorem sound_makeInteger (hs : significand ≤ maxSignificand) :
    (makeInteger negative significand).Sound := by
  have hlt : significand < 2 ^ 64 := Nat.lt_of_le_of_lt hs (by decide)
  unfold makeInteger
  split
  · exact ⟨by omega, by omega⟩
  split
  · exact ⟨by omega, by omega⟩
  · exact Binary.isFinite_ofMagnitude (nearest_lt_of_le hs)

/-- A number that is read is within its range. -/
theorem sound_readNumber (h : readNumber negative cs = .ok (x, rest)) : x.Sound := by
  unfold readNumber at h
  split at h
  · cases h
  next c text =>
  split at h
  · cases h
  split at h
  · cases h
  have habsorb := absorb_le (Nat.zero_le maxSignificand) 0 (c :: text)
  generalize absorb maxSignificand 0 0 (c :: text) = absorbed at h habsorb
  obtain ⟨n, count, digits⟩ := absorbed
  dsimp only at h habsorb
  split at h
  · exact sound_readFraction habsorb h
  · exact sound_readExponent habsorb h
  · exact sound_readExponent habsorb h
  · split at h
    · cases h
      exact sound_makeInteger habsorb
    · exact sound_makeFloat habsorb h

end SaveTree.Json
