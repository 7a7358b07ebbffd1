/-
  Rounding stays finite.

  The number nearest to a ratio is finite if the ratio has an exponent to spare, and no power of
  two below the ratio is above it. The shortest decimal of a float of 32 bits lies within its
  interval, far below what 64 bits hold, so a reader of that decimal sees a finite number
  (`isFinite_widen`).
-/
import SaveTree.Number.Shortest

namespace SaveTree

namespace BinaryFormat

variable {f : BinaryFormat} {num den m k : Nat}

theorem exponentStep_mul_two : 2 * f.exponentStep = 2 ^ (f.fractionBits + 1) := by
  rw [exponentStep, Nat.pow_succ, Nat.mul_comm]

theorem infinity_eq : f.infinity = (2 ^ f.exponentBits - 1) * f.exponentStep := by
  rw [infinity, signStep, exponentStep, Nat.pow_add, Nat.sub_mul, Nat.one_mul]

theorem infinity_lt_signStep : f.infinity < f.signStep := by
  have hsign : 0 < f.signStep := Nat.two_pow_pos _
  have hstep : 0 < f.exponentStep := Nat.two_pow_pos _
  unfold infinity
  omega

/-- A ratio below a power of two, in least units, is rounded to a pattern at most two exponents
above the spacing of that power. -/
theorem nearest_le_of_lt (h : num * f.one / den < 2 ^ (k + (f.fractionBits + 1))) :
    f.nearest num den ≤ (k + 2) * f.exponentStep := by
  have hlog := Nat.lt_log2_self (n := num * f.one / den)
  have hshift : Nat.log2 (num * f.one / den) - f.fractionBits ≤ k := by
    by_cases hzero : num * f.one / den = 0
    · rw [hzero, Nat.log2_zero]
      omega
    · have := (Nat.log2_lt hzero).2 h
      omega
  have hround : roundHalfEven (num * f.one)
      (den * 2 ^ (Nat.log2 (num * f.one / den) - f.fractionBits)) ≤ 2 * f.exponentStep := by
    refine Nat.le_trans (roundHalfEven_le _ _) ?_
    rw [← Nat.div_div_eq_div_mul, exponentStep_mul_two]
    refine Nat.div_lt_of_lt_mul (Nat.lt_of_lt_of_le hlog ?_)
    rw [← Nat.pow_add]
    exact Nat.pow_le_pow_right Nat.two_pos (by omega)
  refine Nat.le_trans (Nat.min_le_left _ _) ?_
  rw [Nat.add_mul]
  exact Nat.add_le_add (Nat.mul_le_mul_right _ hshift) hround

theorem nearest_lt_infinity (hk : k + 2 < 2 ^ f.exponentBits - 1)
    (h : num * f.one / den < 2 ^ (k + (f.fractionBits + 1))) :
    f.nearest num den < f.infinity := by
  rw [infinity_eq]
  exact Nat.lt_of_le_of_lt (nearest_le_of_lt h)
    (Nat.mul_lt_mul_of_pos_right hk (Nat.two_pow_pos _))

theorem units_lt (h : m / f.exponentStep ≤ k + 1) :
    f.units m < 2 ^ (k + (f.fractionBits + 1)) := by
  have hfraction : m % f.exponentStep < f.exponentStep := Nat.mod_lt _ (Nat.two_pow_pos _)
  have hstep := f.exponentStep_mul_two
  unfold units
  dsimp only
  split
  · refine Nat.lt_of_lt_of_le hfraction (Nat.pow_le_pow_right Nat.two_pos (by omega))
  · rw [Nat.add_comm k, Nat.pow_add]
    refine Nat.mul_lt_mul_of_lt_of_le (by omega) (Nat.pow_le_pow_right Nat.two_pos ?_)
      (Nat.two_pow_pos _)
    unfold spacing
    omega

/-- A ratio of at least a power of two, in least units, is rounded to a pattern at least one
exponent above the spacing of that power. -/
theorem le_nearest (hk : k + 1 ≤ 2 ^ f.exponentBits - 1)
    (h : 2 ^ (k + f.fractionBits) ≤ num * f.one / den) :
    (k + 1) * f.exponentStep ≤ f.nearest num den := by
  have hzero : num * f.one / den ≠ 0 := by
    have := Nat.two_pow_pos (k + f.fractionBits)
    omega
  have hlog := (Nat.le_log2 hzero).2 h
  have hround : f.exponentStep ≤ roundHalfEven (num * f.one)
      (den * 2 ^ (Nat.log2 (num * f.one / den) - f.fractionBits)) := by
    refine Nat.le_trans ?_ (le_roundHalfEven _ _)
    rw [← Nat.div_div_eq_div_mul, Nat.le_div_iff_mul_le (Nat.two_pow_pos _), exponentStep,
      ← Nat.pow_add, Nat.add_sub_cancel' (by omega)]
    exact Nat.log2_self_le hzero
  refine Nat.le_min.2 ⟨?_, ?_⟩
  · rw [Nat.succ_mul]
    exact Nat.add_le_add (Nat.mul_le_mul_right _ (by omega)) hround
  · rw [infinity_eq]
    exact Nat.mul_le_mul_right _ hk

theorem le_units (h : k + 1 ≤ m / f.exponentStep) : 2 ^ (k + f.fractionBits) ≤ f.units m := by
  unfold units
  dsimp only
  rw [if_neg (by omega), Nat.add_comm k, Nat.pow_add]
  refine Nat.mul_le_mul (Nat.le_add_right _ _) (Nat.pow_le_pow_right Nat.two_pos ?_)
  unfold spacing
  omega

/-- A finite number divided by two or more stays finite. -/
theorem quotient_lt_infinity {a b : Nat} (hk : k + 4 = 2 ^ f.exponentBits) (ha : a < f.infinity)
    (hb : 2 * f.one ≤ f.units b) : f.quotient a b < f.infinity := by
  have hone : 0 < f.one := Nat.two_pow_pos _
  have hexponent : a / f.exponentStep ≤ k + 1 + 1 := by
    rw [infinity_eq, Nat.mul_comm] at ha
    have := Nat.div_lt_of_lt_mul ha
    omega
  have hunits := units_lt hexponent
  refine nearest_lt_infinity (k := k) (by omega) ?_
  rw [Nat.div_lt_iff_lt_mul (by omega)]
  calc f.units a * f.one
      < 2 ^ (k + 1 + (f.fractionBits + 1)) * f.one := Nat.mul_lt_mul_of_pos_right hunits hone
    _ = 2 ^ (k + (f.fractionBits + 1)) * (2 * f.one) := by
      rw [Nat.add_right_comm k 1, Nat.pow_succ, Nat.mul_assoc]
    _ ≤ 2 ^ (k + (f.fractionBits + 1)) * f.units b := Nat.mul_le_mul_left _ hb

end BinaryFormat

/-! ## Shortest decimals -/

namespace Decimal

/-- The decimal is at most `num / den`. -/
def AtMost (d : Decimal) (num den : Nat) : Prop :=
  d.digits * 10 ^ d.exponent.toNat * den ≤ num * 10 ^ (-d.exponent).toNat

variable {d : Decimal} {num den : Nat}

theorem atMost_trim (h : d.AtMost num den) : d.trim.AtMost num den := by
  fun_induction trim d with
  | case1 d hd ih =>
    apply ih
    obtain ⟨-, hd⟩ := hd
    have hten : d.digits = d.digits / 10 * 10 := by omega
    unfold AtMost at h ⊢
    dsimp only at h ⊢
    by_cases he : 0 ≤ d.exponent
    · have hup : (d.exponent + 1).toNat = d.exponent.toNat + 1 := by omega
      have hdown : (-(d.exponent + 1)).toNat = (-d.exponent).toNat := by omega
      rw [hup, hdown, Nat.pow_succ, Nat.mul_comm (10 ^ _) 10, ← Nat.mul_assoc, ← hten]
      exact h
    · have hup : (d.exponent + 1).toNat = d.exponent.toNat := by omega
      have hdown : (-d.exponent).toNat = (-(d.exponent + 1)).toNat + 1 := by omega
      rw [hten, hdown, Nat.pow_succ, Nat.mul_right_comm _ 10, Nat.mul_right_comm _ 10,
        ← Nat.mul_assoc] at h
      rw [hup]
      exact Nat.le_of_mul_le_mul_right h (by decide)
  | case2 d hd => exact h

end Decimal

namespace Interval

variable {i : Interval}

theorem le_high_of_holds {n : Nat} (h : i.holds n = true) : n * i.den ≤ i.high := by
  unfold holds at h
  split at h
  · exact (by simpa using h : _ ∧ _).2
  · exact Nat.le_of_lt (by simpa using h : _ ∧ _).2

theorem holds_of_closest? {tie : Tie} {n : Nat} (h : i.closest? tie = some n) :
    i.holds n = true := by
  unfold closest? at h
  dsimp only at h
  split at h
  · cases h
  · next hq _ =>
    cases h
    exact hq
  · next _ hq =>
    cases h
    exact hq
  · next hq hq' =>
    cases h
    split
    · exact hq'
    · exact hq

theorem atMost_of_closest? {tie : Tie} {n : Nat} {exponent : Int}
    (h : (i.scale exponent).closest? tie = some n) :
    Decimal.AtMost ⟨n, exponent⟩ i.high i.den := by
  have hle := le_high_of_holds (holds_of_closest? h)
  unfold Decimal.AtMost
  dsimp only
  unfold scale at hle
  split at hle
  · have hdown : (-exponent).toNat = 0 := by omega
    rw [hdown, Nat.pow_zero, Nat.mul_one, Nat.mul_assoc, Nat.mul_comm _ i.den]
    exact hle
  · have hup : exponent.toNat = 0 := by omega
    rw [hup, Nat.pow_zero, Nat.mul_one]
    exact hle

theorem atMost_search (tie : Tie) (hi : i.num ≤ i.high) (leading : Int) (count fuel : Nat) :
    (i.search tie leading count fuel).AtMost i.high i.den := by
  induction fuel generalizing count with
  | zero =>
    unfold search Decimal.AtMost
    dsimp only
    have hdiv := Nat.div_mul_le_self i.num i.den
    simp only [Int.toNat_zero, Int.neg_zero, Nat.pow_zero, Nat.mul_one]
    omega
  | succ fuel ih =>
    unfold search
    dsimp only
    split
    · next n hn => exact atMost_of_closest? hn
    · exact ih (count + 1)

theorem num_le_high (f : BinaryFormat) (m : Nat) :
    (ofMagnitude f m).num ≤ (ofMagnitude f m).high :=
  Nat.le_add_right _ _

theorem high_lt {f : BinaryFormat} {m k : Nat} (h : m / f.exponentStep ≤ k + 1) :
    (ofMagnitude f m).high < 2 ^ (k + (f.fractionBits + 1) + 3) := by
  have hunits := BinaryFormat.units_lt h
  have hgap : 2 ^ f.spacing m ≤ 2 ^ (k + (f.fractionBits + 1)) := by
    refine Nat.pow_le_pow_right Nat.two_pos ?_
    unfold BinaryFormat.spacing
    omega
  rw [Nat.pow_succ, Nat.pow_succ, Nat.pow_succ]
  show 4 * f.units m + 2 * 2 ^ f.spacing m < _
  omega

end Interval

namespace Binary

variable {f : BinaryFormat} {negative : Bool}

theorem atMost_shortest (tie : Tie) (x : Binary f) :
    (x.shortest tie).AtMost (Interval.ofMagnitude f x.magnitude).high
      (Interval.ofMagnitude f x.magnitude).den := by
  unfold shortest
  split
  · unfold Decimal.AtMost
    dsimp only
    rw [Nat.zero_mul, Nat.zero_mul]
    exact Nat.zero_le _
  · exact Decimal.atMost_trim (Interval.atMost_search tie (Interval.num_le_high f _) _ _ _)

theorem magnitude_ofMagnitude {m : Nat} (h : m < f.signStep) :
    (ofMagnitude negative m : Binary f).magnitude = m := by
  have hwidth : 2 ^ f.width = 2 * f.signStep := by
    rw [BinaryFormat.width, BinaryFormat.signStep, Nat.add_assoc, Nat.add_comm 1, Nat.pow_succ,
      Nat.mul_comm]
  unfold magnitude ofMagnitude
  cases negative
  · rw [if_neg Bool.false_ne_true, toNat_ofNat (by omega), Nat.mod_eq_of_lt h]
  · rw [if_pos rfl, toNat_ofNat (by omega), Nat.add_mod_left, Nat.mod_eq_of_lt h]

theorem isFinite_ofMagnitude {m : Nat} (h : m < f.infinity) :
    (ofMagnitude negative m : Binary f).isFinite = true := by
  unfold isFinite
  rw [magnitude_ofMagnitude (Nat.lt_trans h BinaryFormat.infinity_lt_signStep)]
  exact decide_eq_true h

theorem ofDecimal_eq (digits : Nat) (e : Int) : (ofDecimal negative digits e : Binary f) =
    ofMagnitude negative (f.nearest (digits * 10 ^ e.toNat) (10 ^ (-e).toNat)) := by
  unfold ofDecimal
  split
  · have hdown : (-e).toNat = 0 := by omega
    rw [hdown, Nat.pow_zero]
  · have hup : e.toNat = 0 := by omega
    rw [hup, Nat.pow_zero, Nat.mul_one]

theorem isFinite_ofDecimal {d : Decimal} {num den k : Nat} (h : d.AtMost num den)
    (hk : k + 2 < 2 ^ f.exponentBits - 1)
    (hnum : num * f.one < den * 2 ^ (k + (f.fractionBits + 1))) :
    (ofDecimal negative d.digits d.exponent : Binary f).isFinite = true := by
  have hden : 0 < den := Nat.pos_of_ne_zero fun hzero => by
    rw [hzero, Nat.zero_mul] at hnum
    exact Nat.not_lt_zero _ hnum
  have hten : 0 < 10 ^ (-d.exponent).toNat := Nat.pow_pos (by decide)
  rw [ofDecimal_eq]
  refine isFinite_ofMagnitude (BinaryFormat.nearest_lt_infinity hk ?_)
  rw [Nat.div_lt_iff_lt_mul hten]
  refine Nat.lt_of_mul_lt_mul_right (a := den) ?_
  calc d.digits * 10 ^ d.exponent.toNat * f.one * den
      = d.digits * 10 ^ d.exponent.toNat * den * f.one := Nat.mul_right_comm _ _ _
    _ ≤ num * 10 ^ (-d.exponent).toNat * f.one := Nat.mul_le_mul_right _ h
    _ = num * f.one * 10 ^ (-d.exponent).toNat := Nat.mul_right_comm _ _ _
    _ < den * 2 ^ (k + (f.fractionBits + 1)) * 10 ^ (-d.exponent).toNat :=
      Nat.mul_lt_mul_of_pos_right hnum hten
    _ = 2 ^ (k + (f.fractionBits + 1)) * 10 ^ (-d.exponent).toNat * den := by
      rw [Nat.mul_assoc, Nat.mul_comm]

/-- The number that a reader of the shortest decimal of a float sees is finite. -/
theorem isFinite_widen (x : Binary32) : x.widen.isFinite = true := by
  have hexponent : x.magnitude / BinaryFormat.single.exponentStep ≤ 254 + 1 := by
    have hm : x.magnitude < BinaryFormat.single.signStep := Nat.mod_lt _ (Nat.two_pow_pos _)
    refine Nat.le_of_lt_succ (Nat.div_lt_of_lt_mul ?_)
    exact hm
  refine isFinite_ofDecimal (k := 1152) (atMost_shortest .up x) (by decide) ?_
  have hden : (Interval.ofMagnitude .single x.magnitude).den = 2 ^ 2 * 2 ^ 149 := rfl
  rw [BinaryFormat.one, hden, ← Nat.pow_add, ← Nat.pow_add]
  refine Nat.lt_of_lt_of_le
    (Nat.mul_lt_mul_of_pos_right (Interval.high_lt hexponent) (Nat.two_pow_pos _)) ?_
  rw [← Nat.pow_add]
  exact Nat.pow_le_pow_right Nat.two_pos (by decide)

end Binary

end SaveTree
