/-
  Big-endian integers read back.

  The bytes of a number give the number back up to the width, any string of bytes is the
  big-endian form of its own number, and two's complement is undone by `signed` on the numbers
  that fit the width.
-/
import SaveTree.Wire.Integer

namespace SaveTree.Wire

/-! ## Unsigned numbers -/

@[simp] theorem ofBigEndian_nil : ofBigEndian [] = 0 := rfl

theorem ofBigEndian_cons (b : UInt8) (bytes : Bytes) :
    ofBigEndian (b :: bytes) = b.toNat * 256 ^ bytes.length + ofBigEndian bytes := by
  have h : ∀ (bytes : Bytes) (n : Nat),
      bytes.foldl (fun n b => 256 * n + b.toNat) n =
        n * 256 ^ bytes.length + bytes.foldl (fun n b => 256 * n + b.toNat) 0 := by
    intro bytes
    induction bytes with
    | nil => simp
    | cons c bytes ih =>
      intro n
      rw [List.foldl_cons, List.foldl_cons, ih, ih (256 * 0 + c.toNat), List.length_cons,
        Nat.pow_succ]
      simp only [Nat.mul_zero, Nat.zero_add, Nat.add_mul]
      rw [Nat.mul_comm 256 n, Nat.mul_assoc, Nat.mul_comm 256, Nat.add_assoc]
  unfold ofBigEndian
  rw [List.foldl_cons, h, Nat.mul_zero, Nat.zero_add]

theorem ofBigEndian_lt (bytes : Bytes) : ofBigEndian bytes < 256 ^ bytes.length := by
  induction bytes with
  | nil => simp
  | cons b bytes ih =>
    have hb : b.toNat + 1 ≤ 256 := b.toNat_lt
    have := Nat.mul_le_mul_right (256 ^ bytes.length) hb
    rw [ofBigEndian_cons, List.length_cons, Nat.pow_succ]
    rw [Nat.add_mul, Nat.one_mul] at this
    omega

theorem ofBigEndian_bigEndian (width n : Nat) :
    ofBigEndian (bigEndian width n) = n % 256 ^ width := by
  induction width with
  | zero => simp [bigEndian, Nat.mod_one]
  | succ width ih =>
    have hs : n % 256 ^ (width + 1) = n % 256 ^ width + 256 ^ width * (n / 256 ^ width % 256) :=
      Nat.mod_pow_succ
    rw [bigEndian, ofBigEndian_cons, length_bigEndian, ih, hs, UInt8.toNat_ofNat', Nat.mul_comm,
      Nat.add_comm]

theorem ofBigEndian_bigEndian_of_lt {width n : Nat} (h : n < 256 ^ width) :
    ofBigEndian (bigEndian width n) = n := by
  rw [ofBigEndian_bigEndian, Nat.mod_eq_of_lt h]

/-- Strings of bytes of one length are told apart by their numbers. -/
theorem ofBigEndian_inj {xs ys : Bytes} (hl : xs.length = ys.length)
    (h : ofBigEndian xs = ofBigEndian ys) : xs = ys := by
  induction xs generalizing ys with
  | nil => exact (List.eq_nil_of_length_eq_zero hl.symm).symm
  | cons x xs ih =>
    cases ys with
    | nil => cases hl
    | cons y ys =>
      have hl' : xs.length = ys.length := Nat.succ.inj hl
      have hx := ofBigEndian_lt xs
      have hy := ofBigEndian_lt ys
      rw [ofBigEndian_cons, ofBigEndian_cons, ← hl'] at h
      rw [← hl'] at hy
      -- the leading bytes are the quotients by the weight of the rest
      have hq : x.toNat = y.toNat := by
        have := congrArg (· / 256 ^ xs.length) h
        simpa [Nat.add_comm _ (ofBigEndian _), Nat.add_mul_div_right, Nat.pow_pos,
          Nat.div_eq_of_lt hx, Nat.div_eq_of_lt hy] using this
      rw [hq] at h
      rw [UInt8.toNat_inj.1 hq, ih hl' (Nat.add_left_cancel h)]

theorem bigEndian_ofBigEndian (bytes : Bytes) :
    bigEndian bytes.length (ofBigEndian bytes) = bytes := by
  apply ofBigEndian_inj (length_bigEndian _ _)
  exact ofBigEndian_bigEndian_of_lt (ofBigEndian_lt bytes)

/-- A string of `width` bytes is the form of exactly one number of that width. -/
theorem length_eq_iff_bigEndian {width n : Nat} {bytes : Bytes} :
    bytes.length = width ∧ ofBigEndian bytes = n ↔
      n < 256 ^ width ∧ bytes = bigEndian width n := by
  refine ⟨fun hx => ?_, fun hx => ?_⟩
  · obtain ⟨rfl, rfl⟩ := hx
    exact ⟨ofBigEndian_lt bytes, (bigEndian_ofBigEndian bytes).symm⟩
  · obtain ⟨h, rfl⟩ := hx
    exact ⟨length_bigEndian width n, ofBigEndian_bigEndian_of_lt h⟩

/-! ## Two's complement -/

/-- The numbers that fit `width` bytes in two's complement. -/
def FitsSigned (width : Nat) (n : Int) : Prop :=
  -(256 : Int) ^ width ≤ 2 * n ∧ 2 * n < 256 ^ width

instance (width : Nat) (n : Int) : Decidable (FitsSigned width n) :=
  inferInstanceAs (Decidable (_ ∧ _))

theorem unsigned_lt (width : Nat) (n : Int) : unsigned width n < 256 ^ width := by
  have hp : (0 : Int) < 256 ^ width := Int.pow_pos (by decide)
  have hlt := Int.emod_lt_of_pos n hp
  have hn := Int.emod_nonneg n (Int.ne_of_gt hp)
  have hc : ((256 ^ width : Nat) : Int) = 256 ^ width := by simp
  unfold unsigned
  omega

theorem signed_unsigned {width : Nat} {n : Int} (h : FitsSigned width n) :
    signed width (unsigned width n) = n := by
  obtain ⟨hl, hu⟩ := h
  have hc : ((256 ^ width : Nat) : Int) = 256 ^ width := by simp
  have hp : (0 : Int) < 256 ^ width := Int.pow_pos (by decide)
  unfold signed unsigned
  rcases Int.lt_or_le n 0 with hn | hn
  · have hm : n % 256 ^ width = n + 256 ^ width := by
      rw [← Int.add_emod_right, Int.emod_eq_of_lt (by omega) (by omega)]
    rw [hm]
    split <;> omega
  · have hm : n % 256 ^ width = n := Int.emod_eq_of_lt hn (by omega)
    rw [hm]
    split <;> omega

theorem fitsSigned_signed {width m : Nat} (h : m < 256 ^ width) :
    FitsSigned width (signed width m) := by
  have hc : ((256 ^ width : Nat) : Int) = 256 ^ width := by simp
  unfold FitsSigned signed
  split <;> constructor <;> omega

theorem unsigned_signed {width m : Nat} (h : m < 256 ^ width) :
    unsigned width (signed width m) = m := by
  have hc : ((256 ^ width : Nat) : Int) = 256 ^ width := by simp
  unfold unsigned signed
  split
  · rw [Int.emod_eq_of_lt (by omega) (by omega)]
    omega
  · rw [← Int.add_emod_right, Int.emod_eq_of_lt (by omega) (by omega)]
    omega

end SaveTree.Wire
