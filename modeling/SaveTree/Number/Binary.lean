/-
  Binary floating point numbers as bit patterns.

  A `Binary f` is a pattern of the format `f`: a sign bit, an exponent field and a fraction
  field. Two patterns are the same value only if all their bits agree, so the payload of a NaN
  and the sign of a zero are kept. As a number a pattern is a whole multiple of the format's
  least unit, `2 ^ (1 - bias - fractionBits)`; `value?` gives that multiple, and none for a NaN.
  Comparison of numbers (`eqv`, `lt`) goes through `value?`: a NaN equals nothing and the two
  zeros are equal. An infinity counts as a multiple above all finite ones.
-/
import SaveTree.Number.Power

namespace SaveTree

/-- The widths of the fields of a floating point format. -/
structure BinaryFormat where
  exponentBits : Nat
  fractionBits : Nat
  deriving DecidableEq

namespace BinaryFormat

/-- The format of 32 bits. -/
def single : BinaryFormat := ⟨8, 23⟩

/-- The format of 64 bits. -/
def double : BinaryFormat := ⟨11, 52⟩

/-- The number of bits of a pattern. -/
@[reducible] def width (f : BinaryFormat) : Nat := 1 + f.exponentBits + f.fractionBits

/-- The number of patterns with sign bit zero. -/
def signStep (f : BinaryFormat) : Nat := 2 ^ (f.exponentBits + f.fractionBits)

/-- The first exponent field's worth of patterns: the step between exponents. -/
def exponentStep (f : BinaryFormat) : Nat := 2 ^ f.fractionBits

/-- The pattern of positive infinity. -/
def infinity (f : BinaryFormat) : Nat := f.signStep - f.exponentStep

/-- The number one in least units. -/
def one (f : BinaryFormat) : Nat := 2 ^ (2 ^ (f.exponentBits - 1) + f.fractionBits - 2)

/-- The exponent of the spacing at a magnitude: neighbours are `2 ^ spacing` least units apart. -/
def spacing (f : BinaryFormat) (magnitude : Nat) : Nat := magnitude / f.exponentStep - 1

/-- A magnitude in least units. -/
def units (f : BinaryFormat) (magnitude : Nat) : Nat :=
  let fraction := magnitude % f.exponentStep
  if magnitude / f.exponentStep = 0 then
    fraction
  else
    (f.exponentStep + fraction) * 2 ^ f.spacing magnitude

end BinaryFormat

/-- A floating point number, as its bits. -/
structure Binary (f : BinaryFormat) where
  bits : BitVec f.width
  deriving DecidableEq

/-- Floating point numbers of 32 bits. -/
abbrev Binary32 := Binary .single

/-- Floating point numbers of 64 bits. -/
abbrev Binary64 := Binary .double

namespace Binary

variable {f : BinaryFormat}

/-- The bits as a natural number. -/
def toNat (x : Binary f) : Nat := x.bits.toNat

/-- The number whose bits are those of `n`, modulo the width. -/
def ofNat (f : BinaryFormat) (n : Nat) : Binary f := ⟨BitVec.ofNat f.width n⟩

@[simp] theorem ofNat_toNat (x : Binary f) : ofNat f x.toNat = x := by
  simp [ofNat, toNat]

theorem toNat_lt (x : Binary f) : x.toNat < 2 ^ f.width := x.bits.isLt

theorem toNat_ofNat {n : Nat} (h : n < 2 ^ f.width) : (ofNat f n).toNat = n := by
  simp [ofNat, toNat, Nat.mod_eq_of_lt h]

/-- Whether the sign bit is set. -/
def isNegative (x : Binary f) : Bool := f.signStep ≤ x.toNat

/-- The bits without the sign bit. -/
def magnitude (x : Binary f) : Nat := x.toNat % f.signStep

/-- Not a number: the exponent field is full and the fraction is not zero. -/
def isNaN (x : Binary f) : Bool := f.infinity < x.magnitude

/-- Neither infinite nor a NaN. -/
def isFinite (x : Binary f) : Bool := x.magnitude < f.infinity

/-- The number in least units, if it is one. -/
def value? (x : Binary f) : Option Int :=
  if x.isNaN then
    none
  else
    let u : Int := f.units x.magnitude
    some (if x.isNegative then -u else u)

/-- Equality as numbers. -/
def eqv (x y : Binary f) : Bool :=
  match x.value?, y.value? with
  | some a, some b => a == b
  | _, _ => false

/-- Order as numbers. -/
def lt (x y : Binary f) : Bool :=
  match x.value?, y.value? with
  | some a, some b => a < b
  | _, _ => false

/-- The number with the given sign and magnitude. -/
def ofMagnitude (negative : Bool) (magnitude : Nat) : Binary f :=
  ofNat f (if negative then f.signStep + magnitude else magnitude)

theorem eqv_comm (x y : Binary f) : x.eqv y = y.eqv x := by
  unfold eqv
  cases x.value? <;> cases y.value? <;> simp [Bool.beq_comm]

theorem eqv_trans {x y z : Binary f} (hxy : x.eqv y = true) (hyz : y.eqv z = true) :
    x.eqv z = true := by
  unfold eqv at *
  cases hx : x.value? <;> cases hy : y.value? <;> cases hz : z.value? <;> simp_all

theorem eqv_self (x : Binary f) : x.eqv x = !x.isNaN := by
  unfold eqv value?
  cases x.isNaN <;> simp

end Binary

end SaveTree
