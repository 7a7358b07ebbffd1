/-
  Rounding a ratio of natural numbers to the nearest floating point number.

  `BinaryFormat.nearest` gives the magnitude pattern nearest to `num / den`: the ratio is written
  in least units, the spacing at its size is found, and the multiple of that spacing is rounded
  to the nearest integer, a half to the even neighbour. A carry out of the fraction lands in the
  exponent field, and what is past the largest finite number is the infinity. Products and
  quotients of floating point numbers are their exact values rounded once.
-/
import SaveTree.Number.Binary

namespace SaveTree

/-- The integer nearest to `num / den`; a half goes to the even neighbour. -/
def roundHalfEven (num den : Nat) : Nat :=
  let q := num / den
  let r := num % den
  if den < 2 * r ∨ (2 * r = den ∧ q % 2 = 1) then q + 1 else q

theorem roundHalfEven_le (num den : Nat) : roundHalfEven num den ≤ num / den + 1 := by
  simp only [roundHalfEven]
  split <;> omega

theorem le_roundHalfEven (num den : Nat) : num / den ≤ roundHalfEven num den := by
  simp only [roundHalfEven]
  split <;> omega

namespace BinaryFormat

/-- The magnitude pattern nearest to `num / den`. -/
def nearest (f : BinaryFormat) (num den : Nat) : Nat :=
  let scaled := num * f.one
  let shift := Nat.log2 (scaled / den) - f.fractionBits
  let pattern := shift * f.exponentStep + roundHalfEven scaled (den * 2 ^ shift)
  min pattern f.infinity

theorem nearest_le (f : BinaryFormat) (num den : Nat) : f.nearest num den ≤ f.infinity :=
  Nat.min_le_right _ _

/-- The magnitude pattern of a product. -/
def times (f : BinaryFormat) (a b : Nat) : Nat :=
  f.nearest (f.units a * f.units b) (f.one * f.one)

/-- The magnitude pattern of a quotient. -/
def quotient (f : BinaryFormat) (a b : Nat) : Nat :=
  f.nearest (f.units a) (f.units b)

end BinaryFormat

namespace Binary

variable {f : BinaryFormat}

/-- The number nearest to `digits · 10 ^ exponent`, with the given sign. -/
def ofDecimal (negative : Bool) (digits : Nat) (exponent : Int) : Binary f :=
  ofMagnitude negative <|
    if 0 ≤ exponent then
      f.nearest (digits * 10 ^ exponent.toNat) 1
    else
      f.nearest digits (10 ^ (-exponent).toNat)

end Binary

end SaveTree
