/-
  The shortest decimal that reads back as a given floating point number.

  A decimal reads back as `x` when it lies between the midpoints to the neighbours of `x`, ends
  included exactly when the fraction of `x` is even. The grids of 1, 2, 3, … significant digits
  are tried in turn. On each the two points next to `x` are tested: the first grid with a hit
  gives the decimal, of two hits the nearer to `x`, and an exact tie goes as `Tie` says.
  Seventeen digits always suffice for 64 bits.
-/
import SaveTree.Number.Rounding

namespace SaveTree

/-- A decimal `digits · 10 ^ exponent`. -/
structure Decimal where
  digits : Nat
  exponent : Int
  deriving DecidableEq, Repr

/-- Where an exact tie between two decimals goes. -/
inductive Tie where
  | up
  | even
  deriving DecidableEq

/-- The decimals that read back as one number: those between `low / den` and `high / den`, ends
included if `closed`; the number itself is `num / den`. -/
structure Interval where
  low : Nat
  num : Nat
  high : Nat
  den : Nat
  closed : Bool

namespace Interval

/-- The interval of a magnitude pattern other than zero, in quarters of the least unit. -/
def ofMagnitude (f : BinaryFormat) (magnitude : Nat) : Interval :=
  let num := 4 * f.units magnitude
  let gap := 2 ^ f.spacing magnitude
  let isPower := magnitude % f.exponentStep = 0 ∧ f.exponentStep < magnitude
  { low := num - (if isPower then gap else 2 * gap)
    num
    high := num + 2 * gap
    den := 4 * f.one
    closed := magnitude % 2 = 0 }

/-- The interval in units of `10 ^ exponent`. -/
def scale (i : Interval) (exponent : Int) : Interval :=
  if 0 ≤ exponent then
    { i with den := i.den * 10 ^ exponent.toNat }
  else
    let k := 10 ^ (-exponent).toNat
    { i with low := i.low * k, num := i.num * k, high := i.high * k }

/-- Whether the integer `n` lies in the interval. -/
def holds (i : Interval) (n : Nat) : Bool :=
  if i.closed then
    i.low ≤ n * i.den && n * i.den ≤ i.high
  else
    i.low < n * i.den && n * i.den < i.high

/-- The integer of the interval next to its number, if there is one. -/
def closest? (tie : Tie) (i : Interval) : Option Nat :=
  let q := i.num / i.den
  let twice := 2 * (i.num % i.den)
  match i.holds q, i.holds (q + 1) with
  | false, false => none
  | true, false => some q
  | false, true => some (q + 1)
  | true, true =>
    let up := i.den < twice ∨ (twice = i.den ∧ (tie = .up ∨ q % 2 = 1))
    some (if up then q + 1 else q)

/-- The decimal exponent of the first significant digit of the number. -/
def leading (i : Interval) : Int :=
  let digitCount (n : Nat) : Int := (Nat.toDigits 10 n).length
  if i.den ≤ i.num then
    digitCount (i.num / i.den) - 1
  else
    -digitCount ((i.den - 1) / i.num)

/-- The first hit on the grids of `count`, `count + 1`, … significant digits, the first of which
stands at the exponent `leading`. -/
def search (tie : Tie) (i : Interval) (leading : Int) (count : Nat) : Nat → Decimal
  | 0 => ⟨i.num / i.den, 0⟩
  | fuel + 1 =>
    let exponent := leading - count + 1
    match (i.scale exponent).closest? tie with
    | some n => ⟨n, exponent⟩
    | none => search tie i leading (count + 1) fuel

end Interval

namespace Decimal

/-- The same decimal with no zeros at the end of its digits. -/
def trim (d : Decimal) : Decimal :=
  if d.digits ≠ 0 ∧ d.digits % 10 = 0 then trim ⟨d.digits / 10, d.exponent + 1⟩ else d
termination_by d.digits
decreasing_by omega

end Decimal

namespace Binary

/-- The most significant digits a decimal of 64 bits can need. -/
def maxDigits : Nat := 17

/-- The shortest decimal of the magnitude of a finite number. -/
def shortest {f : BinaryFormat} (tie : Tie) (x : Binary f) : Decimal :=
  if x.magnitude = 0 then
    ⟨0, 0⟩
  else
    let i := Interval.ofMagnitude f x.magnitude
    (i.search tie i.leading 1 maxDigits).trim

/-- The 64-bit number nearest to the shortest decimal of a 32-bit one: what a reader of that
decimal sees. An exact tie between two shortest decimals goes up. -/
def widen (x : Binary32) : Binary64 :=
  let d := x.shortest .up
  ofDecimal x.isNegative d.digits d.exponent

end Binary

end SaveTree
