/-
  The text of JSON numbers.

  An integer is written plainly. A float is written with the fewest digits that read back, a tie
  going to the even digit: positionally, with a point and at least one digit on each side of it,
  when its first digit stands at an exponent from -5 to 15, else as one digit, the other digits
  after a point, and a signed exponent.
-/
import SaveTree.Number.Shortest

namespace SaveTree

/-- A number of a JSON document. -/
inductive JsonNumber where
  | integer (n : Int)
  | float (x : Binary64)
  deriving DecidableEq

namespace JsonNumber

/-- The lowest exponent of the first digit at which a float is written positionally. -/
def lowestPlain : Int := -5

/-- The highest exponent of the first digit at which a float is written positionally. -/
def highestPlain : Int := 15

/-- The text of an integer. -/
def integerText (n : Int) : List Char :=
  if n < 0 then '-' :: Nat.toDigits 10 n.natAbs else Nat.toDigits 10 n.natAbs

/-- The text of a decimal. -/
def decimalText (d : Decimal) : List Char :=
  let digits := Nat.toDigits 10 d.digits
  let leading := d.exponent + digits.length - 1
  if lowestPlain ≤ leading ∧ leading ≤ highestPlain then
    if 0 ≤ d.exponent then
      digits ++ List.replicate d.exponent.toNat '0' ++ ['.', '0']
    else if 0 ≤ leading then
      digits.take (leading.toNat + 1) ++ '.' :: digits.drop (leading.toNat + 1)
    else
      '0' :: '.' :: List.replicate (-leading - 1).toNat '0' ++ digits
  else
    let fraction := if digits.length = 1 then [] else '.' :: digits.drop 1
    let sign := if 0 ≤ leading then '+' else '-'
    digits.take 1 ++ fraction ++ 'e' :: sign :: Nat.toDigits 10 leading.natAbs

/-- The text of a finite float. -/
def floatText (x : Binary64) : List Char :=
  let text := decimalText (x.shortest .even)
  if x.isNegative then '-' :: text else text

/-- The text of a number. -/
def text : JsonNumber → List Char
  | integer n => integerText n
  | float x => floatText x

end JsonNumber

end SaveTree
