/-
  Reading numbers and truth values from plain text.
-/
import SaveTree.Number.Power

namespace SaveTree

/-- The number of a text of decimal digits. -/
def readDigits? (cs : List Char) : Option Nat :=
  if cs ≠ [] ∧ cs.all Char.isDigit then some (Nat.ofDigitChars 10 cs 0) else none

/-- The integer of 32 bits that a text spells: decimal digits with an optional sign. -/
def readInt32? (s : String) : Option Int32 := do
  let n : Int ← match s.toList with
    | '-' :: cs => do
      let n ← readDigits? cs
      some (-(n : Int))
    | '+' :: cs => do
      let n ← readDigits? cs
      some (n : Int)
    | cs => do
      let n ← readDigits? cs
      some (n : Int)
  if -2 ^ 31 ≤ n ∧ n < 2 ^ 31 then some (Int32.ofInt n) else none

/-- The truth value that a text spells. -/
def readBool? (s : String) : Option Bool :=
  if s = "true" then some true else if s = "false" then some false else none

end SaveTree
