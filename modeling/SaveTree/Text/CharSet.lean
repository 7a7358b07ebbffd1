/-
  Sets of characters given by tables of code point ranges.

  A table lists its ranges in increasing order, so membership is a binary search for the last
  range that starts at or below the character.
-/

namespace SaveTree

/-- A set of characters: closed ranges of code points, in increasing order. -/
structure CharSet where
  ranges : Array (Nat × Nat)

namespace CharSet

/-- Whether one of the `size` ranges from number `first` on holds `code`. -/
def search (s : CharSet) (code first size : Nat) : Bool :=
  if size = 0 then
    false
  else if size = 1 then
    match s.ranges[first]? with
    | some (low, high) => low ≤ code && code ≤ high
    | none => false
  else
    let half := size / 2
    match s.ranges[first + half]? with
    | some (low, _) =>
      if low ≤ code then s.search code (first + half) (size - half) else s.search code first half
    | none => false
termination_by size
decreasing_by all_goals omega

/-- Whether `c` is in the set. -/
def contains (s : CharSet) (c : Char) : Bool :=
  s.search c.toNat 0 s.ranges.size

end CharSet

end SaveTree
