/-
  Documents that values stand for, and those that trees can hold.

  `Sound` names the documents of JSON values: distinct names in each object and numbers within
  their range. `gaps` lists what no tree can hold, in reading order, and `nesting` counts the
  arrays and objects on the longest way down.
-/
import SaveTree.Error
import SaveTree.Json.Value

namespace SaveTree

/-- An integer within 64 bits, with or without a sign, or a finite float. -/
def JsonNumber.Sound : JsonNumber → Prop
  | integer n => -2 ^ 63 ≤ n ∧ n < 2 ^ 64
  | float x => x.isFinite = true

namespace Json

/-! ## Documents that values stand for -/

/-- The names of each object differ, and each number is within its range. -/
inductive Sound : Json → Prop
  | null : Sound .null
  | bool (b : Bool) : Sound (.bool b)
  | number {x : JsonNumber} (h : x.Sound) : Sound (.number x)
  | string (s : String) : Sound (.string s)
  | array {xs : List Json} (h : ∀ x ∈ xs, Sound x) : Sound (.array xs)
  | object {ms : List (String × Json)} (hn : (Fields.keys ms).Nodup)
      (h : ∀ m ∈ ms, Sound m.2) : Sound (.object ms)

/-! ## What no tree can hold -/

mutual

/-- The nulls and the integers above 64 bits with a sign, in reading order. -/
def gaps : Json → List JsonGap
  | null => [.null]
  | number (.integer n) => if n ≤ 2 ^ 63 - 1 then [] else [.integer n]
  | array xs => itemGaps xs
  | object ms => memberGaps ms
  | bool _ | number (.float _) | string _ => []

/-- The gaps of the items of an array. -/
def itemGaps : List Json → List JsonGap
  | [] => []
  | x :: xs => gaps x ++ itemGaps xs

/-- The gaps of the members of an object. -/
def memberGaps : List (String × Json) → List JsonGap
  | [] => []
  | (_, x) :: ms => gaps x ++ memberGaps ms

end

theorem itemGaps_eq_flatMap (xs : List Json) : itemGaps xs = xs.flatMap gaps := by
  induction xs with
  | nil => rfl
  | cons x xs ih => rw [itemGaps, List.flatMap_cons, ih]

theorem memberGaps_eq_flatMap (ms : List (String × Json)) :
    memberGaps ms = ms.flatMap fun m => m.2.gaps := by
  induction ms with
  | nil => rfl
  | cons m ms ih => rw [memberGaps, List.flatMap_cons, ih]

/-! ## Nesting -/

mutual

/-- The number of arrays and objects on the longest way down a document. -/
def nesting : Json → Nat
  | array xs => nestingItems xs + 1
  | object ms => nestingMembers ms + 1
  | _ => 0

/-- The deepest nesting among the items of an array. -/
def nestingItems : List Json → Nat
  | [] => 0
  | x :: xs => max (nesting x) (nestingItems xs)

/-- The deepest nesting among the values of an object. -/
def nestingMembers : List (String × Json) → Nat
  | [] => 0
  | (_, x) :: ms => max (nesting x) (nestingMembers ms)

end

theorem nestingItems_le_iff {xs : List Json} {n : Nat} :
    nestingItems xs ≤ n ↔ ∀ x ∈ xs, x.nesting ≤ n := by
  induction xs with
  | nil => simp [nestingItems]
  | cons x xs ih => rw [nestingItems, Nat.max_le, ih, List.forall_mem_cons]

theorem nestingMembers_le_iff {ms : List (String × Json)} {n : Nat} :
    nestingMembers ms ≤ n ↔ ∀ m ∈ ms, m.2.nesting ≤ n := by
  induction ms with
  | nil => simp [nestingMembers]
  | cons m ms ih => rw [nestingMembers, Nat.max_le, ih, List.forall_mem_cons]

theorem nesting_array_le_iff {xs : List Json} {n : Nat} :
    (array xs).nesting ≤ n + 1 ↔ ∀ x ∈ xs, x.nesting ≤ n := by
  rw [nesting, Nat.add_le_add_iff_right, nestingItems_le_iff]

theorem nesting_object_le_iff {ms : List (String × Json)} {n : Nat} :
    (object ms).nesting ≤ n + 1 ↔ ∀ m ∈ ms, m.2.nesting ≤ n := by
  rw [nesting, Nat.add_le_add_iff_right, nestingMembers_le_iff]

end Json

end SaveTree
