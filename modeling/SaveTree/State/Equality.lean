/-
  Equality of trees as values.

  Floats compare as numbers, so a NaN differs from itself and the two zeros are equal. Lists
  compare item by item, objects by their names and the values under them whatever the order,
  and nodes of different kinds are never equal.
-/
import SaveTree.State.Basic

namespace SaveTree.State

mutual

/-- Equality of trees as values. -/
def eqv : State → State → Bool
  | bool a, bool b => a == b
  | int a, int b => a == b
  | long a, long b => a == b
  | float x, float y => x.eqv y
  | double x, double y => x.eqv y
  | string a, string b => a == b
  | list xs, list ys => eqvItems xs ys
  | object fs, object gs => fs.length == gs.length && eqvFields fs (Fields.index gs)
  | composite a, composite b => a.eqv b
  | _, _ => false

/-- Equality item by item. -/
def eqvItems : List State → List State → Bool
  | [], [] => true
  | x :: xs, y :: ys => eqv x y && eqvItems xs ys
  | _, _ => false

/-- Whether each field is in the index with an equal value. -/
def eqvFields : List (String × State) → Fields.Index State → Bool
  | [], _ => true
  | (k, v) :: fs, index =>
    match index[k]? with
    | some w => eqv v w && eqvFields fs index
    | none => false

end

end SaveTree.State
