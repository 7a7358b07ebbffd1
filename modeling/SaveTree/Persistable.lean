/-
  Application values kept as trees.

  A persistable value can be written as a tree and updated from one, with the help of a context.
  An update may fail, and then leaves the value in whatever state it reached; fields that are
  missing from a tree keep their values.
-/
import SaveTree.State.View

namespace SaveTree

/-- Values that are written as trees and updated from them. -/
class Persistable (context : Type) (α : Type) where
  serialize : context → α → State
  deserialize : context → State → α → α × Except Error Unit

namespace Persistable

variable {context α : Type} [Persistable context α]

/-- The object of a sequence of named values. -/
def serializeMap (ctx : context) (entries : List (String × α)) : Fields State :=
  Fields.ofPairs (entries.map fun (key, x) => (key, serialize ctx x))

/-- Updates named values one after the other from the fields of an object, up to the first that
fails; a value without a field stays as it is. -/
def deserializeMap (ctx : context) (fs : Fields State) :
    List (String × α) → List (String × α) × Except Error Unit
  | [] => ([], .ok ())
  | (key, x) :: entries =>
    match Fields.get? fs key with
    | none =>
      let (entries, result) := deserializeMap ctx fs entries
      ((key, x) :: entries, result)
    | some s =>
      match deserialize ctx s x with
      | (x, .ok ()) =>
        let (entries, result) := deserializeMap ctx fs entries
        ((key, x) :: entries, result)
      | (x, .error e) => ((key, x) :: entries, .error e)

end Persistable

/-- A counter. Its tree is an object with the count multiplied by a scale; an update adds the
scale to the count that is read, and both wrap around. -/
structure Counter where
  count : Int32
  deriving DecidableEq

/-- The count of a counter's object, if it is an int. -/
def Counter.count? (fs : Fields State) : Option Int32 :=
  match Fields.get? fs "count" with
  | some (.int n) => some n
  | _ => none

instance : Persistable Int32 Counter where
  serialize scale c := .object [("count", .int (c.count * scale))]
  deserialize scale s c :=
    match s with
    | .object fs => (⟨(Counter.count? fs).getD c.count + scale⟩, .ok ())
    | s => (c, .error (.typeMismatch (.only .object) s.kind))

end SaveTree
