/-
  The list view and the object view of a node.

  Lists answer to positions and objects to names; composites answer to both, over one set of
  components. A write through a view of a composite that names no component, or brings a value
  that is no component of its type, leaves the composite as it is. Any other node refuses the
  access.
-/
import SaveTree.State.Basic

namespace SaveTree

namespace Items

/-- The items with the one at position `i` replaced. -/
def set (xs : List State) (i : Nat) (value : State) : Except Error (List State) :=
  if i < xs.length then .ok (xs.set i value) else .error (.outOfBounds i xs.length)

/-- The item at position `i` and the items without it. -/
def remove (xs : List State) (i : Nat) : Except Error (State × List State) :=
  match xs[i]? with
  | some x => .ok (x, xs.eraseIdx i)
  | none => .error (.outOfBounds i xs.length)

/-- The item at position `i`, if it is there and has the type asked for. -/
def get? (xs : List State) (t : TypeName) (i : Nat) : Option State := xs[i]? >>= State.cast t

/-- A typed write at position `i`. -/
def replaceAs (xs : List State) (t : TypeName) (i : Nat) (value : State) : Option (List State) :=
  xs[i]? >>= fun x => (x.replaceAs t value).map (xs.set i)

/-- Whether some item equals a node. -/
def holds (xs : List State) (s : State → Bool) : Bool := xs.any s

theorem set_eq_ok_iff {xs ys : List State} {i : Nat} {v : State} :
    set xs i v = .ok ys ↔ i < xs.length ∧ xs.set i v = ys := by
  unfold set
  split <;> simp [*]

theorem remove_eq_ok_iff {xs ys : List State} {i : Nat} {x : State} :
    remove xs i = .ok (x, ys) ↔ xs[i]? = some x ∧ xs.eraseIdx i = ys := by
  unfold remove
  cases xs[i]? <;> simp

end Items

namespace Members

/-- The value of a name, if it is present and has the type asked for. -/
def get? (fs : Fields State) (t : TypeName) (name : String) : Option State :=
  Fields.get? fs name >>= State.cast t

/-- A typed write under a name. -/
def replaceAs (fs : Fields State) (t : TypeName) (name : String) (value : State) :
    Option (Fields State) :=
  Fields.get? fs name >>= fun x => (x.replaceAs t value).map (Fields.set fs name)

end Members

namespace Composite

/-- The composite with the component at position `i` replaced by a node, if that applies. -/
def setSlot (c : Composite) (i : Nat) (value : State) : Option Composite :=
  value.component? >>= c.set i

/-- The composite with the component under a name replaced by a node, if that applies. -/
def setField (c : Composite) (name : String) (value : State) : Option Composite :=
  c.position? name >>= fun i => c.setSlot i value

end Composite

namespace State

/-- The item at position `i`. -/
def item (s : State) (i : Nat) : Except Error (Option State) :=
  match s with
  | list xs => .ok xs[i]?
  | composite c => .ok ((c.get? i).map Component.toState)
  | s => .error (.shape .item s.kind)

/-- The node with the item at position `i` replaced. -/
def setItem (s : State) (i : Nat) (value : State) : Except Error State :=
  match s with
  | list xs => (Items.set xs i value).map list
  | composite c => .ok (composite ((c.setSlot i value).getD c))
  | s => .error (.shape .setItem s.kind)

/-- The value of the field `name`. -/
def field (s : State) (name : String) : Except Error (Option State) :=
  match s with
  | object fs => .ok (Fields.get? fs name)
  | composite c => .ok ((c.named? name).map Component.toState)
  | s => .error (.shape .field s.kind)

/-- The node with the field `name` set. -/
def setField (s : State) (name : String) (value : State) : Except Error State :=
  match s with
  | object fs => .ok (object (Fields.set fs name value))
  | composite c => .ok (composite ((c.setField name value).getD c))
  | s => .error (.shape .setField s.kind)

/-- The items of the list view, in order; none without a list view. -/
def items : State → List State
  | list xs => xs
  | composite c => c.components.map Component.toState
  | _ => []

/-- The fields of the object view, in order; none without an object view. -/
def fields : State → Fields State
  | object fs => fs
  | composite c => c.fields.map fun (name, x) => (name, x.toState)
  | _ => []

end State

end SaveTree
