/-
  Save trees.

  A node is a scalar, a list, an object with named fields in order, or a composite. A typed view
  of a node (`cast`) shows it when it has the kind asked for; there is no conversion.
-/
import SaveTree.Composite
import SaveTree.Error
import SaveTree.Fields

namespace SaveTree

/-- A node of a save tree. -/
inductive State where
  | bool (b : Bool)
  | int (n : Int32)
  | long (n : Int64)
  | float (x : Binary32)
  | double (x : Binary64)
  | string (s : String)
  | list (items : List State)
  | object (fields : List (String × State))
  | composite (c : Composite)
  deriving Inhabited

/-- The node of a component. -/
def Component.toState : Component → State
  | float x => .float x
  | int n => .int n

namespace State

/-- The kind of a node. -/
def kind : State → Kind
  | bool _ => .bool
  | int _ => .int
  | long _ => .long
  | float _ => .float
  | double _ => .double
  | string _ => .string
  | list _ => .list
  | object _ => .object
  | composite c => c.kind

/-- The shape of a node. -/
def shape (s : State) : Shape := s.kind.shape

/-- The component a node can stand for in a composite. -/
def component? : State → Option Component
  | float x => some (.float x)
  | int n => some (.int n)
  | _ => none

@[simp] theorem component?_toState (c : Component) : c.toState.component? = some c := by
  cases c <;> rfl

theorem component?_eq_some_iff {s : State} {c : Component} :
    s.component? = some c ↔ s = c.toState := by
  constructor
  · intro h
    cases s <;> cases h <;> rfl
  · rintro rfl
    exact component?_toState c

/-- The node, if it has the type asked for. -/
def cast (t : TypeName) (s : State) : Option State :=
  if t.accepts s.kind then some s else none

theorem cast_eq_some_iff {t : TypeName} {s r : State} :
    s.cast t = some r ↔ t.accepts s.kind = true ∧ r = s := by
  unfold cast
  constructor
  · intro h
    split at h <;> cases h
    exact ⟨‹_›, rfl⟩
  · rintro ⟨h, rfl⟩
    simp [h]

@[simp] theorem cast_any (s : State) : s.cast .any = some s := rfl

/-- The node after a typed write: it changes if both it and the value have the type. -/
def replaceAs (t : TypeName) (s value : State) : Option State :=
  if t.accepts s.kind && t.accepts value.kind then some value else none

/-- A value of an enumeration kept by its name. -/
def ofName (name : String) : State := .string name

/-- The value a text node names, or the default when the node is no text or names no value. -/
def toNamed {α : Type} (read : String → Option α) (default : α) : State → α
  | string s => (read s).getD default
  | _ => default

end State

end SaveTree
