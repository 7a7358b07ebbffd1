/-
  Kinds and shapes of the nodes of a save tree.

  A node has one of thirteen kinds. The kind alone decides the node's shape, and the shape
  decides which steps of a path may enter it: a list takes item steps, an object takes field
  steps, a composite takes both, a scalar takes none. A typed access asks for one kind, or for
  any (`TypeName`), and there is no conversion between kinds.
-/

namespace SaveTree

/-- The kind of a node. -/
inductive Kind where
  | bool
  | int
  | long
  | float
  | double
  | string
  | list
  | object
  | vector2
  | vector3
  | vector2int
  | vector3int
  | quaternion
  deriving DecidableEq, Repr

/-- Which steps may address into a node. -/
inductive Shape where
  | scalar
  | list
  | object
  | composite
  deriving DecidableEq, Repr

namespace Shape

/-- The name of a shape in messages. -/
def name : Shape → String
  | scalar => "scalar"
  | list => "list"
  | object => "object"
  | composite => "composite"

/-- The shapes with a list view. -/
def isListLike : Shape → Bool
  | list | composite => true
  | scalar | object => false

/-- The shapes with an object view. -/
def isObjectLike : Shape → Bool
  | object | composite => true
  | scalar | list => false

end Shape

namespace Kind

/-- The name of a kind in messages. -/
def name : Kind → String
  | bool => "bool"
  | int => "int"
  | long => "long"
  | float => "float"
  | double => "double"
  | string => "string"
  | list => "list"
  | object => "object"
  | vector2 => "vector2"
  | vector3 => "vector3"
  | vector2int => "vector2int"
  | vector3int => "vector3int"
  | quaternion => "quaternion"

/-- The shape shared by all nodes of a kind. -/
def shape : Kind → Shape
  | list => .list
  | object => .object
  | vector2 | vector3 | vector2int | vector3int | quaternion => .composite
  | bool | int | long | float | double | string => .scalar

/-- All kinds, in the order of the type. -/
def all : List Kind :=
  [bool, int, long, float, double, string, list, object,
    vector2, vector3, vector2int, vector3int, quaternion]

theorem mem_all (k : Kind) : k ∈ all := by
  cases k <;> decide

end Kind

/-- What a typed access asks for: a node of any kind, or of exactly one. -/
inductive TypeName where
  | any
  | only (kind : Kind)
  deriving DecidableEq, Repr

namespace TypeName

/-- The name of a type in messages. -/
def name : TypeName → String
  | any => "state"
  | only kind => kind.name

/-- Whether a node of kind `k` has this type. -/
def accepts (t : TypeName) (k : Kind) : Bool :=
  match t with
  | any => true
  | only kind => kind = k

@[simp] theorem accepts_any (k : Kind) : any.accepts k = true := rfl

@[simp] theorem accepts_only (a k : Kind) : (only a).accepts k = true ↔ a = k := by
  simp [accepts]

/-- The type of a name, if it names one. -/
def ofName? (s : String) : Option TypeName :=
  if s = any.name then some any else (Kind.all.find? (·.name == s)).map only

end TypeName

end SaveTree
