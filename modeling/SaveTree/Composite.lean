/-
  Composites: numeric vectors and quaternions stored as one node.

  A composite has named components, all floats or all integers. It is read and written through
  two views of the same components, by position and by name; `set` is the only write, so the
  views cannot drift apart. Each kind of composite has a code of its own in saved files.
-/
import SaveTree.Kind
import SaveTree.Number.Binary

namespace SaveTree

/-- A node of fixed shape with numeric components. -/
inductive Composite where
  | vector2 (x y : Binary32)
  | vector3 (x y z : Binary32)
  | vector2int (x y : Int32)
  | vector3int (x y z : Int32)
  | quaternion (x y z w : Binary32)
  deriving DecidableEq

/-- One component of a composite. -/
inductive Component where
  | float (x : Binary32)
  | int (n : Int32)
  deriving DecidableEq

namespace Component

/-- Equality as numbers. -/
def eqv : Component → Component → Bool
  | float x, float y => x.eqv y
  | int m, int n => m == n
  | _, _ => false

end Component

namespace Kind

/-- The code of a composite kind in saved files. -/
def code? : Kind → Option Nat
  | vector2 => some 1
  | vector3 => some 2
  | vector2int => some 4
  | vector3int => some 5
  | quaternion => some 7
  | _ => none

/-- The composite kind with a code. -/
def ofCode? (code : Int) : Option Kind :=
  if code = 1 then some vector2
  else if code = 2 then some vector3
  else if code = 4 then some vector2int
  else if code = 5 then some vector3int
  else if code = 7 then some quaternion
  else none

/-- The number of components of a composite of the kind. -/
def arity : Kind → Nat
  | vector2 | vector2int => 2
  | vector3 | vector3int => 3
  | quaternion => 4
  | _ => 0

theorem ofCode?_eq_some_iff (code : Int) (k : Kind) :
    ofCode? code = some k ↔ ∃ n : Nat, k.code? = some n ∧ code = n := by
  constructor
  · intro h
    unfold ofCode? at h
    split at h <;> rename_i hc
    · cases h; exact ⟨1, rfl, hc⟩
    split at h <;> rename_i hc
    · cases h; exact ⟨2, rfl, hc⟩
    split at h <;> rename_i hc
    · cases h; exact ⟨4, rfl, hc⟩
    split at h <;> rename_i hc
    · cases h; exact ⟨5, rfl, hc⟩
    split at h <;> rename_i hc
    · cases h; exact ⟨7, rfl, hc⟩
    cases h
  · rintro ⟨n, hk, rfl⟩
    cases k <;> simp_all [code?] <;> subst hk <;> rfl

end Kind

namespace Composite

/-- The kind of a composite. -/
def kind : Composite → Kind
  | vector2 .. => .vector2
  | vector3 .. => .vector3
  | vector2int .. => .vector2int
  | vector3int .. => .vector3int
  | quaternion .. => .quaternion

/-- The code of a composite in saved files. -/
def code : Composite → Nat
  | vector2 .. => 1
  | vector3 .. => 2
  | vector2int .. => 4
  | vector3int .. => 5
  | quaternion .. => 7

/-- The names of the components, in order. -/
def names : Composite → List String
  | vector2 .. | vector2int .. => ["x", "y"]
  | vector3 .. | vector3int .. => ["x", "y", "z"]
  | quaternion .. => ["x", "y", "z", "w"]

/-- The components, in order. -/
def components : Composite → List Component
  | vector2 x y => [.float x, .float y]
  | vector3 x y z => [.float x, .float y, .float z]
  | vector2int x y => [.int x, .int y]
  | vector3int x y z => [.int x, .int y, .int z]
  | quaternion x y z w => [.float x, .float y, .float z, .float w]

/-- The composite of a kind with the given components. There is none when they are too few or too
many, or of the wrong type. -/
def ofComponents? : Kind → List Component → Option Composite
  | .vector2, [.float x, .float y] => some (vector2 x y)
  | .vector3, [.float x, .float y, .float z] => some (vector3 x y z)
  | .vector2int, [.int x, .int y] => some (vector2int x y)
  | .vector3int, [.int x, .int y, .int z] => some (vector3int x y z)
  | .quaternion, [.float x, .float y, .float z, .float w] => some (quaternion x y z w)
  | _, _ => none

/-- The position of a component name. -/
def position? (c : Composite) (name : String) : Option Nat := c.names.idxOf? name

/-- The component at a position. -/
def get? (c : Composite) (i : Nat) : Option Component := c.components[i]?

/-- The component under a name. -/
def named? (c : Composite) (name : String) : Option Component := c.position? name >>= c.get?

/-- The components under their names, in order. -/
def fields (c : Composite) : List (String × Component) := c.names.zip c.components

/-- The composite with the component at position `i` replaced. There is none when no component
is at `i`, or when the value is a float and the components are integers or the reverse. -/
def set (c : Composite) (i : Nat) (value : Component) : Option Composite :=
  match c, i, value with
  | vector2 _ y, 0, .float a => some (vector2 a y)
  | vector2 x _, 1, .float a => some (vector2 x a)
  | vector3 _ y z, 0, .float a => some (vector3 a y z)
  | vector3 x _ z, 1, .float a => some (vector3 x a z)
  | vector3 x y _, 2, .float a => some (vector3 x y a)
  | vector2int _ y, 0, .int a => some (vector2int a y)
  | vector2int x _, 1, .int a => some (vector2int x a)
  | vector3int _ y z, 0, .int a => some (vector3int a y z)
  | vector3int x _ z, 1, .int a => some (vector3int x a z)
  | vector3int x y _, 2, .int a => some (vector3int x y a)
  | quaternion _ y z w, 0, .float a => some (quaternion a y z w)
  | quaternion x _ z w, 1, .float a => some (quaternion x a z w)
  | quaternion x y _ w, 2, .float a => some (quaternion x y a w)
  | quaternion x y z _, 3, .float a => some (quaternion x y z a)
  | _, _, _ => none

/-- Equality as numbers, component by component. -/
def eqv (a b : Composite) : Bool :=
  a.kind = b.kind && (a.components.zip b.components).all fun (x, y) => x.eqv y

theorem code?_kind (c : Composite) : c.kind.code? = some c.code := by
  cases c <;> rfl

theorem ofCode?_code (c : Composite) : Kind.ofCode? c.code = some c.kind :=
  (Kind.ofCode?_eq_some_iff _ _).2 ⟨c.code, c.code?_kind, rfl⟩

theorem ofComponents?_eq_some_iff {kind : Kind} {cs : List Component} {c : Composite} :
    ofComponents? kind cs = some c ↔ c.kind = kind ∧ c.components = cs := by
  constructor
  · intro h
    unfold ofComponents? at h
    split at h <;> cases h <;> exact ⟨rfl, rfl⟩
  · rintro ⟨rfl, rfl⟩
    cases c <;> rfl

theorem length_components (c : Composite) : c.components.length = c.kind.arity := by
  cases c <;> rfl

theorem length_names (c : Composite) : c.names.length = c.components.length := by
  cases c <;> rfl

theorem nodup_names (c : Composite) : c.names.Nodup := by
  cases c <;> simp [names]

theorem kind_set {c d : Composite} {i : Nat} {v : Component} (h : c.set i v = some d) :
    d.kind = c.kind := by
  unfold set at h
  split at h <;> cases h <;> rfl

theorem components_set {c d : Composite} {i : Nat} {v : Component} (h : c.set i v = some d) :
    d.components = c.components.set i v := by
  unfold set at h
  split at h <;> cases h <;> rfl

end Composite

end SaveTree
