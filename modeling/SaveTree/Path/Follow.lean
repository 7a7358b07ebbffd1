/-
  Following a path in a tree.

  `get` walks from the root step by step. A step whose shape the node lacks is a mismatch, and a
  step to a child that is not there is undefined; the first step that fails decides the error.
  `set` walks the steps but the last in the same way and then writes through the view that the
  last step asks for; `assign` is that write in place and keeps the tree when it fails too. A
  component of a composite has no children, so a path that goes on below one fails at the step
  after it.
-/
import SaveTree.Path.Parse
import SaveTree.State.View

namespace SaveTree

namespace State

/-- The child of a node that a step leads to. -/
def child (s : State) (key : PathKey) : Except Error State :=
  match key with
  | .field name =>
    match s.field name with
    | .ok (some c) => .ok c
    | .ok none => .error (.undefinedField name)
    | .error _ => .error (.shapeMismatch key.expectedShape s.kind)
  | .index i =>
    match s.item i.toNat with
    | .ok (some c) => .ok c
    | .ok none => .error (.undefinedItem i.toNat)
    | .error _ => .error (.shapeMismatch key.expectedShape s.kind)

/-- The node with `value` stored where a step leads. -/
def store (s : State) (key : PathKey) (value : State) : Except Error State :=
  let stored := match key with
    | .field name => s.setField name value
    | .index i => s.setItem i.toNat value
  match stored with
  | .error (.shape _ _) => .error (.shapeMismatch key.expectedShape s.kind)
  | stored => stored

/-- The node that a list of steps leads to. -/
def follow (s : State) : List PathKey → Except Error State
  | [] => .ok s
  | key :: keys =>
    match s.child key with
    | .ok c => c.follow keys
    | .error e => .error e

/-- Why a write cannot go on to `next` below a child that is not stored as a node: there is none,
or it is a component. -/
def blocked (s : State) (key next : PathKey) : Error :=
  match s.child key with
  | .ok c => .shapeMismatch next.expectedShape c.kind
  | .error e => e

/-- The tree after `value` is written where a list of steps leads, and whether that succeeded. The
write happens in place: a child on the way is put back as the write left it, whether it succeeded
or not. -/
def assign (s : State) (keys : List PathKey) (value : State) : State × Except Error Unit :=
  match keys with
  | [] => (value, .ok ())
  | [key] =>
    match s.store key value with
    | .ok stored => (stored, .ok ())
    | .error e => (s, .error e)
  | key :: next :: keys =>
    match s, key with
    | object fs, .field name =>
      match Fields.get? fs name with
      | some c =>
        let (c, outcome) := c.assign (next :: keys) value
        (object (Fields.set fs name c), outcome)
      | none => (s, .error (.undefinedField name))
    | list xs, .index i =>
      match xs[i.toNat]? with
      | some c =>
        let (c, outcome) := c.assign (next :: keys) value
        (list (xs.set i.toNat c), outcome)
      | none => (s, .error (.undefinedItem i.toNat))
    | s, key => (s, .error (s.blocked key next))

/-- The tree with `value` stored where a list of steps leads. -/
def replace (s : State) (keys : List PathKey) (value : State) : Except Error State :=
  match s.assign keys value with
  | (stored, .ok ()) => .ok stored
  | (_, .error e) => .error e

end State

namespace Path

/-- The node of `root` at a path. -/
def get (p : Path) (root : State) : Except Error State := root.follow p.keys

/-- The tree `root` after `value` is written at a path, and whether that succeeded. -/
def assign (p : Path) (root value : State) : State × Except Error Unit :=
  root.assign p.keys value

/-- The tree `root` with `value` at a path. -/
def set (p : Path) (root value : State) : Except Error State := root.replace p.keys value

end Path

end SaveTree
