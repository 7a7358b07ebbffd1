/-
  Paths.

  A path leads from the root of a tree to a node. It is the root path, or a shorter path
  followed by one step: into a named field or to the item at an index. Written out, field names
  are joined by points, the first without one, and indexes stand in brackets.
-/
import SaveTree.Kind

namespace SaveTree

/-- One step of a path. -/
inductive PathKey where
  | field (name : String)
  | index (i : UInt64)
  deriving DecidableEq, Hashable

namespace PathKey

/-- The shape a node needs for the step to apply, composites apart. -/
def expectedShape : PathKey → Shape
  | field _ => .object
  | index _ => .list

/-- The text of an index step behind `out`. -/
def writeIndex (out : String) (i : UInt64) : String :=
  (out.push '[' ++ Nat.repr i.toNat).push ']'

/-- The text of a first step. -/
def writeFirst : PathKey → String
  | field name => name
  | index i => writeIndex "" i

/-- The text of a later step behind `out`. -/
def writeNext (out : String) : PathKey → String
  | field name => out.push '.' ++ name
  | index i => writeIndex out i

end PathKey

/-- A path. -/
inductive Path where
  | root
  | step (parent : Path) (key : PathKey)
  deriving DecidableEq

namespace Path

/-- The path extended by a step into a field. -/
def field (p : Path) (name : String) : Path := p.step (.field name)

/-- The path extended by a step to an item. -/
def index (p : Path) (i : UInt64) : Path := p.step (.index i)

/-- The path without its last step. -/
def parent? : Path → Option Path
  | root => none
  | step p _ => some p

/-- The last step. -/
def key? : Path → Option PathKey
  | root => none
  | step _ k => some k

/-- The steps of a path in front of those of `rest`. -/
def keysOnto (rest : List PathKey) : Path → List PathKey
  | root => rest
  | step p k => keysOnto (k :: rest) p

/-- The steps, outermost first. -/
def keys (p : Path) : List PathKey := keysOnto [] p

/-- The path of a list of steps. -/
def ofKeys (keys : List PathKey) : Path := keys.foldl step root

/-- The number of steps. -/
def length (p : Path) : Nat := p.keys.length

/-- Whether the path is the root. -/
def isEmpty : Path → Bool
  | root => true
  | step _ _ => false

instance : Hashable Path := ⟨fun p => hash p.keys⟩

theorem keysOnto_eq (rest : List PathKey) (p : Path) : keysOnto rest p = p.keys ++ rest := by
  induction p generalizing rest with
  | root => rfl
  | step p k ih =>
    rw [keys, keysOnto, keysOnto, ih, ih [k]]
    simp

@[simp] theorem keys_root : root.keys = [] := rfl

@[simp] theorem keys_step (p : Path) (k : PathKey) : (p.step k).keys = p.keys ++ [k] := by
  rw [keys, keysOnto, keysOnto_eq]

@[simp] theorem keys_ofKeys (ks : List PathKey) : (ofKeys ks).keys = ks := by
  have h : ∀ (ks : List PathKey) (p : Path), (ks.foldl step p).keys = p.keys ++ ks := by
    intro ks
    induction ks with
    | nil => simp
    | cons k ks ih => intro p; simp [ih]
  simp [ofKeys, h]

@[simp] theorem ofKeys_keys (p : Path) : ofKeys p.keys = p := by
  induction p with
  | root => rfl
  | step p k ih =>
    rw [keys_step, ofKeys, List.foldl_append]
    exact congrArg (step · k) ih

/-- A path is its steps. -/
theorem keys_inj {p q : Path} : p.keys = q.keys ↔ p = q := by
  refine ⟨fun h => ?_, congrArg keys⟩
  rw [← ofKeys_keys p, h, ofKeys_keys]

/-- The text of a path. -/
def text (p : Path) : String :=
  match p.keys with
  | [] => ""
  | k :: rest => rest.foldl PathKey.writeNext k.writeFirst

end Path

end SaveTree
