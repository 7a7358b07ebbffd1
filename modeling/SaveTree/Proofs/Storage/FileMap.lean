/-
  A store as a map from files to trees.

  An operation is one call on a store with its arguments, and a run gives the answers to a list of
  operations, performed one after the other. `FileMap` says what the answers should be: a finite
  map from files to trees, and the names of the adapters. It knows of no bytes, and an operation
  that fails leaves it as it was.
-/
import Mathlib.Data.Finmap
import SaveTree.Proofs.State.Tree
import SaveTree.Storage.Store

namespace SaveTree

/-! ## Operations and runs -/

/-- An operation on stored files. -/
inductive Operation : Type 1
  | write (file : FileRef) (tree : State)
  | writeFrom {context α : Type} [Persistable context α] (file : FileRef) (ctx : context) (x : α)
  | read (type : TypeName) (file : FileRef)
  | readInto {context α : Type} [Persistable context α] (file : FileRef) (ctx : context) (x : α)
  | exists? (file : FileRef)
  | move (source target : FileRef)
  | copy (source target : FileRef)
  | delete (file : FileRef)

namespace Operation

/-- What an operation answers; an update answers with the value as well, also when it fails. -/
def Answer : Operation → Type
  | read _ _ => Except Error State
  | @readInto _ α _ _ _ _ => Except Error Unit × α
  | exists? _ => Except Error Bool
  | _ => Except Error Unit

/-- The tree that an operation stores, if it stores one of its own. -/
def tree? : Operation → Option State
  | write _ tree => some tree
  | @writeFrom _ _ _ _ ctx x => some (Persistable.serialize ctx x)
  | _ => none

/-- An operation and the answer to it. -/
structure Reply : Type 1 where
  operation : Operation
  answer : operation.Answer

/-- The replies to operations performed one after the other. -/
def run {σ : Type} (perform : σ → (o : Operation) → o.Answer × σ) (x : σ) :
    List Operation → List Reply
  | [] => []
  | o :: os => ⟨o, (perform x o).1⟩ :: run perform (perform x o).2 os

/-- Runs give the same replies when a relation that each operation keeps makes the answers to it
the same. -/
theorem run_eq_of_step {σ τ : Type} {p : σ → (o : Operation) → o.Answer × σ}
    {q : τ → (o : Operation) → o.Answer × τ} {R : σ → τ → Prop} {os : List Operation}
    (hstep : ∀ o ∈ os, ∀ x y, R x y → (p x o).1 = (q y o).1 ∧ R (p x o).2 (q y o).2)
    {x : σ} {y : τ} (h : R x y) : run p x os = run q y os := by
  induction os generalizing x y with
  | nil => rfl
  | cons o os ih =>
    obtain ⟨ho, hos⟩ := List.forall_mem_cons.1 hstep
    obtain ⟨hanswer, hafter⟩ := ho x y h
    rw [run, run, hanswer, ih hos hafter]

end Operation

/-- Performs an operation on a store. -/
def Store.perform (s : Store) : (o : Operation) → o.Answer × Store
  | .write f tree => s.write f tree
  | @Operation.writeFrom _ _ _ f ctx x => s.writeFrom f ctx x
  | .read t f => s.read t f
  | @Operation.readInto _ _ _ f ctx x =>
    let (result, x, s) := s.readInto f ctx x
    ((result, x), s)
  | .exists? f => (s.exists? f, s)
  | .move source target => s.move source target
  | .copy source target => s.copy source target
  | .delete f => s.delete f

/-! ## The map -/

/-- The names of adapters, and the trees of files. -/
structure FileMap where
  names : List String
  trees : Finmap fun _ : FileRef => State

namespace FileMap

variable {m : FileMap} {f g : FileRef} {tree : State}

/-- The map with a tree for a file. -/
def put (m : FileMap) (f : FileRef) (tree : State) : FileMap :=
  { m with trees := m.trees.insert f tree }

/-- The map without a file. -/
def drop (m : FileMap) (f : FileRef) : FileMap := { m with trees := m.trees.erase f }

theorem lookup_put (m : FileMap) (f g : FileRef) (tree : State) :
    (m.put f tree).trees.lookup g = if g = f then some tree else m.trees.lookup g := by
  by_cases h : g = f
  · rw [if_pos h, h]
    exact Finmap.lookup_insert m.trees
  · rw [if_neg h]
    exact Finmap.lookup_insert_of_ne m.trees h

theorem lookup_drop (m : FileMap) (f g : FileRef) :
    (m.drop f).trees.lookup g = if g = f then none else m.trees.lookup g := by
  by_cases h : g = f
  · rw [if_pos h, h]
    exact Finmap.lookup_erase f m.trees
  · rw [if_neg h]
    exact Finmap.lookup_erase_ne h

/-! ## Operations on the map -/

/-- Refuses a name that no adapter has. -/
def check (m : FileMap) (name : String) : Except Error Unit :=
  if name ∈ m.names then .ok () else .error (.adapterNotFound name)

/-- The tree of a file. -/
def find (m : FileMap) (f : FileRef) : Except Error State :=
  match m.trees.lookup f with
  | some tree => .ok tree
  | none => .error (.fileNotFound f.path)

/-- The map with a tree stored, which must not nest deeper than 512 levels. -/
def write (m : FileMap) (f : FileRef) (tree : State) : Except Error FileMap := do
  m.check f.adapter
  if 512 < tree.nesting then
    .error (.encode .tooDeep)
  else
    .ok (m.put f tree)

/-- The tree of a file whose adapter has to be known. -/
def fetch (m : FileMap) (f : FileRef) : Except Error State := do
  m.check f.adapter
  m.find f

/-- The tree of a file, which has to have the type asked for. -/
def read (m : FileMap) (t : TypeName) (f : FileRef) : Except Error State := do
  let tree ← m.fetch f
  if t.accepts tree.kind then
    .ok tree
  else
    .error (.typeMismatch t tree.kind)

/-- The value after an update from the tree of a file, and how the update ended. -/
def readInto {context α : Type} [Persistable context α] (m : FileMap) (f : FileRef)
    (ctx : context) (x : α) : Except Error Unit × α :=
  match m.read .any f with
  | .error e => (.error e, x)
  | .ok tree => (Persistable.deserialize ctx tree x).swap

/-- Whether a file has a tree. -/
def exists? (m : FileMap) (f : FileRef) : Except Error Bool := do
  m.check f.adapter
  .ok (m.trees.lookup f).isSome

/-- The tree of a file that is to get another name; both names have to be known first. -/
def pick (m : FileMap) (source target : FileRef) : Except Error State := do
  m.check source.adapter
  m.check target.adapter
  m.find source

/-- The map with a file under another name. -/
def move (m : FileMap) (source target : FileRef) : Except Error FileMap := do
  let tree ← m.pick source target
  .ok ((m.drop source).put target tree)

/-- The map with the tree of a file for another file too. -/
def copy (m : FileMap) (source target : FileRef) : Except Error FileMap := do
  let tree ← m.pick source target
  .ok (m.put target tree)

/-- The map without a file, whether or not it was there. -/
def delete (m : FileMap) (f : FileRef) : Except Error FileMap := do
  m.check f.adapter
  .ok (m.drop f)

/-- The map after a change, or as it was if the change failed. -/
def settle (m : FileMap) : Except Error FileMap → Except Error Unit × FileMap
  | .ok after => (.ok (), after)
  | .error e => (.error e, m)

/-- Performs an operation on a map. -/
def perform (m : FileMap) : (o : Operation) → o.Answer × FileMap
  | .write f tree => m.settle (m.write f tree)
  | @Operation.writeFrom _ _ _ f ctx x => m.settle (m.write f (Persistable.serialize ctx x))
  | .read t f => (m.read t f, m)
  | @Operation.readInto _ _ _ f ctx x => (m.readInto f ctx x, m)
  | .exists? f => (m.exists? f, m)
  | .move source target => m.settle (m.move source target)
  | .copy source target => m.settle (m.copy source target)
  | .delete f => m.settle (m.delete f)

/-! ## What the map answers -/

theorem check_of_mem {name : String} (h : name ∈ m.names) : m.check name = .ok () := if_pos h

theorem check_of_not_mem {name : String} (h : name ∉ m.names) :
    m.check name = .error (.adapterNotFound name) := if_neg h

theorem find_of_some (h : m.trees.lookup f = some tree) : m.find f = .ok tree := by
  rw [find, h]

theorem find_of_none (h : m.trees.lookup f = none) : m.find f = .error (.fileNotFound f.path) := by
  rw [find, h]

theorem fetch_of_mem (hf : f.adapter ∈ m.names) : m.fetch f = m.find f := by
  rw [fetch, check_of_mem hf]
  rfl

theorem fetch_of_not_mem (hf : f.adapter ∉ m.names) :
    m.fetch f = .error (.adapterNotFound f.adapter) := by
  rw [fetch, check_of_not_mem hf]
  rfl

theorem pick_of_mem (hf : f.adapter ∈ m.names) (hg : g.adapter ∈ m.names) :
    m.pick f g = m.find f := by
  rw [pick, check_of_mem hf, check_of_mem hg]
  rfl

theorem pick_of_not_mem_source (hf : f.adapter ∉ m.names) :
    m.pick f g = .error (.adapterNotFound f.adapter) := by
  rw [pick, check_of_not_mem hf]
  rfl

theorem pick_of_not_mem_target (hf : f.adapter ∈ m.names) (hg : g.adapter ∉ m.names) :
    m.pick f g = .error (.adapterNotFound g.adapter) := by
  rw [pick, check_of_mem hf, check_of_not_mem hg]
  rfl

theorem drop_put (h : f ≠ g) (tree : State) :
    (m.put g tree).drop f = (m.drop f).put g tree := by
  have htrees : ((m.put g tree).drop f).trees = ((m.drop f).put g tree).trees := by
    refine Finmap.ext_lookup fun k => ?_
    rw [lookup_drop, lookup_put, lookup_put, lookup_drop]
    by_cases hf : k = f
    · rw [if_pos hf, if_pos hf, if_neg (hf ▸ h)]
    · rw [if_neg hf, if_neg hf]
  exact congrArg (FileMap.mk m.names) htrees

end FileMap

end SaveTree
