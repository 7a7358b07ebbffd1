/-
  Typed reads and writes at an address in a tree.

  An address that is no path is always an error. The `try` forms turn the errors of following a
  path into an answer and let all other errors through.
-/
import SaveTree.Path.Follow
import SaveTree.State.Select

namespace SaveTree.State

/-- The node at an address. -/
def atPath (s : State) (a : Address) : Except Error State := do
  (← a.resolve).get s

/-- The node at an address, if it has the type asked for. -/
def getAtPath (s : State) (t : TypeName) (a : Address) : Except Error (Option State) := do
  return (← s.atPath a).cast t

/-- The node at an address, if there is one and it has the type asked for. -/
def tryGetAtPath (s : State) (t : TypeName) (a : Address) : Except Error (Option State) := do
  let p ← a.resolve
  match p.get s with
  | .ok node => return node.cast t
  | .error e => if e.isEvaluation then return none else throw e

/-- The tree with a value stored at an address. -/
def setAtPath (s : State) (a : Address) (value : State) : Except Error State := do
  (← a.resolve).set s value

/-- The tree with a value stored at an address, or none if the address leads nowhere. -/
def trySetAtPath (s : State) (a : Address) (value : State) : Except Error (Option State) := do
  let p ← a.resolve
  match p.set s value with
  | .ok s => return some s
  | .error e => if e.isEvaluation then return none else throw e

variable {m : Type → Type} [Monad m]

/-- The items of a type at an address that pass a test. -/
def itemsAtPath (s : State) (t : TypeName) (test : State → m Bool) (a : Address) :
    m (Except Error (List State)) :=
  match s.atPath a with
  | .ok node => Except.ok <$> Items.select t test node.items
  | .error e => pure (.error e)

/-- The fields at an address whose values have a type and pass a test. -/
def fieldsAtPath (s : State) (t : TypeName) (test : State → m Bool) (a : Address) :
    m (Except Error (Fields State)) :=
  match s.atPath a with
  | .ok node => Except.ok <$> Members.select t test node.fields
  | .error e => pure (.error e)

/-- The names of the fields at an address whose values have a type and pass a test. -/
def keysAtPath (s : State) (t : TypeName) (test : State → m Bool) (a : Address) :
    m (Except Error (List String)) :=
  Except.map Fields.keys <$> s.fieldsAtPath t test a

/-- The values of the fields at an address that have a type and pass a test. -/
def valuesAtPath (s : State) (t : TypeName) (test : State → m Bool) (a : Address) :
    m (Except Error (List State)) :=
  Except.map Fields.values <$> s.fieldsAtPath t test a

end SaveTree.State
