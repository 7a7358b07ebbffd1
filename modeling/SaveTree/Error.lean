/-
  Errors.

  One type holds every cause of failure of the library, with the data its text shows. Two
  classes of causes are told apart: those of following a path in a tree (`isEvaluation`) and
  those of reading path text or bytes (`isFormat`).
-/
import SaveTree.Json.Fault
import SaveTree.Path.Fault
import SaveTree.Storage.DiskFault
import SaveTree.Wire.Fault

namespace SaveTree

/-- A direct access to the children of a node. -/
inductive Access where
  | item
  | setItem
  | field
  | setField
  deriving DecidableEq, Repr

/-- The name of an access in messages. -/
def Access.name : Access → String
  | item => "index an item"
  | setItem => "set an item"
  | field => "access a field"
  | setField => "set a field"

/-- An operation on stored files. -/
inductive FileAction where
  | list
  | read
  | write
  | move
  | copy
  | delete
  deriving DecidableEq, Repr

/-- The name of an operation in messages. -/
def FileAction.name : FileAction → String
  | list => "list"
  | read => "read"
  | write => "write"
  | move => "move"
  | copy => "copy"
  | delete => "delete"

/-- What a JSON document holds that no tree can. -/
inductive JsonGap where
  | null
  | integer (n : Int)
  deriving DecidableEq, Repr

/-- The text of a gap. -/
def JsonGap.message : JsonGap → String
  | null => "null has no state counterpart"
  | integer n => s!"integer {n} does not fit in 64 bits"

/-- A cause of failure. -/
inductive Error where
  | pathFormat (position : Nat) (fault : PathFault)
  | shapeMismatch (expected : Shape) (found : Kind)
  | undefinedField (name : String)
  | undefinedItem (index : Nat)
  | outOfBounds (index length : Nat)
  | shape (access : Access) (found : Kind)
  | encode (fault : Wire.EncodeFault)
  | decode (offset : Nat) (fault : Wire.DecodeFault)
  | unknownExtension (offset : Nat) (code : Int)
  | json (error : JsonError)
  | unsupportedJson (gap : JsonGap)
  | typeMismatch (expected : TypeName) (found : Kind)
  | adapterNotFound (name : String)
  | noEnabledAdapter
  | fileNotFound (path : String)
  | disk (action : FileAction) (path : String) (fault : DiskFault)
  deriving DecidableEq

namespace Error

/-- The text of an error up to what the disk itself says. -/
def headline : Error → String
  | pathFormat position fault => s!"Path format error at position {position}: {fault.message}"
  | shapeMismatch expected found =>
    s!"Path evaluation error: expected {expected.name} state but found {found.name}"
  | undefinedField name =>
    "Path evaluation error: undefined field with name " ++ Quoted.text name
  | undefinedItem index => s!"Path evaluation error: undefined item with index {index}"
  | outOfBounds index length => s!"Index {index} is out of bounds for a list of length {length}"
  | shape access found => s!"Cannot {access.name} on a {found.name} state"
  | encode fault => s!"Could not serialize the data: {fault.message}"
  | decode offset fault => s!"Could not deserialize the data at offset {offset}: {fault.message}"
  | unknownExtension offset code =>
    s!"Could not deserialize the data at offset {offset}: unsupported extension type {code}"
  | json error => s!"JSON error: {error.message}"
  | unsupportedJson gap => s!"Unsupported JSON value: {gap.message}"
  | typeMismatch expected found =>
    s!"Could not cast the state: expected state of type {expected.name} but got {found.name}"
  | adapterNotFound name => s!"Could not find a registered adapter with name {name}"
  | noEnabledAdapter => "Could not find an enabled registered adapter"
  | fileNotFound path => s!"File \"{path}\" does not exist"
  | disk action path _ => s!"Could not {action.name} file \"{path}\""

/-- The text of an error. -/
def message (e : Error) : String :=
  match e with
  | disk _ _ fault => e.headline ++ ": " ++ fault.message
  | _ => e.headline

/-- The errors of following a path in a tree. -/
def isEvaluation : Error → Bool
  | shapeMismatch .. | undefinedField _ | undefinedItem _ => true
  | _ => false

/-- The errors of reading path text or bytes. -/
def isFormat : Error → Bool
  | pathFormat .. | decode .. | unknownExtension .. => true
  | _ => false

end Error

theorem bind_eq_ok_iff {ε α β : Type} {x : Except ε α} {g : α → Except ε β} {b : β} :
    x >>= g = .ok b ↔ ∃ a, x = .ok a ∧ g a = .ok b := by
  cases x <;> simp [bind, Except.bind]

theorem bind_eq_error_iff {ε α β : Type} {x : Except ε α} {g : α → Except ε β} {e : ε} :
    x >>= g = .error e ↔ x = .error e ∨ ∃ a, x = .ok a ∧ g a = .error e := by
  cases x <;> simp [bind, Except.bind]

end SaveTree
