/-
  The store: adapters, the disk, and who hears of what happens.

  Adapters stand in order of priority, those of equal priority in the order they came. A file is
  named by its adapter and its path; of adapters with the same name the first counts. Reading
  decodes the bytes of a file and writing encodes a tree. Each operation that completes its file
  access is told to all subscribers, in the order they came; nothing else is.
-/
import SaveTree.Persistable
import SaveTree.Storage.Adapter
import SaveTree.Wire.Read
import SaveTree.Wire.Write

namespace SaveTree

/-- A file: the name of its adapter and its path there. -/
structure FileRef where
  adapter : String
  path : String
  deriving DecidableEq

/-- The text of a file. -/
def FileRef.text (f : FileRef) : String := f.adapter ++ ":" ++ f.path

/-- A completed operation. -/
inductive Event where
  | read (file : FileRef)
  | written (file : FileRef)
  | moved (source target : FileRef)
  | copied (source target : FileRef)
  | deleted (file : FileRef)
  deriving DecidableEq

/-- Adapters, the disk, the subscribers, and what they have been told so far. -/
structure Store where
  adapters : List Adapter
  disk : Disk
  subscribers : List String
  told : List (String × Event)

namespace Store

/-- A store with nothing in it. -/
def empty : Store := ⟨[], .empty, [], []⟩

/-- The store with one more adapter. -/
def register (s : Store) (a : Adapter) : Store :=
  { s with adapters := (s.adapters ++ [a]).mergeSort fun x y => decide (x.priority ≤ y.priority) }

/-- The store with one more subscriber. -/
def subscribe (s : Store) (tag : String) : Store :=
  { s with subscribers := s.subscribers ++ [tag] }

/-- The store after all subscribers were told of an event. -/
def tell (s : Store) (e : Event) : Store :=
  { s with told := s.told ++ s.subscribers.map fun tag => (tag, e) }

/-- The enabled adapters, in order. -/
def enabledAdapters (s : Store) : List Adapter := s.adapters.filter (·.enabled)

/-- The first adapter of a name. -/
def adapter (s : Store) (name : String) : Except Error Adapter :=
  match s.adapters.find? (·.name = name) with
  | some a => .ok a
  | none => .error (.adapterNotFound name)

/-- The first enabled adapter. -/
def firstEnabled (s : Store) : Except Error Adapter :=
  match s.enabledAdapters with
  | a :: _ => .ok a
  | [] => .error .noEnabledAdapter

/-- The file at a path in the first enabled adapter. -/
def defaultFile (s : Store) (path : String) : Except Error FileRef := do
  return ⟨(← s.firstEnabled).name, path⟩

/-- The files whose paths pass a test, adapter by adapter. -/
def list (s : Store) (test : String → Bool) : List FileRef :=
  s.adapters.flatMap fun a => (a.list s.disk test).map fun path => ⟨a.name, path⟩

/-- The files of an adapter whose paths pass a test, or the error that stopped the search. -/
def tryListOf (s : Store) (test : String → Bool) (a : Adapter) : Except Error (List FileRef) := do
  return (← a.tryList s.disk test).map fun path => ⟨a.name, path⟩

/-- The files whose paths pass a test, adapter by adapter, or the first error of an adapter. -/
def tryList (s : Store) (test : String → Bool) : Except Error (List FileRef) := do
  return (← s.adapters.mapM (s.tryListOf test)).flatten

/-- Whether a file is there. -/
def exists? (s : Store) (f : FileRef) : Except Error Bool := do
  return (← s.adapter f.adapter).exists? s.disk f.path

/-- The bytes of a file. -/
def readBytes (s : Store) (f : FileRef) : Except Error Bytes := do
  (← s.adapter f.adapter).read s.disk f.path

/-- The text of a store in diagnostics. -/
def debugText (s : Store) : String :=
  let names := ", ".intercalate (s.adapters.map fun a => Quoted.text a.name)
  "Persistence \x7b adapters: [" ++ names ++ s!"], listeners: {s.subscribers.length} \x7d"

/-! ## Operations

An operation gives its result, or the error that stopped it, and the store after it. -/

/-- The adapters with `a` in place of the first of its name. -/
def replaceFirst (a : Adapter) : List Adapter → List Adapter
  | [] => []
  | b :: bs => if b.name = a.name then a :: bs else b :: replaceFirst a bs

/-- Runs an operation on the adapter of a name. -/
def change (s : Store) (name : String) (operation : Adapter → Disk → Adapter.Outcome) :
    Except Error Unit × Store :=
  match s.adapter name with
  | .error e => (.error e, s)
  | .ok a =>
    let (result, a, disk) := operation a s.disk
    (result, { s with adapters := replaceFirst a s.adapters, disk })

/-- Tells of an event if the operation before went well. -/
def announce (e : Event) : Except Error Unit × Store → Except Error Unit × Store
  | (.ok (), s) => (.ok (), s.tell e)
  | (.error error, s) => (.error error, s)

/-- The tree in a file, which has to have the type asked for. -/
def read (s : Store) (t : TypeName) (f : FileRef) : Except Error State × Store :=
  match s.readBytes f >>= decode with
  | .error e => (.error e, s)
  | .ok tree =>
    match tree.cast t with
    | none => (.error (.typeMismatch t tree.kind), s)
    | some tree => (.ok tree, s.tell (.read f))

/-- Stores a tree in a file. -/
def write (s : Store) (f : FileRef) (tree : State) : Except Error Unit × Store :=
  match s.adapter f.adapter, encode tree with
  | .error e, _ => (.error e, s)
  | .ok _, .error e => (.error e, s)
  | .ok _, .ok data => announce (.written f) (s.change f.adapter fun a d => a.write d f.path data)

/-- Carries the bytes of a file over to a file of another adapter. -/
def carry (s : Store) (source target : FileRef) : Except Error Unit × Store :=
  match s.adapter target.adapter, s.readBytes source with
  | .error e, _ => (.error e, s)
  | .ok _, .error e => (.error e, s)
  | .ok _, .ok data => s.change target.adapter fun a d => a.write d target.path data

/-- Moves a file: within an adapter by renaming, else by carrying it over and then deleting the
source. -/
def move (s : Store) (source target : FileRef) : Except Error Unit × Store :=
  announce (.moved source target) <|
    match s.adapter source.adapter with
    | .error e => (.error e, s)
    | .ok _ =>
      if source.adapter = target.adapter then
        s.change source.adapter fun a d => a.move d source.path target.path
      else
        match s.carry source target with
        | (.error e, s) => (.error e, s)
        | (.ok (), s) => s.change source.adapter fun a d => a.delete d source.path

/-- Copies a file: within an adapter directly, else by carrying it over. -/
def copy (s : Store) (source target : FileRef) : Except Error Unit × Store :=
  announce (.copied source target) <|
    match s.adapter source.adapter with
    | .error e => (.error e, s)
    | .ok _ =>
      if source.adapter = target.adapter then
        s.change source.adapter fun a d => a.copy d source.path target.path
      else
        s.carry source target

/-- Deletes a file; a missing one is no error. -/
def delete (s : Store) (f : FileRef) : Except Error Unit × Store :=
  announce (.deleted f) (s.change f.adapter fun a d => a.delete d f.path)

section Values

variable {context α : Type} [Persistable context α]

/-- Stores the tree of a value in a file. -/
def writeFrom (s : Store) (f : FileRef) (ctx : context) (x : α) : Except Error Unit × Store :=
  s.write f (Persistable.serialize ctx x)

/-- Updates a value from the tree in a file. -/
def readInto (s : Store) (f : FileRef) (ctx : context) (x : α) :
    Except Error Unit × α × Store :=
  match s.read .any f with
  | (.error e, s) => (.error e, x, s)
  | (.ok tree, s) =>
    let (x, result) := Persistable.deserialize ctx tree x
    (result, x, s)

end Values

end Store

end SaveTree
