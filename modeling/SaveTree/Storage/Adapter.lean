/-
  Adapters: named places that keep files.

  An adapter keeps files in memory or in a directory of the disk. Its operations move bytes only
  and know nothing of trees. An operation that changes something gives the adapter and the disk
  after it, also when it fails.
-/
import SaveTree.Storage.Directory
import SaveTree.Storage.Files

namespace SaveTree

/-- Where an adapter keeps its files. -/
inductive Backing where
  | memory (files : Files)
  | directory (config : DirectoryConfig)

/-- A named place for files. Adapters with lower priority come first. -/
structure Adapter where
  name : String
  priority : Int32
  enabled : Bool
  backing : Backing

namespace Adapter

/-- An adapter in memory with no files. -/
def memory (name : String) (priority : Int32) (enabled : Bool) : Adapter :=
  ⟨name, priority, enabled, .memory []⟩

/-- The adapter of a directory. -/
def ofDirectory (c : DirectoryConfig) : Adapter := ⟨c.name, c.priority, true, .directory c⟩

/-- The outcome of an operation on an adapter. -/
abbrev Outcome := Except Error Unit × Adapter × Disk

/-- The adapter holding other files. -/
def holding (a : Adapter) (files : Files) : Adapter := { a with backing := .memory files }

/-- The paths of the files that pass a test, sorted. -/
def list (a : Adapter) (d : Disk) (test : String → Bool) : List String :=
  match a.backing with
  | .memory files => files.paths.filter test
  | .directory c => c.list d test

/-- The paths of the files that pass a test, sorted, or the error that stopped the search. -/
def tryList (a : Adapter) (d : Disk) (test : String → Bool) : Except Error (List String) :=
  match a.backing with
  | .memory _ => .ok (a.list d test)
  | .directory c => c.tryList d test

/-- Whether there is a file at a path. -/
def exists? (a : Adapter) (d : Disk) (path : String) : Bool :=
  match a.backing with
  | .memory files => (files.get? path).isSome
  | .directory c => c.exists? d path

/-- The bytes of a file. -/
def read (a : Adapter) (d : Disk) (path : String) : Except Error Bytes :=
  match a.backing with
  | .memory files =>
    match files.get? path with
    | some bytes => .ok bytes
    | none => .error (.fileNotFound path)
  | .directory c => c.read d path

/-- Creates or overwrites a file. -/
def write (a : Adapter) (d : Disk) (path : String) (bytes : Bytes) : Outcome :=
  match a.backing with
  | .memory files => (.ok (), a.holding (files.insert path bytes), d)
  | .directory c =>
    let (result, d) := c.write d path bytes
    (result, a, d)

/-- Gives a file another path, replacing a file already there. -/
def move (a : Adapter) (d : Disk) (path destination : String) : Outcome :=
  match a.backing with
  | .memory files =>
    match files.get? path with
    | some bytes => (.ok (), a.holding ((files.erase path).insert destination bytes), d)
    | none => (.error (.fileNotFound path), a, d)
  | .directory c =>
    let (result, d) := c.move d path destination
    (result, a, d)

/-- Copies a file to another path, replacing a file already there. -/
def copy (a : Adapter) (d : Disk) (path destination : String) : Outcome :=
  match a.backing with
  | .memory files =>
    match files.get? path with
    | some bytes => (.ok (), a.holding (files.insert destination bytes), d)
    | none => (.error (.fileNotFound path), a, d)
  | .directory c =>
    let (result, d) := c.copy d path destination
    (result, a, d)

/-- Removes a file; a missing one is no error. -/
def delete (a : Adapter) (d : Disk) (path : String) : Outcome :=
  match a.backing with
  | .memory files => (.ok (), a.holding (files.erase path), d)
  | .directory c =>
    let (result, d) := c.delete d path
    (result, a, d)

end Adapter

end SaveTree
