/-
  Save files in a directory of the disk.

  Each operation works on the file that the settings give to a path. A missing file is reported
  as such; every other fault of the disk, and every fault in creating directories, is reported
  with the operation. Directories above a target are created first, and stay when the operation
  fails later. A copy onto the same path is only a check that the file is there. `list` is what a
  listing finds; `tryList` also says when it cannot open a directory on its way.
-/
import SaveTree.Error
import SaveTree.Storage.Config

namespace SaveTree

namespace DirectoryConfig

/-- The error of an operation on `path`. -/
def fail (action : FileAction) (path : String) (fault : DiskFault) : Error :=
  if fault = .notFound then .fileNotFound path else .disk action path fault

/-- The path text of a save file with a suffix, if its name has the suffix behind a name of its
own. -/
def stem? (extension path : String) : Option String :=
  let cs := path.toList
  let es := extension.toList
  if es.isSuffixOf cs then
    let stem := cs.take (cs.length - es.length)
    if stem = [] ∨ stem.getLast? = some '/' then none else some (String.ofList stem)
  else
    none

/-- The paths of the save files that pass a test, sorted. -/
def list (c : DirectoryConfig) (d : Disk) (test : String → Bool) : List String :=
  ((d.filesUnder c.directory).filterMap fun (path, _) => stem? c.extension path).filter test
    |>.mergeSort (fun a b => decide (a ≤ b))

/-- The paths of the save files that pass a test, sorted, if every directory can be opened. -/
def tryList (c : DirectoryConfig) (d : Disk) (test : String → Bool) : Except Error (List String) :=
  match d.openBelow c.directory with
  | .ok () => .ok (c.list d test)
  | .error fault => .error (.disk .list c.directory fault)

/-- Whether there is a save file at a path. -/
def exists? (c : DirectoryConfig) (d : Disk) (path : String) : Bool := d.isFile (c.filePath path)

/-- The bytes of a save file. -/
def read (c : DirectoryConfig) (d : Disk) (path : String) : Except Error Bytes :=
  (d.read (c.filePath path)).mapError (fail .read path)

/-- Runs an operation on the disk after creating the directories above its target. -/
def withParents (d : Disk) (target : String) (action : FileAction) (path : String)
    (operation : Disk → Except DiskFault Unit × Disk) : Except Error Unit × Disk :=
  match d.makeParents target with
  | (.error fault, d) => (.error (.disk action path fault), d)
  | (.ok (), d) =>
    let (result, d) := operation d
    (result.mapError (fail action path), d)

/-- Creates or overwrites a save file. -/
def write (c : DirectoryConfig) (d : Disk) (path : String) (bytes : Bytes) :
    Except Error Unit × Disk :=
  let target := c.filePath path
  withParents d target .write path fun d => d.attempt (d.write target bytes)

/-- Gives a save file another path. -/
def move (c : DirectoryConfig) (d : Disk) (path destination : String) :
    Except Error Unit × Disk :=
  let target := c.filePath destination
  withParents d target .move path fun d => d.attempt (d.rename (c.filePath path) target)

/-- Copies a save file to another path. -/
def copy (c : DirectoryConfig) (d : Disk) (path destination : String) :
    Except Error Unit × Disk :=
  if path = destination then
    (if c.exists? d path then .ok () else .error (.fileNotFound path), d)
  else
    let target := c.filePath destination
    withParents d target .copy path fun d => d.copy (c.filePath path) target

/-- Removes a save file; a missing one is no error. -/
def delete (c : DirectoryConfig) (d : Disk) (path : String) : Except Error Unit × Disk :=
  match d.remove (c.filePath path) with
  | .ok d => (.ok (), d)
  | .error .notFound => (.ok (), d)
  | .error fault => (.error (.disk .delete path fault), d)

end DirectoryConfig

end SaveTree
