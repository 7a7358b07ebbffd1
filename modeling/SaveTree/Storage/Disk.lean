/-
  The disk: a file tree with a working directory.

  A path text is split at its slashes and walked from the root or from the working directory.
  Empty parts and single points stay where they are, two points go up, and each other part names
  an entry of a directory. Only the last part may be missing, and only where something is
  created. A slash at the end asks for a directory. Operations give the new disk or the fault
  that stops them; those that can be stopped halfway give both.
-/
import SaveTree.Storage.DiskFault
import SaveTree.Storage.FileTree

namespace SaveTree

/-- A file tree and the location relative paths start from. -/
structure Disk where
  tree : FileTree
  workingDirectory : List String

/-- The most bytes of one name. -/
def maxNameBytes : Nat := 255

/-- The fewest bytes at which a path is too long. -/
def pathBytesLimit : Nat := 4096

namespace DiskPath

/-- The parts of a text between its slashes, `part` being the start of the first in reverse. -/
def splitFrom (part : List Char) : List Char → List String
  | [] => [String.ofList part.reverse]
  | c :: cs =>
    if c = '/' then String.ofList part.reverse :: splitFrom [] cs else splitFrom (c :: part) cs

/-- The parts of a path text. -/
def parts (path : String) : List String := splitFrom [] path.toList

/-- Whether a path starts at the root. -/
def isAbsolute (path : String) : Bool := path.toList.head? = some '/'

/-- The parts of a path less those that stay in place; a point at the start is kept. -/
def normalParts (path : String) : List String :=
  match parts path with
  | [] => []
  | first :: rest =>
    let rest := rest.filter fun p => p ≠ "" && p ≠ "."
    if first = "" then rest else first :: rest

/-- The text of a path. -/
def ofParts (absolute : Bool) (ps : List String) : String :=
  (if absolute then "/" else "") ++ "/".intercalate ps

/-- A path appended to a directory; an absolute one stands by itself. -/
def join (directory path : String) : String :=
  if isAbsolute path || directory = "" then path
  else if directory.toList.getLast? = some '/' then directory ++ path
  else directory ++ "/" ++ path

end DiskPath

/-- Where a walk ends. -/
inductive Spot where
  | taken (location : List String)
  | vacant (directory : List String) (name : String)

/-- The last name of a path, the directory it stands in, and whether slashes follow it. -/
structure LastName where
  directory : List String
  name : String
  slashed : Bool

namespace Disk

/-- A disk with nothing but an empty working directory. -/
def empty : Disk := ⟨.directory [("work", .empty)], ["work"]⟩

/-- Walks the parts of a path from a location. -/
def walk (t : FileTree) (here : List String) : List String → Except DiskFault Spot
  | [] => .ok (.taken here)
  | part :: parts =>
    match t.get? here with
    | none => .error .notFound
    | some (.file _) => .error .notDirectory
    | some (.directory es) =>
      if part = "" || part = "." then walk t here parts
      else if part = ".." then walk t here.dropLast parts
      else if maxNameBytes < part.utf8ByteSize then .error .nameTooLong
      else if Fields.hasKey es part then walk t (here ++ [part]) parts
      else if parts.all (· = "") then .ok (.vacant here part)
      else .error .notFound

/-- The location a path starts from. -/
def start (d : Disk) (path : String) : List String :=
  if DiskPath.isAbsolute path then [] else d.workingDirectory

/-- Refuses the texts that are no path at all. -/
def checkPath (path : String) : Except DiskFault Unit :=
  if path = "" then .error .notFound
  else if path.toList.contains '\x00' then .error .badName
  else if pathBytesLimit ≤ path.utf8ByteSize then .error .nameTooLong
  else .ok ()

/-- Where a path leads. -/
def resolve (d : Disk) (path : String) : Except DiskFault Spot := do
  checkPath path
  walk d.tree (d.start path) (DiskPath.parts path)

/-- The location of the node a path leads to. -/
def locate (d : Disk) (path : String) : Except DiskFault (List String) := do
  match ← d.resolve path with
  | .taken location => .ok location
  | .vacant _ _ => .error .notFound

/-- The last name of a path in its directory, which has to exist; none if the path ends in
points or is the root. -/
def lastName (d : Disk) (path : String) : Except DiskFault (Option LastName) := do
  checkPath path
  let reversed := (DiskPath.parts path).reverse
  match reversed.dropWhile (· = "") with
  | [] => .ok none
  | name :: above =>
    match ← walk d.tree (d.start path) above.reverse with
    | .vacant _ _ => .error .notFound
    | .taken directory =>
      if !(d.tree.get? directory).any FileTree.isDirectory then .error .notDirectory
      else if name = "." || name = ".." then .ok none
      else .ok (some ⟨directory, name, reversed.head? = some ""⟩)

/-- The node under a last name, if there is one; a name can be too long to be looked up. -/
def entry? (d : Disk) (l : LastName) : Except DiskFault (Option FileTree) :=
  if maxNameBytes < l.name.utf8ByteSize then .error .nameTooLong
  else .ok (d.tree.get? (l.directory ++ [l.name]))

/-- The disk with a node under a last name. -/
def putEntry (d : Disk) (l : LastName) (node : FileTree) : Disk :=
  { d with tree := d.tree.put l.directory l.name node }

/-- The disk without a last name. -/
def dropEntry (d : Disk) (l : LastName) : Disk :=
  { d with tree := d.tree.drop l.directory l.name }

/-- The node a path leads to. -/
def node? (d : Disk) (path : String) : Option FileTree :=
  match d.locate path with
  | .ok location => d.tree.get? location
  | .error _ => none

/-- Whether a path leads to a file. -/
def isFile (d : Disk) (path : String) : Bool :=
  match d.node? path with
  | some (.file _) => true
  | _ => false

/-- Whether a path leads to a directory. -/
def isDirectory (d : Disk) (path : String) : Bool :=
  match d.node? path with
  | some (.directory _) => true
  | _ => false

/-- The bytes of a file. -/
def read (d : Disk) (path : String) : Except DiskFault Bytes := do
  match d.tree.get? (← d.locate path) with
  | some (.file bytes) => .ok bytes
  | some (.directory _) => .error .isDirectory
  | none => .error .notFound

/-- The last name of a path at which a file can be opened for writing. -/
def openForWriting (d : Disk) (path : String) : Except DiskFault LastName := do
  match ← d.lastName path with
  | none => .error .isDirectory
  | some l =>
    let entry ← d.entry? l
    if l.slashed || entry.any FileTree.isDirectory then .error .isDirectory else .ok l

/-- Creates or overwrites a file. -/
def write (d : Disk) (path : String) (bytes : Bytes) : Except DiskFault Disk := do
  return d.putEntry (← d.openForWriting path) (.file bytes)

/-- Creates a directory in one that exists. -/
def makeDirectory (d : Disk) (path : String) : Except DiskFault Disk := do
  match ← d.lastName path with
  | none => .error .alreadyExists
  | some l =>
    match ← d.entry? l with
    | some _ => .error .alreadyExists
    | none => .ok (d.putEntry l .empty)

/-- Creates the directories `above`, `above/p₁`, `above/p₁/p₂`, … that are missing. -/
def makeDirectories (d : Disk) (absolute : Bool) (above : List String) :
    List String → Except DiskFault Unit × Disk
  | [] => (.ok (), d)
  | p :: ps =>
    let path := DiskPath.ofParts absolute (above ++ [p])
    if d.isDirectory path then
      d.makeDirectories absolute (above ++ [p]) ps
    else
      match d.makeDirectory path with
      | .ok d => d.makeDirectories absolute (above ++ [p]) ps
      | .error fault => (.error fault, d)

/-- Creates the directories above the last part of a path. -/
def makeParents (d : Disk) (path : String) : Except DiskFault Unit × Disk :=
  let absolute := DiskPath.isAbsolute path
  match (DiskPath.normalParts path).dropLast with
  | [] => (.ok (), d)
  | ps =>
    match checkPath (DiskPath.ofParts absolute ps) with
    | .error fault => (.error fault, d)
    | .ok () => d.makeDirectories absolute [] ps

/-- Gives a node another name, replacing a file or an empty directory already there. -/
def rename (d : Disk) (source target : String) : Except DiskFault Disk := do
  let old? ← d.lastName source
  let new? ← d.lastName target
  match old?, new? with
  | some old, some new =>
    let oldLocation := old.directory ++ [old.name]
    let newLocation := new.directory ++ [new.name]
    match ← d.entry? old with
    | none => .error .notFound
    | some node =>
      let replaced ← d.entry? new
      if !node.isDirectory && (old.slashed || new.slashed) then .error .notDirectory
      else if oldLocation = newLocation then .ok d
      else if oldLocation.isPrefixOf newLocation then .error .invalid
      else if newLocation.isPrefixOf oldLocation then .error .notEmpty
      else
        match replaced with
        | some (.file _) => if node.isDirectory then .error .notDirectory else moved old new node
        | some (.directory []) =>
          if node.isDirectory then moved old new node else .error .isDirectory
        | some (.directory _) => .error (if node.isDirectory then .notEmpty else .isDirectory)
        | none => moved old new node
  | _, _ => .error .busy
where
  /-- The disk with the node taken from its old name to the new one. -/
  moved (old new : LastName) (node : FileTree) : Except DiskFault Disk :=
    .ok ((d.dropEntry old).putEntry new node)

/-- What a copy opens: the location of its source, which has to be a file, and then the last name of
its target. -/
def openForCopy (d : Disk) (source target : String) :
    Except DiskFault (List String × LastName) := do
  let location ← d.locate source
  match d.tree.get? location with
  | some (.file _) => return (location, ← d.openForWriting target)
  | some (.directory _) => .error .notRegular
  | none => .error .notFound

/-- Copies a file: the source is opened, the target is emptied, and then the bytes the source
still has are carried over. The target stays empty if there is no source any more. -/
def copy (d : Disk) (source target : String) : Except DiskFault Unit × Disk :=
  match d.openForCopy source target with
  | .error fault => (.error fault, d)
  | .ok (location, new) =>
    let emptied := d.putEntry new (.file [])
    match emptied.tree.get? location with
    | some (.file bytes) => (.ok (), emptied.putEntry new (.file bytes))
    | _ => (.error .notFound, emptied)

/-- The outcome of an operation that changes nothing if it fails. -/
def attempt (d : Disk) : Except DiskFault Disk → Except DiskFault Unit × Disk
  | .ok after => (.ok (), after)
  | .error fault => (.error fault, d)

/-- Removes a file. -/
def remove (d : Disk) (path : String) : Except DiskFault Disk := do
  match ← d.lastName path with
  | none => .error .isDirectory
  | some l =>
    match ← d.entry? l with
    | none => .error .notFound
    | some (.directory _) => .error .isDirectory
    | some (.file _) => if l.slashed then .error .notDirectory else .ok (d.dropEntry l)

/-- The files below a directory under their paths from it; none if it is no directory. -/
def filesUnder (d : Disk) (path : String) : List (String × Bytes) :=
  match d.node? path with
  | some (.directory es) => (FileTree.directory es).files
  | _ => []

/-- Opens the directories below a directory, each by its own path; there are none if it is no
directory. -/
def openBelow (d : Disk) (path : String) : Except DiskFault Unit :=
  match d.node? path with
  | some (.directory es) =>
    (FileTree.directoriesBelow "" es).forM fun below => checkPath (DiskPath.join path below)
  | _ => .ok ()

end Disk

end SaveTree
