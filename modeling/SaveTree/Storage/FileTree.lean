/-
  Trees of directories and files.

  A node of a file tree is a file with its bytes or a directory with its entries under distinct
  names. A location is the list of names that lead to a node from the root of the tree.
-/
import SaveTree.Fields
import SaveTree.Text.Utf8

namespace SaveTree

/-- A file or a directory. -/
inductive FileTree where
  | file (bytes : Bytes)
  | directory (entries : List (String × FileTree))
  deriving Inhabited

namespace FileTree

/-- A directory with no entries. -/
def empty : FileTree := directory []

/-- Whether a node is a directory. -/
def isDirectory : FileTree → Bool
  | directory _ => true
  | file _ => false

/-- The node at a location. -/
def get? (t : FileTree) (location : List String) : Option FileTree :=
  match location, t with
  | [], t => some t
  | name :: names, directory es =>
    match Fields.get? es name with
    | some child => child.get? names
    | none => none
  | _ :: _, file _ => none

/-- The tree with the entries of the directory at a location changed. -/
def change (t : FileTree) (location : List String) (f : Fields FileTree → Fields FileTree) :
    FileTree :=
  match location, t with
  | [], directory es => directory (f es)
  | name :: names, directory es => directory (Fields.modify es name fun c => c.change names f)
  | _, file bytes => file bytes

/-- The tree with a node put under a name into the directory at a location. -/
def put (t : FileTree) (location : List String) (name : String) (node : FileTree) : FileTree :=
  t.change location fun es => Fields.set es name node

/-- The tree with a name taken out of the directory at a location. -/
def drop (t : FileTree) (location : List String) (name : String) : FileTree :=
  t.change location fun es => Fields.erase es name

/-- A path below another. -/
def joinName (above name : String) : String := if above = "" then name else above ++ "/" ++ name

mutual

/-- The files of a node whose path is `path`, each under its own path. -/
def filesFrom (path : String) : FileTree → List (String × Bytes)
  | file bytes => [(path, bytes)]
  | directory es => entriesFrom path es

/-- The files of the entries of a directory. -/
def entriesFrom (path : String) : List (String × FileTree) → List (String × Bytes)
  | [] => []
  | (name, t) :: es => filesFrom (joinName path name) t ++ entriesFrom path es

end

/-- The files of a directory under their paths from it, in the order of the entries. -/
def files (t : FileTree) : List (String × Bytes) := filesFrom "" t

mutual

/-- The directories at and below a node whose path is `path`, each under its own path. -/
def directoriesFrom (path : String) : FileTree → List String
  | file _ => []
  | directory es => path :: directoriesBelow path es

/-- The directories among the entries of a directory and below them. -/
def directoriesBelow (path : String) : List (String × FileTree) → List String
  | [] => []
  | (name, t) :: es => directoriesFrom (joinName path name) t ++ directoriesBelow path es

end

end FileTree

end SaveTree
