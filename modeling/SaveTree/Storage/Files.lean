/-
  Files kept in memory: bytes under path texts, in the order of the texts.
-/
import SaveTree.Text.Utf8

namespace SaveTree

/-- Bytes under path texts, sorted. -/
abbrev Files := List (String × Bytes)

namespace Files

/-- The paths, in order. -/
def paths (fs : Files) : List String := fs.map (·.1)

/-- The bytes of a path. -/
def get? (fs : Files) (path : String) : Option Bytes := List.lookup path fs

/-- The files with `bytes` at a path. -/
def insert (fs : Files) (path : String) (bytes : Bytes) : Files :=
  match fs with
  | [] => [(path, bytes)]
  | (p, b) :: rest =>
    if path < p then (path, bytes) :: (p, b) :: rest
    else if p = path then (path, bytes) :: rest
    else (p, b) :: insert rest path bytes

/-- The files without a path. -/
def erase (fs : Files) (path : String) : Files := fs.filter fun (p, _) => p ≠ path

end Files

end SaveTree
