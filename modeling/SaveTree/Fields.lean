/-
  Named fields in order.

  The fields of an object are a list of name and value, names distinct. `set` replaces the value
  of a name in place or appends a new name at the end, `erase` takes a name out and keeps the
  order of the rest; `exchange` and `remove` do the same and give back what was under the name,
  and `setEntry` looks up the position first. `ofPairs` builds the fields that setting the pairs
  one after the other builds, a repeated name keeping its first place and its last value, in one
  pass over an index.
-/
import Std.Data.HashMap

namespace SaveTree

/-- Values under names, in order. -/
abbrev Fields (α : Type) := List (String × α)

namespace Fields

variable {α : Type}

/-- The names, in order. -/
def keys (fs : Fields α) : List String := fs.map (·.1)

/-- The values, in order. -/
def values (fs : Fields α) : List α := fs.map (·.2)

/-- The value of a name. -/
def get? (fs : Fields α) (name : String) : Option α := List.lookup name fs

/-- Whether a name is present. -/
def hasKey (fs : Fields α) (name : String) : Bool := (fs.get? name).isSome

/-- The fields with `value` under `name`: in place if the name is present, else at the end. -/
def set (fs : Fields α) (name : String) (value : α) : Fields α :=
  match fs with
  | [] => [(name, value)]
  | (k, v) :: rest => if k = name then (k, value) :: rest else (k, v) :: set rest name value

/-- The fields without `name`. -/
def erase (fs : Fields α) (name : String) : Fields α :=
  match fs with
  | [] => []
  | (k, v) :: rest => if k = name then rest else (k, v) :: erase rest name

/-- The value that `name` had, and the fields with `value` under it. -/
def exchange (fs : Fields α) (name : String) (value : α) : Option α × Fields α :=
  match fs with
  | [] => (none, [(name, value)])
  | (k, v) :: rest =>
    if k = name then (some v, (k, value) :: rest)
    else
      let (before, rest) := exchange rest name value
      (before, (k, v) :: rest)

/-- The value of `name`, and the fields without it. -/
def remove (fs : Fields α) (name : String) : Option α × Fields α :=
  match fs with
  | [] => (none, [])
  | (k, v) :: rest =>
    if k = name then (some v, rest)
    else
      let (found, rest) := remove rest name
      (found, (k, v) :: rest)

/-- The fields with `value` in the entry of `name`: at its position if it has one, else at the
end. -/
def setEntry (fs : Fields α) (name : String) (value : α) : Fields α :=
  match fs.keys.idxOf? name with
  | some i => List.set fs i (name, value)
  | none => fs ++ [(name, value)]

/-- The fields with the value of `name` changed, in place. -/
def modify (fs : Fields α) (name : String) (change : α → α) : Fields α :=
  match fs.get? name with
  | some v => fs.set name (change v)
  | none => fs

/-- An index of the fields by name. -/
abbrev Index (α : Type) := Std.HashMap String α

/-- The index in which each name has its first value. -/
def index (fs : Fields α) : Index α :=
  fs.foldl (fun m (k, v) => m.insertIfNew k v) ∅

/-- The last value given to each name. -/
def latest (pairs : List (String × α)) : Index α :=
  pairs.foldl (fun m (k, v) => m.insert k v) ∅

/-- The names of the pairs in the order they first occur, those of `seen` left out. -/
def firstKeys (seen : Index Unit) (out : Array String) : List (String × α) → Array String
  | [] => out
  | (k, _) :: rest =>
    if seen.contains k then firstKeys seen out rest
    else firstKeys (seen.insert k ()) (out.push k) rest

/-- The fields that setting the pairs one after the other builds. -/
def ofPairs (pairs : List (String × α)) : Fields α :=
  let values := latest pairs
  (firstKeys ∅ #[] pairs).toList.filterMap fun k => (values[k]?).map fun v => (k, v)

end Fields

end SaveTree
