/-
  Settings written as JSON.

  Settings are an object of fields, where unknown ones are passed over and none may come twice,
  or an array of the fields in order; what is missing keeps its default. The first fault met
  from left to right is reported.
-/
import SaveTree.Json.Parse
import SaveTree.Json.Skip
import SaveTree.Json.Typed
import SaveTree.Storage.Config

namespace SaveTree

namespace DirectoryConfig

open Json

/-- A field of the settings. -/
inductive Field where
  | name
  | directory
  | extension
  | priority
  deriving DecidableEq

namespace Field

/-- The fields in order. -/
def all : List Field := [name, directory, extension, priority]

/-- The name of a field. -/
def key : Field → String
  | name => "name"
  | directory => "directory"
  | extension => "extension"
  | priority => "priority"

/-- The settings with the field read from the text. -/
def read (f : Field) (c : DirectoryConfig) : Reader DirectoryConfig := fun cs =>
  match f with
  | name => do
    let (s, cs) ← readText "a string" cs
    .ok ({ c with name := s }, cs)
  | directory => do
    let (s, cs) ← readText "path string" cs
    .ok ({ c with directory := s }, cs)
  | extension => do
    let (s, cs) ← readText "a string" cs
    .ok ({ c with extension := s }, cs)
  | priority => do
    let (n, cs) ← readInt32 cs
    .ok ({ c with priority := n }, cs)

end Field

/-- The end of an array of settings. -/
def endArray (cs : List Char) : Except Stop (List Char) :=
  match skipBlanks cs with
  | [] => stopBefore .endInArray []
  | c :: rest =>
    if c = ']' then
      .ok rest
    else if c = ',' then
      match skipBlanks rest with
      | ']' :: rest => stopBefore .trailingComma (']' :: rest)
      | rest => stopBefore .trailingCharacters rest
    else
      stopBefore .trailingCharacters (c :: rest)

/-- The settings of an array, its fields still to read. -/
def readArray (c : DirectoryConfig) (first : Bool) : List Field → Reader DirectoryConfig
  | [], cs => do
    let cs ← endArray cs
    .ok (c, cs)
  | f :: fs, cs => do
    match ← nextItem first cs with
    | none => do
      let cs ← endArray cs
      .ok (c, cs)
    | some cs => do
      let (c, cs) ← f.read c cs
      readArray c false fs cs

/-- The settings of an object; `seen` are the fields it has had so far. -/
def readObject (c : DirectoryConfig) (seen : List Field) (first : Bool) :
    Nat → Reader DirectoryConfig
  | 0, cs => stopBefore .endInObject cs
  | fuel + 1, cs => do
    match ← nextMember first cs with
    | none => .ok (c, (skipBlanks cs).tail)
    | some cs => do
      let (key, cs) ← readString cs
      match Field.all.find? (·.key = key) with
      | none => do
        let cs ← skipValue (← readColon cs)
        readObject c seen false fuel cs
      | some f =>
        if f ∈ seen then
          let rest := skipBlanks cs
          stopAt (.duplicateField key) (if rest.head? = some '\x7d' then rest.tail else rest)
        else do
          let (c, cs) ← f.read c (← readColon cs)
          readObject c (f :: seen) false fuel cs

/-- The settings of a text with nothing after them. -/
def readSettings (cs : List Char) : Except Stop DirectoryConfig := do
  let start := skipBlanks cs
  let (c, rest) ← match start with
    | '[' :: rest => readArray {} true Field.all rest
    | '\x7b' :: rest => readObject {} [] true (cs.length + 1) rest
    | start => wrongType "struct LocalAdapterConfig" start
  readEnd rest
  .ok c

/-- The settings of JSON text. -/
def parse (text : String) : Except Error DirectoryConfig :=
  match readSettings text.toList with
  | .ok c => .ok c
  | .error stop => .error (.json (stop.place text))

end DirectoryConfig

end SaveTree
