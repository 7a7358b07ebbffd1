/-
  Running commands.

  A command other than `list` reads one input, makes its output from the bytes read, and writes
  the output last, so a command that fails before has changed nothing. `perform` is the part in
  between. `run` plays a whole command line against a disk, standard input and variables.
-/
import SaveTree.Command.Help
import SaveTree.State.AtPath
import SaveTree.State.Json
import SaveTree.Storage.Store

namespace SaveTree

/-- The causes of an error, outermost first. -/
def Error.causes (e : Error) : List String :=
  match e with
  | .json error => [e.message, error.message]
  | .disk _ _ fault => [e.message, fault.message]
  | e => [e.message]

/-- Why a command failed: what it was doing, and the causes, outermost first. -/
structure Failure where
  context : String
  causes : List String

namespace Failure

/-- The failure of a step by an error. -/
def ofError (context : String) (e : Error) : Failure := ⟨context, e.causes⟩

/-- The numbered lines of several causes. -/
def numbered (n : Nat) : List String → String
  | [] => ""
  | cause :: causes => s!"    {n}: {cause}\n" ++ numbered (n + 1) causes

/-- The text of a failure. -/
def text (f : Failure) : String :=
  let causes := match f.causes with
    | [cause] => s!"    {cause}\n"
    | causes => numbered 0 causes
  s!"Error: {f.context}\n\nCaused by:\n" ++ causes

end Failure

namespace Command

/-- The file a command reads; none for standard input. -/
def input? : Command → Option String
  | encode input _ | decode input _ | get input _ | set input _ _ _ => input
  | list .. => none

/-- The file a command writes; none for standard output. -/
def output? : Command → Option String
  | encode _ output | decode _ output => output
  | set input output _ _ => output <|> input
  | get .. | list .. => none

/-- The JSON text of a tree as a command prints it. -/
def render (s : State) : Bytes := Utf8.encode (s.toJsonText ++ "\n")

/-- The tree in the bytes of a save file. -/
def readTree (bytes : Bytes) : Except Failure State :=
  (SaveTree.decode bytes).mapError (.ofError "Failed to decode save data")

/-- The path of an argument. -/
def readPath (text : String) : Except Failure Path :=
  (Path.parse text).mapError (.ofError "Invalid path")

/-- The bytes of a save file. -/
def writeTree (s : State) : Except Failure Bytes :=
  (SaveTree.encode s).mapError (.ofError "Failed to encode state")

/-- The output of a command that reads the given bytes. -/
def perform (c : Command) (bytes : Bytes) : Except Failure Bytes :=
  match c with
  | encode _ _ => do
    let text ← (Utf8.decode bytes).mapError fun fault =>
      ⟨"Input is not valid UTF-8", [fault.message]⟩
    let s ← (State.ofJsonText text).mapError (.ofError "Failed to parse JSON input")
    writeTree s
  | decode _ _ => do
    return render (← readTree bytes)
  | get _ path => do
    let s ← readTree bytes
    let p ← readPath path
    let node ← (p.get s).mapError (.ofError s!"Failed to read '{p.text}'")
    return render node
  | set _ _ path value => do
    let s ← readTree bytes
    let p ← readPath path
    let x ← (State.ofJsonText value).mapError (.ofError "Failed to parse JSON value")
    let s ← (p.set s x).mapError (.ofError s!"Failed to write '{p.text}'")
    writeTree s
  | list .. => .ok []

/-- The settings a listing uses: those of the variables, with the options in their place. -/
def listConfig (lookup : String → Option String) (directory extension : Option String) :
    DirectoryConfig :=
  let c := DirectoryConfig.ofVariables lookup
  { c with
    directory := directory.getD c.directory
    extension := extension.getD c.extension }

/-- The output of a listing. -/
def listing (c : DirectoryConfig) (d : Disk) (start : Option String) : Except Failure Bytes := do
  let store := { Store.empty with disk := d }.register (.ofDirectory c)
  let files ← (store.tryList fun path => (start.getD "").toList.isPrefixOf path.toList).mapError
    (.ofError ("Failed to list " ++ c.directory))
  return Utf8.encode (Request.lines (files.map (·.path)))

end Command

/-- What a command line runs against. -/
structure Environment where
  disk : Disk
  input : Bytes
  vars : List (String × String)

/-- How a run ends. -/
structure Outcome where
  code : Nat
  output : Bytes
  complaint : String
  disk : Disk

namespace Environment

/-- A run that ends well. -/
def succeed (env : Environment) (output : Bytes) : Outcome := ⟨0, output, "", env.disk⟩

/-- A run that fails. -/
def fail (env : Environment) (f : Failure) : Outcome := ⟨1, [], f.text, env.disk⟩

/-- The bytes a command reads. -/
def read (env : Environment) : Option String → Except Failure Bytes
  | none => .ok env.input
  | some path =>
    (env.disk.read path).mapError fun fault =>
      ⟨"Failed to read file: " ++ path, [fault.message]⟩

/-- Runs a command. -/
def runCommand (env : Environment) (c : Command) : Outcome :=
  match c with
  | .list directory extension start =>
    let config := Command.listConfig (fun name => List.lookup name env.vars) directory extension
    match Command.listing config env.disk start with
    | .ok output => env.succeed output
    | .error f => env.fail f
  | c =>
    match env.read c.input? >>= c.perform with
    | .error f => env.fail f
    | .ok output =>
      match c.output? with
      | none => env.succeed output
      | some path =>
        match env.disk.write path output with
        | .ok disk => { env with disk }.succeed []
        | .error fault => env.fail ⟨"Failed to write file: " ++ path, [fault.message]⟩

/-- Runs a command line. -/
def run (env : Environment) (args : List String) : Outcome :=
  match Request.read args with
  | .run c => env.runCommand c
  | .help c => env.succeed (Utf8.encode (Request.helpText c))
  | .version => env.succeed (Utf8.encode Request.versionText)
  | .mistake => ⟨2, [], "", env.disk⟩

end Environment

end SaveTree
