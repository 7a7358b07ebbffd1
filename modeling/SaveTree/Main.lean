/-
  The program: reads the command line, runs the command on the files of the machine, and ends
  with 0, with 1 after a failure, or with 2 after a mistake in the command line.
-/
import SaveTree.Command.Run

namespace SaveTree.Program

/-- Bytes as the machine takes them. -/
def pack (bytes : Bytes) : ByteArray := ⟨bytes.toArray⟩

/-- The cause of a failed access. -/
def systemCause : IO.Error → String
  | .alreadyExists _ code details | .noFileOrDirectory _ code details
  | .invalidArgument _ code details | .permissionDenied _ code details
  | .resourceExhausted _ code details | .inappropriateType _ code details
  | .noSuchThing _ code details | .interrupted _ code details
  | .otherError code details | .resourceBusy code details
  | .resourceVanished code details | .unsupportedOperation code details
  | .hardwareFault code details | .unsatisfiedConstraints code details
  | .illegalOperation code details | .protocolError code details
  | .timeExpired code details => s!"{details} (os error {code.toNat})"
  | e => e.toString

/-- Runs an access whose failure is described by `context`. -/
def attempt {α : Type} (context : String) (access : IO α) : ExceptT Failure IO α := do
  match ← access.toBaseIO with
  | .ok x => return x
  | .error e => throw ⟨context, [systemCause e]⟩

/-- Writes bytes to standard output. -/
def print (bytes : Bytes) : IO Unit := do
  let out ← IO.getStdout
  out.write (pack bytes)
  out.flush

/-- The bytes a command reads. -/
def readInput : Option String → ExceptT Failure IO Bytes
  | some path => do
    let access := do (← IO.FS.Handle.mk path .read).readBinToEnd
    return (← attempt ("Failed to read file: " ++ path) access).toList
  | none => do
    return (← attempt "Failed to read from stdin" do (← IO.getStdin).readBinToEnd).toList

/-- Writes what a command makes. -/
def writeOutput (output : Option String) (bytes : Bytes) : ExceptT Failure IO Unit :=
  match output with
  | some path => attempt ("Failed to write file: " ++ path) (IO.FS.writeBinFile path (pack bytes))
  | none => attempt "Failed to write to stdout" (print bytes)

/-- The names below a directory; its files are taken as empty. -/
partial def readNames (path : String) : IO FileTree := do
  let entries ← (← IO.FS.realPath path).readDir
  let nodes ← entries.toList.mapM fun entry => do
    if (← entry.path.symlinkMetadata).type == .dir then
      return (entry.fileName, ← readNames entry.path.toString)
    else
      return (entry.fileName, .file [])
  return .directory nodes

/-- The names in the directory of the settings; none if it is no directory. -/
def readListed (c : DirectoryConfig) : IO FileTree := do
  match ← (IO.FS.realPath c.directory).toBaseIO with
  | .ok path => if ← path.isDir then readNames path.toString else return .empty
  | .error _ => return .empty

/-- The variables that hold settings. -/
def readVariables : IO (List (String × String)) :=
  DirectoryConfig.variableNames.filterMapM fun name => do
    return (← IO.getEnv name).map fun value => (name, value)

/-- Runs a command. -/
def runCommand (c : Command) : ExceptT Failure IO Unit :=
  match c with
  | .list directory extension start => do
    let vars ← readVariables
    let config := Command.listConfig (fun name => vars.lookup name) directory extension
    let tree ← attempt ("Failed to list " ++ config.directory) (readListed config)
    let output ← Command.listing { config with directory := "." } ⟨tree, []⟩ start
    writeOutput none output
  | c => do
    let bytes ← readInput c.input?
    writeOutput c.output? (← c.perform bytes)

/-- The text for a command line that asks for nothing the program does. -/
def mistakeText : String :=
  "error: the command line is not understood\n\nFor more information, try '--help'."

/-- Runs a command line and gives the exit code. -/
def run (args : List String) : IO UInt32 := do
  match Request.read args with
  | .help c =>
    print (Utf8.encode (Request.helpText c))
    return 0
  | .version =>
    print (Utf8.encode Request.versionText)
    return 0
  | .mistake =>
    IO.eprintln mistakeText
    return 2
  | .run c =>
    match ← (runCommand c).run with
    | .ok () => return 0
    | .error f =>
      IO.eprint f.text
      return 1

end SaveTree.Program

/-- Runs the program. -/
def main (args : List String) : IO UInt32 := SaveTree.Program.run args
