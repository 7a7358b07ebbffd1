/-
  Settings of a directory of save files.

  A save file at `path` is the file `<directory>/<path><extension>`. What the variables do not
  set keeps its default.
-/
import SaveTree.Number.Text
import SaveTree.Storage.Disk

namespace SaveTree

/-- Settings of a directory of save files. -/
structure DirectoryConfig where
  name : String := "local"
  directory : String := "Saves"
  extension : String := ".save"
  priority : Int32 := 0
  deriving DecidableEq

namespace DirectoryConfig

/-- The names of the variables that can hold settings. -/
def variableNames : List String :=
  ["PERSIST_ADAPTER_NAME", "PERSIST_DIR", "PERSIST_EXTENSION", "PERSIST_PRIORITY"]

/-- The settings of variables; a priority that is no integer of 32 bits counts as not set. -/
def ofVariables (lookup : String → Option String) : DirectoryConfig :=
  let defaults : DirectoryConfig := {}
  { name := (lookup "PERSIST_ADAPTER_NAME").getD defaults.name
    directory := (lookup "PERSIST_DIR").getD defaults.directory
    extension := (lookup "PERSIST_EXTENSION").getD defaults.extension
    priority := (lookup "PERSIST_PRIORITY" >>= readInt32?).getD defaults.priority }

/-- The file of a path. -/
def filePath (c : DirectoryConfig) (path : String) : String :=
  DiskPath.join c.directory (path ++ c.extension)

end DirectoryConfig

end SaveTree
