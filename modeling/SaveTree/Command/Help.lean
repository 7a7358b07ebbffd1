/-
  Help texts of the command line.
-/
import SaveTree.Command.Line

namespace SaveTree

namespace Request

/-- The text for a request for the version. -/
def versionText : String := "persist 0.1.0\n"

/-- The lines of a text. -/
def lines (ls : List String) : String := ls.foldl (fun out l => out ++ l ++ "\n") ""

/-- The text for a request for help. -/
def helpText : Option CommandName → String
  | none => lines [
      "Inspect and edit persist save files",
      "",
      "Usage: persist <COMMAND>",
      "",
      "Commands:",
      "  encode  Encode a JSON document into a binary save file",
      "  decode  Decode a binary save file into pretty-printed JSON",
      "  get     Print the node at a path as JSON",
      "  set     Replace the node at a path with a JSON value",
      "  list    List save files in a directory",
      "  help    Print this message or the help of the given subcommand(s)",
      "",
      "Options:",
      "  -h, --help     Print help",
      "  -V, --version  Print version"]
  | some .encode => lines [
      "Encode a JSON document into a binary save file",
      "",
      "Usage: persist encode [OPTIONS]",
      "",
      "Options:",
      "  -i, --input <INPUT>    Input JSON file (reads from stdin if omitted)",
      "  -o, --output <OUTPUT>  Output save file (writes to stdout if omitted)",
      "  -h, --help             Print help"]
  | some .decode => lines [
      "Decode a binary save file into pretty-printed JSON",
      "",
      "Usage: persist decode [OPTIONS]",
      "",
      "Options:",
      "  -i, --input <INPUT>    Input save file (reads from stdin if omitted)",
      "  -o, --output <OUTPUT>  Output JSON file (writes to stdout if omitted)",
      "  -h, --help             Print help"]
  | some .get => lines [
      "Print the node at a path as JSON",
      "",
      "Usage: persist get [OPTIONS] [PATH]",
      "",
      "Arguments:",
      "  [PATH]  Path to read, e.g. `inventory[1].name`; empty for the root [default: ]",
      "",
      "Options:",
      "  -i, --input <INPUT>  Input save file (reads from stdin if omitted)",
      "  -h, --help           Print help"]
  | some .set => lines [
      "Replace the node at a path with a JSON value",
      "",
      "Usage: persist set [OPTIONS] <PATH> <VALUE>",
      "",
      "Arguments:",
      "  <PATH>   Path to write, e.g. `position.y`",
      "  <VALUE>  New value as JSON, e.g. `5`, `\"text\"`, `[1,2]`",
      "",
      "Options:",
      "  -i, --input <INPUT>    Input save file (reads from stdin if omitted)",
      "  -o, --output <OUTPUT>  Output save file (defaults to the input file, or stdout)",
      "  -h, --help             Print help"]
  | some .list => lines [
      "List save files in a directory",
      "",
      "Usage: persist list [OPTIONS]",
      "",
      "Options:",
      "      --dir <DIR>              Save directory (overrides PERSIST_DIR)",
      "      --extension <EXTENSION>  Save file extension (overrides PERSIST_EXTENSION)",
      "      --prefix <PREFIX>        Only list files whose path starts with this prefix",
      "  -h, --help                   Print help"]

end Request

end SaveTree
