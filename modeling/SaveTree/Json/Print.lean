/-
  Writing JSON documents.

  `compact` writes no blanks; `pretty` puts every item and member on a line of its own, two blanks
  deeper than the line that opens it, and one blank after the colon. An empty array or object is
  written in two characters. In a text the quote, the backslash and the characters below U+0020
  are escaped and nothing else is.
-/
import SaveTree.Json.Value

namespace SaveTree

namespace Json

/-- Where lines break. -/
inductive Layout where
  | compact
  | pretty
  deriving DecidableEq

/-- The blanks that open a line `depth` containers deep. -/
def indent (depth : Nat) : String := String.ofList (List.replicate (2 * depth) ' ')

/-- A line break before an entry `depth` containers deep. -/
def breakLine (layout : Layout) (depth : Nat) (out : String) : String :=
  match layout with
  | .compact => out
  | .pretty => out.push '\n' ++ indent depth

/-- The separator of a name and its value. -/
def colon (layout : Layout) (out : String) : String :=
  match layout with
  | .compact => out.push ':'
  | .pretty => (out.push ':').push ' '

/-- The escape of a control character that has no letter. -/
def controlEscape (c : Char) : List Char :=
  ['\\', 'u', '0', '0', Nat.digitChar (c.toNat / 16), Nat.digitChar (c.toNat % 16)]

/-- A character of a text. -/
def escape (c : Char) : List Char :=
  if c = '"' then ['\\', '"']
  else if c = '\\' then ['\\', '\\']
  else if c = '\x08' then ['\\', 'b']
  else if c = '\x0c' then ['\\', 'f']
  else if c = '\n' then ['\\', 'n']
  else if c = '\r' then ['\\', 'r']
  else if c = '\t' then ['\\', 't']
  else if c.toNat < 0x20 then controlEscape c
  else [c]

/-- A text between quotes. -/
def writeString (out s : String) : String :=
  (s.toList.foldl (fun out c => (escape c).foldl String.push out) (out.push '"')).push '"'

mutual

/-- Appends a document whose first line is `depth` containers deep. -/
def write (layout : Layout) (depth : Nat) (out : String) : Json → String
  | null => out ++ "null"
  | bool true => out ++ "true"
  | bool false => out ++ "false"
  | number n => n.text.foldl String.push out
  | string s => writeString out s
  | array [] => out ++ "[]"
  | array (x :: xs) =>
    let out := breakLine layout (depth + 1) (out.push '[')
    let out := writeItems layout (depth + 1) (write layout (depth + 1) out x) xs
    (breakLine layout depth out).push ']'
  | object [] => out ++ "\x7b\x7d"
  | object ((name, x) :: ms) =>
    let out := breakLine layout (depth + 1) (out.push '\x7b')
    let out := colon layout (writeString out name)
    let out := writeMembers layout (depth + 1) (write layout (depth + 1) out x) ms
    (breakLine layout depth out).push '\x7d'

/-- Appends the items after the first. -/
def writeItems (layout : Layout) (depth : Nat) (out : String) : List Json → String
  | [] => out
  | x :: xs =>
    let out := breakLine layout depth (out.push ',')
    writeItems layout depth (write layout depth out x) xs

/-- Appends the members after the first. -/
def writeMembers (layout : Layout) (depth : Nat) (out : String) :
    List (String × Json) → String
  | [] => out
  | (name, x) :: ms =>
    let out := breakLine layout depth (out.push ',')
    let out := colon layout (writeString out name)
    writeMembers layout depth (write layout depth out x) ms

end

/-- The text of a document on one line. -/
def compact (j : Json) : String := write .compact 0 "" j

/-- The text of a document with a line for each entry. -/
def pretty (j : Json) : String := write .pretty 0 "" j

end Json

end SaveTree
