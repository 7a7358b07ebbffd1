/-
  Reading JSON documents.

  A document may open at most 127 arrays and objects inside one another. Of members with the same
  name the first place and the last value stay. Every item and member takes at least one
  character, so the length of the text bounds the number of rounds of each loop.
-/
import SaveTree.Json.Reader
import SaveTree.Json.Value

namespace SaveTree.Json

/-- The most arrays and objects that may enclose one another in JSON text. -/
def maxNesting : Nat := 127

/-- The items of an array up to its closing bracket, behind those of `out`. -/
def readItems {α : Type} (one : Reader α) (out : Array α) (first : Bool) :
    Nat → Reader (Array α)
  | 0, cs => stopBefore .endInArray cs
  | fuel + 1, cs =>
    match nextItem first cs with
    | .error stop => .error stop
    | .ok none => .ok (out, (skipBlanks cs).tail)
    | .ok (some cs) =>
      match one cs with
      | .error stop => .error stop
      | .ok (x, cs) => readItems one (out.push x) false fuel cs

/-- The members of an object up to its closing brace, behind those of `out`. -/
def readMembers {α : Type} (one : Reader α) (out : Array (String × α)) (first : Bool) :
    Nat → Reader (Array (String × α))
  | 0, cs => stopBefore .endInObject cs
  | fuel + 1, cs =>
    match nextMember first cs with
    | .error stop => .error stop
    | .ok none => .ok (out, (skipBlanks cs).tail)
    | .ok (some cs) =>
      match readMember cs with
      | .error stop => .error stop
      | .ok (m, cs) => readMembers one (out.push m) false fuel cs
where
  /-- A member, the quote of its name already read. -/
  readMember : Reader (String × α) := fun cs => do
    let (name, cs) ← readString cs
    let cs ← readColon cs
    let (x, cs) ← one cs
    .ok ((name, x), cs)

/-- A value that opens at most `levels` arrays and objects inside one another. -/
def readValue (fuel : Nat) : Nat → Reader Json
  | levels, cs =>
    match skipBlanks cs with
    | [] => stopBefore .endInValue []
    | c :: rest =>
      if c = 'n' then do
        let rest ← readWord ['u', 'l', 'l'] rest
        .ok (.null, rest)
      else if c = 't' then do
        let rest ← readWord ['r', 'u', 'e'] rest
        .ok (.bool true, rest)
      else if c = 'f' then do
        let rest ← readWord ['a', 'l', 's', 'e'] rest
        .ok (.bool false, rest)
      else if c = '"' then do
        let (s, rest) ← readString rest
        .ok (.string s, rest)
      else if c = '-' then do
        let (n, rest) ← readNumber true rest
        .ok (.number n, rest)
      else if c.isDigit then do
        let (n, rest) ← readNumber false (c :: rest)
        .ok (.number n, rest)
      else if c = '[' then
        match levels with
        | 0 => stopBefore .tooDeep (c :: rest)
        | levels + 1 => do
          let (xs, rest) ← readItems (readValue fuel levels) #[] true fuel rest
          .ok (.array xs.toList, rest)
      else if c = '\x7b' then
        match levels with
        | 0 => stopBefore .tooDeep (c :: rest)
        | levels + 1 => do
          let (ms, rest) ← readMembers (readValue fuel levels) #[] true fuel rest
          .ok (.object (Fields.ofPairs ms.toList), rest)
      else
        stopBefore .valueExpected (c :: rest)

/-- Nothing but blanks. -/
def readEnd (cs : List Char) : Except Stop Unit :=
  match skipBlanks cs with
  | [] => .ok ()
  | cs => stopBefore .trailingCharacters cs

/-- A document with nothing after it. -/
def readDocument (cs : List Char) : Except Stop Json := do
  let (j, cs) ← readValue (cs.length + 1) maxNesting cs
  readEnd cs
  .ok j

/-- The document of a text. -/
def parse (text : String) : Except Error Json :=
  match readDocument text.toList with
  | .ok j => .ok j
  | .error stop => .error (.json (stop.place text))

end SaveTree.Json
