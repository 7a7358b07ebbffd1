/-
  Passing over JSON values.

  A value that is passed over is checked more loosely than one that is read: escapes need not
  make characters, numbers need not be in range, and there is no limit on nesting.
-/
import SaveTree.Json.Reader

namespace SaveTree.Json

/-- Passes over the rest of a text. -/
def skipChars (cs : List Char) : Except Stop (List Char) :=
  match cs with
  | [] => stopAt .endInString []
  | c :: rest =>
    if c = '"' then
      .ok rest
    else if c = '\\' then
      match rest with
      | [] => stopAt .endInString []
      | e :: rest' =>
        if e = 'u' then
          match _h : readHex rest' with
          | .ok r => skipChars r.2
          | .error stop => .error stop
        else if (letterEscape? e).isSome then
          skipChars rest'
        else
          stopBefore .invalidEscape rest
    else if c.toNat < 0x20 then
      stopAt .controlCharacter cs
    else
      skipChars rest
termination_by cs.length
decreasing_by
  · have := readHex_length _h
    simp only [List.length_cons]
    omega
  · simp only [List.length_cons]
    omega
  · simp only [List.length_cons]
    omega

/-- Passes over the digits of an exponent, its letter already read. -/
def skipExponent (cs : List Char) : Except Stop (List Char) :=
  let cs := match cs with
    | '+' :: rest => rest
    | '-' :: rest => rest
    | cs => cs
  match cs with
  | [] => stopAt .invalidNumber []
  | c :: rest => if c.isDigit then .ok (skipDigits rest) else stopBefore .invalidNumber cs

/-- Passes over what follows the digits of a number. -/
def skipNumberEnd (cs : List Char) : Except Stop (List Char) :=
  match cs with
  | 'e' :: rest => skipExponent rest
  | 'E' :: rest => skipExponent rest
  | cs => .ok cs

/-- Passes over a number, its minus sign already read. -/
def skipNumber (cs : List Char) : Except Stop (List Char) :=
  match cs with
  | [] => stopAt .invalidNumber []
  | c :: after =>
    if !c.isDigit then
      stopBefore .invalidNumber cs
    else if c = '0' ∧ startsWithDigit after then
      stopBefore .invalidNumber after
    else
      match skipDigits after with
      | '.' :: rest =>
        if startsWithDigit rest then skipNumberEnd (skipDigits rest)
        else stopBefore .invalidNumber rest
      | rest => skipNumberEnd rest

/-- The start of a member that is passed over: its name and the colon. -/
def skipName (cs : List Char) : Except Stop (List Char) :=
  match skipBlanks cs with
  | [] => stopBefore .endInObject []
  | c :: rest =>
    if c = '"' then do
      readColon (← skipChars rest)
    else
      stopBefore .keyExpected (c :: rest)

/-- Passes over a scalar, or over the bracket that opens a container: the text after it, and
whether the container is an object. -/
def skipHead (cs : List Char) : Except Stop (Option Bool × List Char) :=
  match skipBlanks cs with
  | [] => stopBefore .endInValue []
  | c :: rest =>
    if c = 'n' then return (none, ← readWord ['u', 'l', 'l'] rest)
    else if c = 't' then return (none, ← readWord ['r', 'u', 'e'] rest)
    else if c = 'f' then return (none, ← readWord ['a', 'l', 's', 'e'] rest)
    else if c = '-' then return (none, ← skipNumber rest)
    else if c.isDigit then return (none, ← skipNumber (c :: rest))
    else if c = '"' then return (none, ← skipChars rest)
    else if c = '[' then return (some false, rest)
    else if c = '\x7b' then return (some true, rest)
    else stopBefore .valueExpected (c :: rest)

/-- Closes the containers that end here, innermost first, and stops at the next item or member:
the containers still open and the text there. `entered` says whether the innermost has an entry
already. -/
def closeContainers (entered : Bool) :
    List Bool → List Char → Except Stop (List Bool × List Char)
  | [], cs => .ok ([], cs)
  | isObject :: outer, cs =>
    match skipBlanks cs with
    | [] => stopBefore (if isObject then .endInObject else .endInArray) []
    | c :: rest =>
      if c = ',' ∧ entered then .ok (isObject :: outer, rest)
      else if c = (if isObject then '\x7d' else ']') then closeContainers true outer rest
      else if entered then
        stopBefore (if isObject then .commaOrBraceExpected else .commaOrBracketExpected) (c :: rest)
      else .ok (isObject :: outer, c :: rest)

/-- Passes over the values up to the end of the containers that are open; each round passes one
value or one opening bracket. -/
def skipOpen : Nat → List Bool → List Char → Except Stop (List Char)
  | 0, _, cs => stopBefore .endInValue cs
  | fuel + 1, stack, cs => do
    let (head, cs) ← skipHead cs
    let (entered, stack) := match head with
      | none => (true, stack)
      | some isObject => (false, isObject :: stack)
    let (stack, cs) ← closeContainers entered stack cs
    match stack with
    | [] => .ok cs
    | isObject :: _ => do
      let cs ← if isObject then skipName cs else .ok cs
      skipOpen fuel stack cs

/-- Passes over a value. -/
def skipValue (cs : List Char) : Except Stop (List Char) := skipOpen (cs.length + 1) [] cs

end SaveTree.Json
