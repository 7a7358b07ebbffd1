/-
  Reading JSON text where a value of one type is asked for.

  A value of another type is read as far as its own start or end, so that the fault can say what
  stands there and is placed behind it; an array or an object is not entered.
-/
import SaveTree.Json.Reader

namespace SaveTree.Json

/-- The value ahead, as what was found where a value of type `expected` was asked for. -/
def wrongType {α : Type} (expected : String) : Reader α := fun cs =>
  match cs with
  | [] => stopBefore .endInValue []
  | c :: rest =>
    if c = 'n' then do
      let rest ← readWord ['u', 'l', 'l'] rest
      stopAt (.wrongType .null expected) rest
    else if c = 't' then do
      let rest ← readWord ['r', 'u', 'e'] rest
      stopAt (.wrongType (.bool true) expected) rest
    else if c = 'f' then do
      let rest ← readWord ['a', 'l', 's', 'e'] rest
      stopAt (.wrongType (.bool false) expected) rest
    else if c = '-' then do
      let (n, rest) ← readNumber true rest
      stopAt (.wrongType (found n) expected) rest
    else if c.isDigit then do
      let (n, rest) ← readNumber false cs
      stopAt (.wrongType (found n) expected) rest
    else if c = '"' then do
      let (s, rest) ← readString rest
      stopAt (.wrongType (.string s) expected) rest
    else if c = '[' then stopAt (.wrongType .sequence expected) cs
    else if c = '\x7b' then stopAt (.wrongType .map expected) cs
    else stopBefore .valueExpected cs
where
  /-- A number that was found. -/
  found : JsonNumber → JsonFound
    | .integer n => .integer n
    | .float x => .float x

/-- A text where a value of type `expected` is asked for. -/
def readText (expected : String) : Reader String := fun cs =>
  match skipBlanks cs with
  | '"' :: rest => readString rest
  | cs => wrongType expected cs

/-- An integer of 32 bits. -/
def readInt32 : Reader Int32 := fun cs =>
  match skipBlanks cs with
  | [] => stopBefore .endInValue []
  | c :: rest =>
    if c = '-' || c.isDigit then do
      let (n, after) ← if c = '-' then readNumber true rest else readNumber false (c :: rest)
      match n with
      | .integer n =>
        if -2 ^ 31 ≤ n ∧ n < 2 ^ 31 then .ok (Int32.ofInt n, after)
        else stopAt (.wrongValue (.integer n) "i32") after
      | .float x => stopAt (.wrongType (.float x) "i32") after
    else
      wrongType "i32" (c :: rest)

end SaveTree.Json
