/-
  Why a text is no JSON document, or not the document asked for.
-/
import SaveTree.Json.Number
import SaveTree.Text.Quoted

namespace SaveTree

/-- What stands in a document where something else was asked for. -/
inductive JsonFound where
  | integer (n : Int)
  | float (x : Binary64)
  | bool (b : Bool)
  | string (s : String)
  | null
  | sequence
  | map
  deriving DecidableEq

/-- The text of what was found. -/
def JsonFound.name : JsonFound → String
  | integer n => s!"integer `{n}`"
  | float x => "floating point `" ++ String.ofList (JsonNumber.floatText x) ++ "`"
  | bool b => if b then "boolean `true`" else "boolean `false`"
  | string s => "string " ++ Quoted.text s
  | null => "null"
  | sequence => "sequence"
  | map => "map"

/-- Why a text is no JSON document, or not the document asked for. -/
inductive JsonFault where
  | endInArray
  | endInObject
  | endInString
  | endInValue
  | colonExpected
  | commaOrBracketExpected
  | commaOrBraceExpected
  | wordExpected
  | valueExpected
  | invalidEscape
  | invalidNumber
  | numberOutOfRange
  | controlCharacter
  | keyExpected
  | loneSurrogate
  | trailingComma
  | trailingCharacters
  | endOfEscape
  | tooDeep
  | wrongType (found : JsonFound) (expected : String)
  | wrongValue (found : JsonFound) (expected : String)
  | duplicateField (name : String)
  deriving DecidableEq

/-- The text of a fault. -/
def JsonFault.message : JsonFault → String
  | endInArray => "EOF while parsing a list"
  | endInObject => "EOF while parsing an object"
  | endInString => "EOF while parsing a string"
  | endInValue => "EOF while parsing a value"
  | colonExpected => "expected `:`"
  | commaOrBracketExpected => "expected `,` or `]`"
  | commaOrBraceExpected => "expected `,` or `\x7d`"
  | wordExpected => "expected ident"
  | valueExpected => "expected value"
  | invalidEscape => "invalid escape"
  | invalidNumber => "invalid number"
  | numberOutOfRange => "number out of range"
  | controlCharacter => "control character (\\u0000-\\u001F) found while parsing a string"
  | keyExpected => "key must be a string"
  | loneSurrogate => "lone leading surrogate in hex escape"
  | trailingComma => "trailing comma"
  | trailingCharacters => "trailing characters"
  | endOfEscape => "unexpected end of hex escape"
  | tooDeep => "recursion limit exceeded"
  | wrongType found expected => "invalid type: " ++ found.name ++ ", expected " ++ expected
  | wrongValue found expected => "invalid value: " ++ found.name ++ ", expected " ++ expected
  | duplicateField name => s!"duplicate field `{name}`"

/-- A fault at a line and column of a text. -/
structure JsonError where
  fault : JsonFault
  line : Nat
  column : Nat
  deriving DecidableEq

/-- The text of a fault and its place. -/
def JsonError.message (e : JsonError) : String :=
  s!"{e.fault.message} at line {e.line} column {e.column}"

end SaveTree
