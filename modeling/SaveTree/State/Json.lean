/-
  Trees as JSON documents and back.

  JSON has one type of number. A float is written as the shortest decimal of its own width; a
  number that is neither finite is written as null; a composite becomes an object of its
  components. On the way back an integer is an int if it fits 32 bits, a long if it fits 64, and
  every other number is a double; there is no node for null or for larger integers.
-/
import SaveTree.Json.Parse
import SaveTree.Json.Print
import SaveTree.State.View

namespace SaveTree

/-- The number of a float, or null if it is not finite. -/
def Json.ofDouble (x : Binary64) : Json :=
  if x.isFinite then .number (.float x) else .null

/-- The number of a 32-bit float, or null if it is not finite. -/
def Json.ofFloat (x : Binary32) : Json :=
  if x.isFinite then ofDouble x.widen else .null

/-- The number of a component. -/
def Component.toJson : Component → Json
  | float x => Json.ofFloat x
  | int n => .number (.integer n.toInt)

namespace State

mutual

/-- The document of a tree. -/
def toJson : State → Json
  | bool b => .bool b
  | int n => .number (.integer n.toInt)
  | long n => .number (.integer n.toInt)
  | float x => Json.ofFloat x
  | double x => Json.ofDouble x
  | string s => .string s
  | list xs => .array (itemsToJson xs)
  | object fs => .object (fieldsToJson fs)
  | composite c => .object (c.fields.map fun (name, x) => (name, x.toJson))

/-- The documents of the items of a list. -/
def itemsToJson : List State → List Json
  | [] => []
  | x :: xs => toJson x :: itemsToJson xs

/-- The members of the fields of an object. -/
def fieldsToJson : List (String × State) → List (String × Json)
  | [] => []
  | (name, x) :: fs => (name, toJson x) :: fieldsToJson fs

end

/-- The node of a number. -/
def ofNumber : JsonNumber → Except Error State
  | .integer n =>
    if -2 ^ 31 ≤ n ∧ n < 2 ^ 31 then .ok (int (Int32.ofInt n))
    else if -2 ^ 63 ≤ n ∧ n < 2 ^ 63 then .ok (long (Int64.ofInt n))
    else .error (.unsupportedJson (.integer n))
  | .float x => .ok (double x)

mutual

/-- The tree of a document. -/
def ofJson : Json → Except Error State
  | .null => .error (.unsupportedJson .null)
  | .bool b => .ok (bool b)
  | .number n => ofNumber n
  | .string s => .ok (string s)
  | .array xs =>
    match itemsOfJson xs with
    | .ok xs => .ok (list xs)
    | .error e => .error e
  | .object ms =>
    match fieldsOfJson ms with
    | .ok fs => .ok (object (Fields.ofPairs fs))
    | .error e => .error e

/-- The items of an array. -/
def itemsOfJson : List Json → Except Error (List State)
  | [] => .ok []
  | j :: js =>
    match ofJson j with
    | .error e => .error e
    | .ok x =>
      match itemsOfJson js with
      | .error e => .error e
      | .ok xs => .ok (x :: xs)

/-- The fields of the members of an object. -/
def fieldsOfJson : List (String × Json) → Except Error (List (String × State))
  | [] => .ok []
  | (name, j) :: js =>
    match ofJson j with
    | .error e => .error e
    | .ok x =>
      match fieldsOfJson js with
      | .error e => .error e
      | .ok fs => .ok ((name, x) :: fs)

end

/-- The tree of JSON text. -/
def ofJsonText (text : String) : Except Error State := Json.parse text >>= ofJson

/-- The JSON text of a tree, a line for each entry. -/
def toJsonText (s : State) : String := s.toJson.pretty

end State

end SaveTree
