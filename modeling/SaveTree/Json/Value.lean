/-
  JSON documents.

  A document is a tree of nulls, truth values, numbers, texts, arrays and objects; the members
  of an object keep their order.
-/
import SaveTree.Fields
import SaveTree.Json.Number

namespace SaveTree

/-- A JSON document. -/
inductive Json where
  | null
  | bool (b : Bool)
  | number (n : JsonNumber)
  | string (s : String)
  | array (items : List Json)
  | object (members : List (String × Json))
  deriving Inhabited

end SaveTree
