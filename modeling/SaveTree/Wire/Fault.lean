/-
  Why a tree cannot be encoded, and why a byte string encodes no tree.
-/
import SaveTree.Kind
import SaveTree.Text.Utf8
import SaveTree.Wire.Marker

namespace SaveTree.Wire

/-- The most lists and objects that may enclose one another in a saved file. -/
def maxNesting : Nat := 512

/-- The text for a tree that nests too deep. -/
def tooDeepText : String := s!"nesting exceeds {maxNesting} levels"

/-- Why a tree cannot be encoded. -/
inductive EncodeFault where
  | tooDeep
  | tooLong (entries : Nat)
  deriving DecidableEq, Repr

/-- The text of a fault. -/
def EncodeFault.message : EncodeFault → String
  | tooDeep => tooDeepText
  | tooLong n => s!"container of {n} entries is too large"

/-- What a run of bytes of known length holds. -/
inductive Block where
  | text
  | extension
  deriving DecidableEq, Repr

/-- The name of a block in messages. -/
def Block.name : Block → String
  | text => "string"
  | extension => "extension payload"

/-- Why a byte string encodes no tree. -/
inductive DecodeFault where
  | noValue
  | noMarker
  | noData
  | wrongMarker
  | outOfRange
  | truncated (block : Block) (expected remaining : Nat)
  | notText (fault : Utf8.Fault)
  | tooDeep
  | keyNotText (found : Marker)
  | nil
  | binary
  | reserved
  | unread (count : Nat) (kind : Kind)
  | trailing (count : Nat)
  deriving DecidableEq, Repr

/-- The text of a fault. -/
def DecodeFault.message : DecodeFault → String
  | noValue => "unexpected end of data"
  | noMarker => "failed to read MessagePack marker"
  | noData => "failed to read MessagePack data"
  | wrongMarker => "the type decoded isn't match with the expected one"
  | outOfRange => "out of range integral type conversion attempted"
  | truncated block expected remaining =>
    s!"truncated {block.name}: expected {expected} bytes but only {remaining} remain"
  | notText fault => "invalid UTF-8 in string: " ++ fault.message
  | tooDeep => tooDeepText
  | keyNotText found => "object keys must be strings, found marker " ++ found.name
  | nil => "nil has no state counterpart"
  | binary => "binary data has no state counterpart"
  | reserved => "reserved marker byte 0xc1"
  | unread count kind => s!"{count} unread bytes in {kind.name} extension payload"
  | trailing count => s!"{count} trailing bytes after the root value"

end SaveTree.Wire
