/-
  Markers: the first byte of an encoded value.

  Each of the 256 bytes is a marker. A marker tells the type of the value and either holds a
  small number itself or tells how many bytes after it hold the number (`Count`, and the widths
  of integers).
-/
import SaveTree.Number.Power

namespace SaveTree.Wire

/-- A length: held in the marker, or in a field of `width` bytes after it. -/
inductive Count where
  | inline (n : Nat)
  | field (width : Nat)
  deriving DecidableEq, Repr

/-- What the first byte of an encoded value announces. -/
inductive Marker where
  | small (n : Int)
  | unsigned (width : Nat)
  | signed (width : Nat)
  | float
  | double
  | bool (b : Bool)
  | text (length : Count)
  | array (length : Count)
  | map (length : Count)
  | extension (size : Count)
  | binary (width : Nat)
  | nil
  | reserved
  deriving DecidableEq, Repr

namespace Marker

/-- The marker of a byte. -/
def ofByte (b : UInt8) : Marker :=
  let n := b.toNat
  if n < 0x80 then small n
  else if n < 0x90 then map (.inline (n - 0x80))
  else if n < 0xA0 then array (.inline (n - 0x90))
  else if n < 0xC0 then text (.inline (n - 0xA0))
  else if n = 0xC0 then nil
  else if n = 0xC1 then reserved
  else if n = 0xC2 then bool false
  else if n = 0xC3 then bool true
  else if n < 0xC7 then binary (2 ^ (n - 0xC4))
  else if n < 0xCA then extension (.field (2 ^ (n - 0xC7)))
  else if n = 0xCA then float
  else if n = 0xCB then double
  else if n < 0xD0 then unsigned (2 ^ (n - 0xCC))
  else if n < 0xD4 then signed (2 ^ (n - 0xD0))
  else if n < 0xD9 then extension (.inline (2 ^ (n - 0xD4)))
  else if n < 0xDC then text (.field (2 ^ (n - 0xD9)))
  else if n < 0xDE then array (.field (2 ^ (n - 0xDB)))
  else if n < 0xE0 then map (.field (2 ^ (n - 0xDD)))
  else small (n - 0x100)

/-- A type name with a number, in brackets or as a number of bits. -/
private def counted (inlineName fieldName : String) : Count → String
  | .inline n => s!"{inlineName}({n})"
  | .field width => s!"{fieldName}{8 * width}"

/-- The name of a marker in messages. -/
def name : Marker → String
  | small n => if 0 ≤ n then s!"FixPos({n})" else s!"FixNeg({n})"
  | unsigned width => s!"U{8 * width}"
  | signed width => s!"I{8 * width}"
  | float => "F32"
  | double => "F64"
  | bool true => "True"
  | bool false => "False"
  | text length => counted "FixStr" "Str" length
  | array length => counted "FixArray" "Array" length
  | map length => counted "FixMap" "Map" length
  | extension (.inline n) => s!"FixExt{n}"
  | extension (.field width) => s!"Ext{8 * width}"
  | binary width => s!"Bin{8 * width}"
  | nil => "Null"
  | reserved => "Reserved"

end Marker

end SaveTree.Wire
