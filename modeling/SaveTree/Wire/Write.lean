/-
  Encoding a tree.

  Integers and floats are written at full width, so the kind of a number can be told from its
  marker; texts, lists and objects have the shortest header for their length, where that of a text
  is cut to 32 bits; a composite is an extension block of its code and its components. `write`
  appends to a buffer and stops before the first list or object that lies below too many others,
  leaving what is already written.
-/
import SaveTree.State.Basic
import SaveTree.Wire.Integer

namespace SaveTree.Wire

/-- The header of a text of `length` bytes. The length is cut to 32 bits before the form of the
header is chosen, so a text too long for the widest form has a header of any form. -/
def textHeader (length : Nat) : Bytes :=
  let n := length % 2 ^ 32
  if n < 32 then [UInt8.ofNat (0xA0 + n)]
  else if n < 2 ^ 8 then 0xD9 :: bigEndian 1 n
  else if n < 2 ^ 16 then 0xDA :: bigEndian 2 n
  else 0xDB :: bigEndian 4 n

/-- The header of a list of `n` items. -/
def arrayHeader (n : Nat) : Bytes :=
  if n < 16 then [UInt8.ofNat (0x90 + n)]
  else if n < 2 ^ 16 then 0xDC :: bigEndian 2 n
  else 0xDD :: bigEndian 4 n

/-- The header of an object of `n` fields. -/
def mapHeader (n : Nat) : Bytes :=
  if n < 16 then [UInt8.ofNat (0x80 + n)]
  else if n < 2 ^ 16 then 0xDE :: bigEndian 2 n
  else 0xDF :: bigEndian 4 n

/-- The header of an extension block of `n` bytes. -/
def extensionHeader (n code : Nat) : Bytes :=
  if n = 1 then [0xD4, UInt8.ofNat code]
  else if n = 2 then [0xD5, UInt8.ofNat code]
  else if n = 4 then [0xD6, UInt8.ofNat code]
  else if n = 8 then [0xD7, UInt8.ofNat code]
  else if n = 16 then [0xD8, UInt8.ofNat code]
  else if n < 2 ^ 8 then 0xC7 :: bigEndian 1 n ++ [UInt8.ofNat code]
  else if n < 2 ^ 16 then 0xC8 :: bigEndian 2 n ++ [UInt8.ofNat code]
  else 0xC9 :: bigEndian 4 n ++ [UInt8.ofNat code]

/-- The encoding of a truth value. -/
def boolBytes (b : Bool) : Bytes := [if b then 0xC3 else 0xC2]

/-- The encoding of an integer of 32 bits. -/
def intBytes (n : Int32) : Bytes := 0xD2 :: bigEndian 4 (unsigned 4 n.toInt)

/-- The encoding of an integer of 64 bits. -/
def longBytes (n : Int64) : Bytes := 0xD3 :: bigEndian 8 (unsigned 8 n.toInt)

/-- The encoding of a float of 32 bits. -/
def floatBytes (x : Binary32) : Bytes := 0xCA :: bigEndian 4 x.toNat

/-- The encoding of a float of 64 bits. -/
def doubleBytes (x : Binary64) : Bytes := 0xCB :: bigEndian 8 x.toNat

/-- The encoding of a text. -/
def textBytes (s : String) : Bytes :=
  let bytes := Utf8.encode s
  textHeader bytes.length ++ bytes

/-- The encoding of a component. -/
def componentBytes : Component → Bytes
  | .float x => floatBytes x
  | .int n => intBytes n

/-- The encoding of a composite. -/
def compositeBytes (c : Composite) : Bytes :=
  let payload := c.components.flatMap componentBytes
  extensionHeader payload.length c.code ++ payload

/-- The bytes written so far. -/
abbrev Buffer := Array UInt8

/-- A buffer at which writing stopped, and why. -/
structure Halt where
  fault : EncodeFault
  out : Buffer

/-- Appends the header of a list or object of `length` entries below `depth` others. -/
def openContainer (depth length : Nat) (header : Nat → Bytes) (out : Buffer) :
    Except Halt Buffer :=
  if maxNesting ≤ depth then .error ⟨.tooDeep, out⟩
  else if 2 ^ 32 ≤ length then .error ⟨.tooLong length, out⟩
  else .ok (out ++ header length)

mutual

/-- Appends the encoding of a node that lies below `depth` lists and objects. -/
def write (depth : Nat) (out : Buffer) : State → Except Halt Buffer
  | .bool b => .ok (out ++ boolBytes b)
  | .int n => .ok (out ++ intBytes n)
  | .long n => .ok (out ++ longBytes n)
  | .float x => .ok (out ++ floatBytes x)
  | .double x => .ok (out ++ doubleBytes x)
  | .string s => .ok (out ++ textBytes s)
  | .composite c => .ok (out ++ compositeBytes c)
  | .list xs =>
    match openContainer depth xs.length arrayHeader out with
    | .ok out => writeItems (depth + 1) out xs
    | .error halt => .error halt
  | .object fs =>
    match openContainer depth fs.length mapHeader out with
    | .ok out => writeFields (depth + 1) out fs
    | .error halt => .error halt

/-- Appends the encodings of the items of a list. -/
def writeItems (depth : Nat) (out : Buffer) : List State → Except Halt Buffer
  | [] => .ok out
  | x :: xs =>
    match write depth out x with
    | .ok out => writeItems depth out xs
    | .error halt => .error halt

/-- Appends the encodings of the names and values of an object. -/
def writeFields (depth : Nat) (out : Buffer) : List (String × State) → Except Halt Buffer
  | [] => .ok out
  | (name, x) :: fs =>
    match write depth (out ++ textBytes name) x with
    | .ok out => writeFields depth out fs
    | .error halt => .error halt

end

end SaveTree.Wire

namespace SaveTree

open Wire

/-- The encoding of a tree. -/
def encode (s : State) : Except Error Bytes :=
  match write 0 #[] s with
  | .ok out => .ok out.toList
  | .error halt => .error (.encode halt.fault)

/-- The bytes `before` followed by the encoding of a tree, or by the part of it written before
the error. -/
def encodeInto (before : Bytes) (s : State) : Bytes × Except Error Unit :=
  match write 0 before.toArray s with
  | .ok out => (out.toList, .ok ())
  | .error halt => (halt.out.toList, .error (.encode halt.fault))

end SaveTree
