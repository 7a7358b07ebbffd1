/-
  Decoding a tree.

  The reader keeps its place in the whole input, so each fault has the offset of the byte where
  it was found, inside extension blocks too. Integers of 64 bits are read as long ones and all
  narrower forms as 32-bit ones; names of fields are texts; the payload of an extension block is
  used up exactly, and so is the input. `readValue` may open as many lists and objects inside
  one another as its first argument says.
-/
import SaveTree.State.Basic
import SaveTree.Wire.Integer

namespace SaveTree.Wire

/-- The part of the input not yet read, and how many bytes came before it. -/
structure Input where
  offset : Nat
  rest : Bytes

/-- A reader: uses up a part of the input, or fails. -/
abbrev Reader (α : Type) := Input → Except Error (α × Input)

/-- A fault at an offset. -/
def failAt {α : Type} (offset : Nat) (fault : DecodeFault) : Except Error α :=
  .error (.decode offset fault)

/-- The input after its first `n` bytes. -/
def Input.drop (i : Input) (n : Nat) : Input := ⟨i.offset + n, i.rest.drop n⟩

/-- The next `n` bytes, if there are as many. -/
def Input.take? (i : Input) (n : Nat) : Option (Bytes × Input) :=
  let head := i.rest.take n
  if head.length = n then some (head, i.drop n) else none

/-- The number in the next `width` bytes; a fault is put at `start`. -/
def readNumber (start width : Nat) : Reader Nat := fun i =>
  match i.take? width with
  | some (bytes, i) => .ok (ofBigEndian bytes, i)
  | none => failAt start .noData

/-- A length behind its marker; a fault is put at `start`. -/
def readCount (start : Nat) : Count → Reader Nat
  | .inline n => fun i => .ok (n, i)
  | .field width => readNumber start width

/-- The next marker; a missing one is the given fault. -/
def readMarker (missing : DecodeFault) : Reader Marker := fun i =>
  match i.rest with
  | [] => failAt i.offset missing
  | b :: rest => .ok (Marker.ofByte b, ⟨i.offset + 1, rest⟩)

/-- The next `n` bytes of a block. -/
def readBlock (block : Block) (n : Nat) : Reader Bytes := fun i =>
  match i.take? n with
  | some r => .ok r
  | none => failAt i.offset (.truncated block n i.rest.length)

/-- The integer of a marker, whatever its size; a fault is put at `start`. -/
def readWhole (start : Nat) : Marker → Reader Int
  | .small n => fun i => .ok (n, i)
  | .unsigned width => fun i => do
    let (n, i) ← readNumber start width i
    .ok ((n : Int), i)
  | .signed width => fun i => do
    let (n, i) ← readNumber start width i
    .ok (signed width n, i)
  | _ => fun _ => failAt start .wrongMarker

/-- An integer between `low` and `high` behind its marker; a fault is put at `start`. -/
def readInteger (start : Nat) (low high : Int) (m : Marker) : Reader Int := fun i => do
  let (n, i) ← readWhole start m i
  if low ≤ n ∧ n ≤ high then .ok (n, i) else failAt start .outOfRange

/-- An integer of 32 bits behind its marker. -/
def readInt (start : Nat) (m : Marker) : Reader Int32 := fun i => do
  let (n, i) ← readInteger start (-2 ^ 31) (2 ^ 31 - 1) m i
  .ok (Int32.ofInt n, i)

/-- An integer of 64 bits behind its marker. -/
def readLong (start : Nat) (m : Marker) : Reader Int64 := fun i => do
  let (n, i) ← readInteger start (-2 ^ 63) (2 ^ 63 - 1) m i
  .ok (Int64.ofInt n, i)

/-- A float of 32 bits behind its marker. -/
def readFloat (start : Nat) (m : Marker) : Reader Binary32 := fun i =>
  match m with
  | .float => do
    let (n, i) ← readNumber start 4 i
    .ok (Binary.ofNat .single n, i)
  | _ => failAt start .wrongMarker

/-- A float of 64 bits behind its marker. -/
def readDouble (start : Nat) : Reader Binary64 := fun i => do
  let (n, i) ← readNumber start 8 i
  .ok (Binary.ofNat .double n, i)

/-- A text behind its marker. -/
def readText (start : Nat) (length : Count) : Reader String := fun i => do
  let (n, i) ← readCount start length i
  let (bytes, i) ← readBlock .text n i
  match Utf8.decode bytes with
  | .ok s => .ok (s, i)
  | .error fault => failAt start (.notText fault)

/-- `count` values one after the other, behind those of `out`. -/
def readMany {α : Type} (one : Reader α) (out : Array α) : Nat → Reader (Array α)
  | 0, i => .ok (out, i)
  | count + 1, i =>
    match one i with
    | .ok (x, i) => readMany one (out.push x) count i
    | .error e => .error e

/-- A component of an extension block: an integer in the blocks of integer composites, else a
float. -/
def readComponent (kind : Kind) : Reader Component := fun i => do
  let (m, j) ← readMarker .noMarker i
  match kind with
  | .vector2int | .vector3int =>
    let (n, j) ← readInt i.offset m j
    .ok (.int n, j)
  | _ =>
    let (x, j) ← readFloat i.offset m j
    .ok (.float x, j)

/-- The components of an extension block. -/
def readComponents (kind : Kind) : Reader (Option Composite) := fun i => do
  let (cs, i) ← readMany (readComponent kind) #[] kind.arity i
  .ok (Composite.ofComponents? kind cs.toList, i)

/-- A composite of a kind in the next `n` bytes, which it uses up; `start` and `code` are those of
its block. -/
def readPayload (start : Nat) (code : Int) (n : Nat) (kind : Kind) : Reader Composite := fun i => do
  let (payload, after) ← readBlock .extension n i
  let (c, left) ← readComponents kind ⟨i.offset, payload⟩
  match c with
  | none => .error (.unknownExtension start code)
  | some c =>
    if left.rest.isEmpty then .ok (c, after)
    else failAt left.offset (.unread left.rest.length kind)

/-- An extension block behind its marker. -/
def readExtension (start : Nat) (size : Count) : Reader Composite := fun i => do
  let (n, i) ← readCount start size i
  let (byte, i) ← readNumber start 1 i
  match Kind.ofCode? (signed 1 byte) with
  | none => .error (.unknownExtension start (signed 1 byte))
  | some kind => readPayload start (signed 1 byte) n kind i

/-- The name of a field. -/
def readKey : Reader String := fun i => do
  let (m, j) ← readMarker .noValue i
  match m with
  | .text length => readText i.offset length j
  | m => failAt i.offset (.keyNotText m)

/-- A field: its name and its value. -/
def readField {α : Type} (value : Reader α) : Reader (String × α) := fun i => do
  let (name, i) ← readKey i
  let (x, i) ← value i
  .ok ((name, x), i)

/-- A value behind its marker, which came at `start`. `nested` reads the values inside lists and
objects; there is none where no more of them may be opened. -/
def readBehind (nested : Option (Reader State)) (start : Nat) (m : Marker) : Reader State :=
  match m with
  | .bool b => fun i => .ok (.bool b, i)
  | .unsigned 8 | .signed 8 => fun i => do
    let (n, i) ← readLong start m i
    .ok (.long n, i)
  | .small _ | .unsigned _ | .signed _ => fun i => do
    let (n, i) ← readInt start m i
    .ok (.int n, i)
  | .float => fun i => do
    let (x, i) ← readFloat start m i
    .ok (.float x, i)
  | .double => fun i => do
    let (x, i) ← readDouble start i
    .ok (.double x, i)
  | .text length => fun i => do
    let (s, i) ← readText start length i
    .ok (.string s, i)
  | .array length =>
    match nested with
    | none => fun _ => failAt start .tooDeep
    | some value => fun i => do
      let (n, i) ← readCount start length i
      let (xs, i) ← readMany value #[] n i
      .ok (.list xs.toList, i)
  | .map length =>
    match nested with
    | none => fun _ => failAt start .tooDeep
    | some value => fun i => do
      let (n, i) ← readCount start length i
      let (fs, i) ← readMany (readField value) #[] n i
      .ok (.object (Fields.ofPairs fs.toList), i)
  | .extension size => fun i => do
    let (c, i) ← readExtension start size i
    .ok (.composite c, i)
  | .nil => fun _ => failAt start .nil
  | .binary _ => fun _ => failAt start .binary
  | .reserved => fun _ => failAt start .reserved

/-- A value with at most `levels` lists and objects inside one another. -/
def readValue : Nat → Reader State
  | 0 => fun i => do
    let (m, j) ← readMarker .noValue i
    readBehind none i.offset m j
  | levels + 1 => fun i => do
    let (m, j) ← readMarker .noValue i
    readBehind (some (readValue levels)) i.offset m j

end SaveTree.Wire

namespace SaveTree

open Wire

/-- The tree that a byte string encodes. -/
def decode (bytes : Bytes) : Except Error State := do
  let (s, left) ← readValue maxNesting ⟨0, bytes⟩
  if left.rest.isEmpty then .ok s
  else failAt left.offset (.trailing left.rest.length)

end SaveTree
