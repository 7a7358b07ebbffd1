/-
  Big-endian integers.

  `bigEndian w n` writes the low `w` bytes of `n`, most significant first; `ofBigEndian` reads a
  string of bytes back, and `signed` reads the same bits in two's complement.
-/
import SaveTree.Number.Power
import SaveTree.Text.Utf8

namespace SaveTree.Wire

/-- The low `width` bytes of `n`, most significant first. -/
def bigEndian (width n : Nat) : Bytes :=
  match width with
  | 0 => []
  | width + 1 => UInt8.ofNat (n / 256 ^ width) :: bigEndian width n

/-- The number of a string of bytes, most significant first. -/
def ofBigEndian (bytes : Bytes) : Nat :=
  bytes.foldl (fun n b => 256 * n + b.toNat) 0

/-- The number of `width` bytes in two's complement. -/
def signed (width n : Nat) : Int :=
  if 2 * n < 256 ^ width then n else n - 256 ^ width

/-- The bits of an integer of `width` bytes. -/
def unsigned (width : Nat) (n : Int) : Nat := (n % 256 ^ width).toNat

@[simp] theorem length_bigEndian (width n : Nat) : (bigEndian width n).length = width := by
  induction width with
  | zero => rfl
  | succ width ih => simp [bigEndian, ih]

end SaveTree.Wire
