/-
  UTF-8 as a byte string.

  `encode` writes the characters of a text one after the other. `decode` accepts exactly what
  some text encodes to: no overlong form, no surrogate, nothing above U+10FFFF. Where it stops it
  reports the length of the good part and how many bytes of the next character are already known
  to be wrong, or that the string ends inside a character.
-/

namespace SaveTree

/-- A string of bytes. -/
abbrev Bytes := List UInt8

namespace Utf8

/-- Where a byte string stops being UTF-8. `bad` is the number of bytes of the ill-formed
sequence, or none if the string ends inside a sequence that could still be completed. -/
structure Fault where
  validUpTo : Nat
  bad : Option Nat
  deriving DecidableEq, Repr

/-- The text of a fault. -/
def Fault.message (e : Fault) : String :=
  match e.bad with
  | some k => s!"invalid utf-8 sequence of {k} bytes from index {e.validUpTo}"
  | none => s!"incomplete utf-8 byte sequence from index {e.validUpTo}"

/-- The bytes of a text. -/
def encode (s : String) : Bytes := s.toList.flatMap String.utf8EncodeChar

/-- A byte that may follow inside a character. -/
def isContinuation (b : UInt8) : Bool := 0x80 ≤ b && b ≤ 0xBF

/-- A byte that may come second after `lead`. The narrower ranges keep out overlong forms,
surrogates and code points above the last. -/
def isSecond (lead b : UInt8) : Bool :=
  if lead = 0xE0 then 0xA0 ≤ b && b ≤ 0xBF
  else if lead = 0xED then 0x80 ≤ b && b ≤ 0x9F
  else if lead = 0xF0 then 0x90 ≤ b && b ≤ 0xBF
  else if lead = 0xF4 then 0x80 ≤ b && b ≤ 0x8F
  else isContinuation b

/-- The six payload bits of a continuation byte. -/
def payload (b : UInt8) : Nat := b.toNat % 64

/-- Reads the characters of a byte string behind those of `acc`, which came in reverse order
from the first `offset` bytes. -/
def decodeFrom (offset : Nat) (acc : List Char) : Bytes → Except Fault (List Char)
  | [] => .ok acc.reverse
  | a :: rest =>
    if a ≤ 0x7F then
      decodeFrom (offset + 1) (Char.ofNat a.toNat :: acc) rest
    else if a < 0xC2 || 0xF4 < a then
      .error ⟨offset, some 1⟩
    else
      match rest with
      | [] => .error ⟨offset, none⟩
      | b :: rest =>
        if !isSecond a b then
          .error ⟨offset, some 1⟩
        else if a < 0xE0 then
          let c := Char.ofNat (a.toNat % 32 * 64 + payload b)
          decodeFrom (offset + 2) (c :: acc) rest
        else
          match rest with
          | [] => .error ⟨offset, none⟩
          | b₂ :: rest =>
            if !isContinuation b₂ then
              .error ⟨offset, some 2⟩
            else if a < 0xF0 then
              let c := Char.ofNat ((a.toNat % 16 * 64 + payload b) * 64 + payload b₂)
              decodeFrom (offset + 3) (c :: acc) rest
            else
              match rest with
              | [] => .error ⟨offset, none⟩
              | b₃ :: rest =>
                if !isContinuation b₃ then
                  .error ⟨offset, some 3⟩
                else
                  let c := Char.ofNat
                    (((a.toNat % 8 * 64 + payload b) * 64 + payload b₂) * 64 + payload b₃)
                  decodeFrom (offset + 4) (c :: acc) rest

/-- The text of a byte string. -/
def decode (bytes : Bytes) : Except Fault String :=
  (decodeFrom 0 [] bytes).map String.ofList

end Utf8

end SaveTree
