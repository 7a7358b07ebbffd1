/-
  Quoted characters and texts in messages.

  A character stands between single quotes and a text between double quotes. The quote in use
  and the backslash get a backslash; tab, line feed, carriage return and NUL have letters of
  their own; any other character that has no glyph, or that would join the character before it,
  is written by its code point in hexadecimal.
-/
import SaveTree.Text.Extending
import SaveTree.Text.Unprintable

namespace SaveTree

namespace Quoted

/-- A character by its code point. -/
def codePoint (c : Char) : String :=
  "\\u\x7b" ++ String.ofList (Nat.toDigits 16 c.toNat) ++ "\x7d"

/-- A character between two `quote` characters. -/
def escape (quote c : Char) : String :=
  if c = '\x00' then "\\0"
  else if c = '\t' then "\\t"
  else if c = '\n' then "\\n"
  else if c = '\r' then "\\r"
  else if c = '\\' || c = quote then String.ofList ['\\', c]
  else if CharSet.extending.contains c || (c ≠ ' ' && CharSet.unprintable.contains c) then
    codePoint c
  else c.toString

/-- A quoted character. -/
def char (c : Char) : String := "'" ++ escape '\'' c ++ "'"

/-- A quoted text. -/
def text (s : String) : String :=
  s.toList.foldl (fun out c => out ++ escape '"' c) "\"" ++ "\""

end Quoted

end SaveTree
