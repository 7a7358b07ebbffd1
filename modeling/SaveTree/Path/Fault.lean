/-
  Why a path text is no path.
-/
import SaveTree.Text.Quoted

namespace SaveTree

/-- Why a path text is no path. A missing character stands for the end of the text. -/
inductive PathFault where
  | strayCharacter (found : Char)
  | nameExpected (found : Option Char)
  | indexExpected (found : Option Char)
  | indexTooLarge (digits : String)
  | bracketExpected (found : Option Char)
  deriving DecidableEq

/-- The text of a fault. -/
def PathFault.message : PathFault → String
  | strayCharacter c => "found invalid character " ++ Quoted.char c
  | nameExpected (some c) => "expected field name but found " ++ Quoted.char c
  | nameExpected none => "expected field name but found end of path"
  | indexExpected (some c) => "expected index but found " ++ Quoted.char c
  | indexExpected none => "unterminated '[': expected index"
  | indexTooLarge digits => "index " ++ digits ++ " is too large"
  | bracketExpected (some c) => "expected ']' but found " ++ Quoted.char c
  | bracketExpected none => "unterminated '[': expected ']'"

end SaveTree
