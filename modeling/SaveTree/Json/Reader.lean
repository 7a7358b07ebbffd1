/-
  Reading the parts of JSON text.

  A reader takes the text from its place on and gives what it read and the text after it. When
  it stops it keeps the text it has not used and how many bytes past that its place lies: none
  when the fault is what has been read, one when it is the byte ahead. `place` turns that into a
  line and a column, both counted in bytes.
-/
import SaveTree.Error
import SaveTree.Number.Shortest
import SaveTree.Text.Utf8

namespace SaveTree.Json

/-- Why reading stopped, the text not used, and the bytes past it that lie before the place. -/
structure Stop where
  fault : JsonFault
  rest : List Char
  ahead : Nat

/-- A reader of JSON text. -/
abbrev Reader (α : Type) := List Char → Except Stop (α × List Char)

/-- Stops with a fault in what has been read. -/
def stopAt {α : Type} (fault : JsonFault) (rest : List Char) : Except Stop α :=
  .error ⟨fault, rest, 0⟩

/-- Stops with a fault in the byte ahead. -/
def stopBefore {α : Type} (fault : JsonFault) (rest : List Char) : Except Stop α :=
  .error ⟨fault, rest, 1⟩

/-- The number of bytes of a list of characters. -/
def byteLength (cs : List Char) : Nat := cs.foldl (fun n c => n + c.utf8Size) 0

/-- The error of a stop within a text. -/
def Stop.place (text : String) (stop : Stop) : JsonError :=
  let bytes := Utf8.encode text
  let total := bytes.length
  let offset := min total (total - byteLength stop.rest + stop.ahead)
  let before := bytes.take offset
  { fault := stop.fault
    line := before.count 10 + 1
    column := (before.reverse.takeWhile (· ≠ 10)).length }

/-- The blanks of JSON. -/
def isBlank (c : Char) : Bool := c = ' ' || c = '\n' || c = '\t' || c = '\r'

/-- The text after the blanks at its start. -/
def skipBlanks (cs : List Char) : List Char := cs.dropWhile isBlank

/-- The rest of a word. -/
def readWord : List Char → List Char → Except Stop (List Char)
  | [], cs => .ok cs
  | _ :: _, [] => stopAt .endInValue []
  | w :: ws, c :: cs => if w = c then readWord ws cs else stopBefore .wordExpected (c :: cs)

/-! ## Texts -/

/-- The value of a hexadecimal digit. -/
def hexDigit? (c : Char) : Option Nat :=
  if '0' ≤ c ∧ c ≤ '9' then some (c.toNat - 48)
  else if 'a' ≤ c ∧ c ≤ 'f' then some (c.toNat - 87)
  else if 'A' ≤ c ∧ c ≤ 'F' then some (c.toNat - 55)
  else none

/-- The value of four hexadecimal digits. -/
def hex4? : List Char → Option Nat
  | [a, b, c, d] => do
    let high := (← hexDigit? a) * 16 + (← hexDigit? b)
    return (high * 16 + (← hexDigit? c)) * 16 + (← hexDigit? d)
  | _ => none

/-- Four hexadecimal digits. -/
def readHex (cs : List Char) : Except Stop (Nat × List Char) :=
  match hex4? (cs.take 4) with
  | some n => .ok (n, cs.drop 4)
  | none => if byteLength cs < 4 then stopAt .endInString [] else .error ⟨.invalidEscape, cs, 4⟩

/-- One given character, or the end of an escape that needs it. -/
def readEscapeChar (expected : Char) (cs : List Char) : Except Stop (List Char) :=
  match cs with
  | [] => stopAt .endInString []
  | c :: rest => if c = expected then .ok rest else stopBefore .endOfEscape cs

/-- The character of an escape by code unit, the `u` already read. Two units that form a
surrogate pair make one character. -/
def readUnit (cs : List Char) : Except Stop (Char × List Char) := do
  let (high, cs) ← readHex cs
  if 0xDC00 ≤ high ∧ high ≤ 0xDFFF then
    stopAt .loneSurrogate cs
  else if 0xD800 ≤ high ∧ high ≤ 0xDBFF then
    let cs ← readEscapeChar '\\' cs
    let cs ← readEscapeChar 'u' cs
    let (low, cs) ← readHex cs
    if 0xDC00 ≤ low ∧ low ≤ 0xDFFF then
      .ok (Char.ofNat (0x10000 + (high - 0xD800) * 0x400 + (low - 0xDC00)), cs)
    else
      stopAt .loneSurrogate cs
  else
    .ok (Char.ofNat high, cs)

/-- The character of an escape of one letter. -/
def letterEscape? (c : Char) : Option Char :=
  if c = '"' ∨ c = '\\' ∨ c = '/' then some c
  else if c = 'b' then some '\x08'
  else if c = 'f' then some '\x0c'
  else if c = 'n' then some '\n'
  else if c = 'r' then some '\r'
  else if c = 't' then some '\t'
  else none

theorem readHex_length {cs : List Char} {r : Nat × List Char} (h : readHex cs = .ok r) :
    r.2.length ≤ cs.length := by
  unfold readHex at h
  split at h
  · cases h
    simp
  · split at h <;> cases h

theorem readEscapeChar_length {c : Char} {cs rest : List Char}
    (h : readEscapeChar c cs = .ok rest) : rest.length ≤ cs.length := by
  unfold readEscapeChar at h
  split at h
  · cases h
  · split at h <;> cases h
    simp

theorem readUnit_length {cs rest : List Char} {c : Char} (h : readUnit cs = .ok (c, rest)) :
    rest.length ≤ cs.length := by
  unfold readUnit at h
  simp only [bind, Except.bind] at h
  split at h
  · cases h
  rename_i v hv
  have h₁ := readHex_length hv
  split at h
  · cases h
  split at h
  · split at h
    · cases h
    rename_i r₁ hr₁
    have h₂ := readEscapeChar_length hr₁
    split at h
    · cases h
    rename_i r₂ hr₂
    have h₃ := readEscapeChar_length hr₂
    split at h
    · cases h
    rename_i w hw
    have h₄ := readHex_length hw
    split at h
    · simp only [Except.ok.injEq, Prod.mk.injEq] at h
      rw [← h.2]
      omega
    · cases h
  · simp only [Except.ok.injEq, Prod.mk.injEq] at h
    rw [← h.2]
    exact h₁

/-- The characters of a text behind those of `out`, which came in reverse order, up to the
closing quote. -/
def readChars (out : List Char) (cs : List Char) : Except Stop (String × List Char) :=
  match cs with
  | [] => stopAt .endInString []
  | c :: rest =>
    if c = '"' then
      .ok (String.ofList out.reverse, rest)
    else if c = '\\' then
      match rest with
      | [] => stopAt .endInString []
      | e :: rest' =>
        if e = 'u' then
          match _h : readUnit rest' with
          | .ok (c, rest) => readChars (c :: out) rest
          | .error stop => .error stop
        else
          match letterEscape? e with
          | some c => readChars (c :: out) rest'
          | none => stopBefore .invalidEscape rest
    else if c.toNat < 0x20 then
      stopBefore .controlCharacter cs
    else
      readChars (c :: out) rest
termination_by cs.length
decreasing_by
  · have := readUnit_length _h
    simp only [List.length_cons]
    omega
  · simp only [List.length_cons]
    omega
  · simp only [List.length_cons]
    omega

/-- A text, the opening quote already read. -/
def readString : Reader String := readChars []

/-! ## Numbers -/

/-- The leading digits of a text as long as the number they form, behind `n`, is at most
`limit`: the number, how many digits went in, and the text after them. -/
def absorb (limit n count : Nat) (cs : List Char) : Nat × Nat × List Char :=
  match cs with
  | [] => (n, count, [])
  | c :: rest =>
    if c.isDigit ∧ 10 * n + (c.toNat - 48) ≤ limit then
      absorb limit (10 * n + (c.toNat - 48)) (count + 1) rest
    else
      (n, count, cs)

/-- Whether a text goes on with a digit. -/
def startsWithDigit (cs : List Char) : Bool := cs.head?.any Char.isDigit

/-- The text after the digits at its start. -/
def skipDigits (cs : List Char) : List Char := cs.dropWhile Char.isDigit

/-- The largest significand that is kept exactly. -/
def maxSignificand : Nat := 2 ^ 64 - 1

/-- The largest exponent that is read. -/
def maxExponent : Nat := 2 ^ 31 - 1

/-- The magnitude of the float nearest to a power of ten. -/
def powerOfTen (e : Nat) : Nat := BinaryFormat.double.nearest (10 ^ e) 1

/-- A magnitude scaled by a power of ten, rounded at each step; none if it is out of range. A
power beyond 10 ^ 308 is taken in steps of that size. -/
def scale (magnitude : Nat) (e : Int) : Option Nat :=
  if e.natAbs ≤ 308 then
    if 0 ≤ e then
      let r := BinaryFormat.double.times magnitude (powerOfTen e.natAbs)
      if r = BinaryFormat.double.infinity then none else some r
    else
      some (BinaryFormat.double.quotient magnitude (powerOfTen e.natAbs))
  else if magnitude = 0 then
    some 0
  else if _h : 0 ≤ e then
    none
  else
    scale (BinaryFormat.double.quotient magnitude (powerOfTen 308)) (e + 308)
termination_by e.natAbs
decreasing_by omega

/-- The float of a significand and a decimal exponent. -/
def makeFloat (negative : Bool) (significand : Nat) (e : Int) : Reader JsonNumber := fun cs =>
  match scale (BinaryFormat.double.nearest significand 1) e with
  | some magnitude => .ok (.float (Binary.ofMagnitude negative magnitude), cs)
  | none => stopAt .numberOutOfRange cs

/-- The rest of a number from its exponent part on, the letter already read. -/
def readExponent (negative : Bool) (significand : Nat) (e : Int) : Reader JsonNumber := fun cs =>
  let (down, cs) := match cs with
    | '+' :: rest => (false, rest)
    | '-' :: rest => (true, rest)
    | cs => (false, cs)
  match cs with
  | [] => stopAt .endInValue []
  | c :: _ =>
    if !c.isDigit then
      stopBefore .invalidNumber cs
    else
      let (n, _, rest) := absorb maxExponent 0 0 cs
      if !startsWithDigit rest then
        makeFloat negative significand (if down then e - n else e + n) rest
      else if significand ≠ 0 ∧ !down then
        stopAt .numberOutOfRange rest.tail
      else
        .ok (.float (Binary.ofMagnitude negative 0), skipDigits rest)

/-- The rest of a float after its digits. -/
def readExponent? (negative : Bool) (significand : Nat) (e : Int) : Reader JsonNumber := fun cs =>
  match cs with
  | 'e' :: rest => readExponent negative significand e rest
  | 'E' :: rest => readExponent negative significand e rest
  | cs => makeFloat negative significand e cs

/-- The rest of a number from its fraction on, the point already read. -/
def readFraction (negative : Bool) (significand : Nat) (e : Int) : Reader JsonNumber := fun cs =>
  let (n, count, rest) := absorb maxSignificand significand 0 cs
  if startsWithDigit rest then
    readExponent? negative n (e - count) (skipDigits rest)
  else if count = 0 then
    stopBefore (if rest.isEmpty then .endInValue else .invalidNumber) rest
  else
    readExponent? negative n (e - count) rest

/-- The number of an integer text: an integer if it has one within 64 bits, else a float. -/
def makeInteger (negative : Bool) (n : Nat) : JsonNumber :=
  if !negative then .integer n
  else if 0 < n ∧ n ≤ 2 ^ 63 then .integer (-n)
  else .float (Binary.ofMagnitude true (BinaryFormat.double.nearest n 1))

/-- A number, its minus sign already read. -/
def readNumber (negative : Bool) : Reader JsonNumber := fun cs =>
  match cs with
  | [] => stopAt .endInValue []
  | c :: after =>
    if !c.isDigit then
      stopBefore .invalidNumber cs
    else if c = '0' ∧ startsWithDigit after then
      stopBefore .invalidNumber after
    else
      let (n, _, rest) := absorb maxSignificand 0 0 cs
      let rest' := skipDigits rest
      let dropped := (rest.takeWhile Char.isDigit).length
      match rest' with
      | '.' :: rest => readFraction negative n dropped rest
      | 'e' :: rest => readExponent negative n dropped rest
      | 'E' :: rest => readExponent negative n dropped rest
      | rest' =>
        if dropped = 0 then .ok (makeInteger negative n, rest')
        else makeFloat negative n dropped rest'

/-! ## Arrays and objects -/

/-- The text of the next item, or none before the closing bracket. -/
def nextItem (first : Bool) (cs : List Char) : Except Stop (Option (List Char)) :=
  match skipBlanks cs with
  | [] => stopBefore .endInArray []
  | c :: rest =>
    if c = ']' then
      .ok none
    else if first then
      .ok (some (c :: rest))
    else if c = ',' then
      match skipBlanks rest with
      | [] => stopBefore .endInValue []
      | c :: rest =>
        if c = ']' then stopBefore .trailingComma (c :: rest) else .ok (some (c :: rest))
    else
      stopBefore .commaOrBracketExpected (c :: rest)

/-- The text of the next member after the quote of its name, or none before the closing
brace. -/
def nextMember (first : Bool) (cs : List Char) : Except Stop (Option (List Char)) :=
  match skipBlanks cs with
  | [] => stopBefore .endInObject []
  | c :: rest =>
    if c = '\x7d' then
      .ok none
    else if first then
      if c = '"' then .ok (some rest) else stopBefore .keyExpected (c :: rest)
    else if c = ',' then
      match skipBlanks rest with
      | [] => stopBefore .endInValue []
      | c :: rest =>
        if c = '"' then .ok (some rest)
        else if c = '\x7d' then stopBefore .trailingComma (c :: rest)
        else stopBefore .keyExpected (c :: rest)
    else
      stopBefore .commaOrBraceExpected (c :: rest)

/-- The text after the colon of a member. -/
def readColon (cs : List Char) : Except Stop (List Char) :=
  match skipBlanks cs with
  | [] => stopBefore .endInObject []
  | c :: rest => if c = ':' then .ok rest else stopBefore .colonExpected (c :: rest)

end SaveTree.Json
