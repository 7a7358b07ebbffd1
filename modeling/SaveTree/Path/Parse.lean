/-
  Reading path text.

  A path text is empty, or a name followed by steps, each a point and a name or an index in
  brackets. A name is one or more alphanumeric characters, underscores and hyphens; an index is
  one or more decimal digits below 2 ^ 64. A reader that stops keeps the text it has not used,
  so the position of a fault is the number of characters before that.
-/
import SaveTree.Error
import SaveTree.Number.Power
import SaveTree.Path.Basic
import SaveTree.Text.Alphanumeric

namespace SaveTree

namespace Path

/-- Whether a character may stand in a name. -/
def isNameChar (c : Char) : Bool :=
  if c.toNat < 0x80 then c.isAlphanum || c = '_' || c = '-' else CharSet.alphanumeric.contains c

/-- Why reading stopped and the text from there on. -/
structure Stop where
  fault : PathFault
  rest : List Char

/-- A name and the text after it. -/
def readName (cs : List Char) : Except Stop (String × List Char) :=
  let rest := cs.dropWhile isNameChar
  match cs.takeWhile isNameChar with
  | [] => .error ⟨.nameExpected rest.head?, rest⟩
  | name => .ok (String.ofList name, rest)

/-- An index with the bracket that closes it, and the text after it. -/
def readIndex (cs : List Char) : Except Stop (UInt64 × List Char) :=
  let rest := cs.dropWhile Char.isDigit
  match cs.takeWhile Char.isDigit with
  | [] => .error ⟨.indexExpected rest.head?, rest⟩
  | digits =>
    let n := Nat.ofDigitChars 10 digits 0
    if n < 2 ^ 64 then
      match rest with
      | ']' :: rest => .ok (UInt64.ofNat n, rest)
      | rest => .error ⟨.bracketExpected rest.head?, rest⟩
    else
      .error ⟨.indexTooLarge (String.ofList digits), cs⟩

theorem length_dropWhile_le {α : Type} (p : α → Bool) (xs : List α) :
    (xs.dropWhile p).length ≤ xs.length :=
  (List.dropWhile_sublist p).length_le

theorem readName_length {cs rest : List Char} {name : String}
    (h : readName cs = .ok (name, rest)) : rest.length ≤ cs.length := by
  unfold readName at h
  split at h <;> cases h
  exact length_dropWhile_le _ _

theorem readIndex_length {cs rest : List Char} {i : UInt64}
    (h : readIndex cs = .ok (i, rest)) : rest.length ≤ cs.length := by
  unfold readIndex at h
  split at h
  · cases h
  · have := length_dropWhile_le Char.isDigit cs
    simp only at h
    split at h
    · split at h <;> cases h
      rename_i hr
      rw [hr] at this
      simp only [List.length_cons] at this
      omega
    · cases h

/-- The path of the steps in a text, behind the path `p`. -/
def readSteps (p : Path) (cs : List Char) : Except Stop Path :=
  match cs with
  | [] => .ok p
  | c :: rest =>
    if c = '.' then
      match _h : readName rest with
      | .ok (name, rest') => readSteps (p.field name) rest'
      | .error stop => .error stop
    else if c = '[' then
      match _h : readIndex rest with
      | .ok (i, rest') => readSteps (p.index i) rest'
      | .error stop => .error stop
    else
      .error ⟨.strayCharacter c, cs⟩
termination_by cs.length
decreasing_by
  · have := readName_length _h; simp only [List.length_cons]; omega
  · have := readIndex_length _h; simp only [List.length_cons]; omega

/-- The path of a text. -/
def readAll (cs : List Char) : Except Stop Path :=
  match cs with
  | [] => .ok root
  | cs => do
    let (name, rest) ← readName cs
    readSteps (root.field name) rest

/-- The path of a text; a fault is reported at the number of characters before it. -/
def parse (s : String) : Except Error Path :=
  let cs := s.toList
  match readAll cs with
  | .ok p => .ok p
  | .error stop => .error (.pathFormat (cs.length - stop.rest.length) stop.fault)

end Path

/-- What a path can be given as: a path, or its text. -/
inductive Address where
  | path (p : Path)
  | text (s : String)

/-- The path of an address. -/
def Address.resolve : Address → Except Error Path
  | path p => .ok p
  | text s => Path.parse s

end SaveTree
