/-
  The characters of a printed document.

  The printer appends to a text. `chars` says what it appends, in either layout, and knows of no
  text in front. The items of an array and the members of an object are listed alike (`listed`):
  a comma before each but the first, and before each the break of a line.
-/
import SaveTree.Json.Print

namespace SaveTree.Json

variable {α : Type}

/-! ## Parts of a document -/

/-- The break of a line before an entry `depth` containers deep. -/
def gap : Layout → Nat → List Char
  | .compact, _ => []
  | .pretty, depth => '\n' :: List.replicate (2 * depth) ' '

/-- The characters between a name and its value. -/
def colonChars : Layout → List Char
  | .compact => [':']
  | .pretty => [':', ' ']

/-- The characters of a text, quotes included. -/
def quoted (s : String) : List Char := '"' :: (s.toList.flatMap escape ++ ['"'])

/-- Entries behind one another, each with the same gap before it. -/
def listed (between : List Char) (spell : α → List Char) (first : Bool) : List α → List Char
  | [] => []
  | x :: xs => (if first then [] else [',']) ++ (between ++ (spell x ++
      listed between spell false xs))

/-- The characters of a member, given those of its value. -/
def member (layout : Layout) (spell : α → List Char) (m : String × α) : List Char :=
  quoted m.1 ++ (colonChars layout ++ spell m.2)


/-! ## Documents -/

mutual

/-- The characters of a document whose first line is `depth` containers deep. -/
def chars (layout : Layout) (depth : Nat) : Json → List Char
  | null => ['n', 'u', 'l', 'l']
  | bool true => ['t', 'r', 'u', 'e']
  | bool false => ['f', 'a', 'l', 's', 'e']
  | number n => n.text
  | string s => quoted s
  | array [] => ['[', ']']
  | array (x :: xs) =>
    '[' :: (gap layout (depth + 1) ++ (chars layout (depth + 1) x ++
      (itemChars layout (depth + 1) xs ++ (gap layout depth ++ [']']))))
  | object [] => ['\x7b', '\x7d']
  | object ((name, x) :: ms) =>
    '\x7b' :: (gap layout (depth + 1) ++ (quoted name ++ (colonChars layout ++
      (chars layout (depth + 1) x ++
        (memberChars layout (depth + 1) ms ++ (gap layout depth ++ ['\x7d']))))))

/-- The characters of the items after the first. -/
def itemChars (layout : Layout) (depth : Nat) : List Json → List Char
  | [] => []
  | x :: xs => ',' :: (gap layout depth ++ (chars layout depth x ++ itemChars layout depth xs))

/-- The characters of the members after the first. -/
def memberChars (layout : Layout) (depth : Nat) : List (String × Json) → List Char
  | [] => []
  | (name, x) :: ms =>
    ',' :: (gap layout depth ++ (quoted name ++ (colonChars layout ++
      (chars layout depth x ++ memberChars layout depth ms))))

end

theorem itemChars_eq_listed (layout : Layout) (depth : Nat) (xs : List Json) :
    itemChars layout depth xs = listed (gap layout depth) (chars layout depth) false xs := by
  induction xs with
  | nil => rfl
  | cons x xs ih =>
    rw [itemChars, listed, ih]
    rfl

theorem memberChars_eq_listed (layout : Layout) (depth : Nat) (ms : List (String × Json)) :
    memberChars layout depth ms =
      listed (gap layout depth) (member layout (chars layout depth)) false ms := by
  induction ms with
  | nil => rfl
  | cons m ms ih =>
    rw [memberChars, listed, member, ih]
    simp

/-- The gap before the bracket that closes a container; an empty one has none. -/
def closingGap (layout : Layout) (depth : Nat) : List α → List Char
  | [] => []
  | _ :: _ => gap layout depth

theorem chars_array (layout : Layout) (depth : Nat) (xs : List Json) :
    chars layout depth (array xs) =
      '[' :: (listed (gap layout (depth + 1)) (chars layout (depth + 1)) true xs ++
        (closingGap layout depth xs ++ [']'])) := by
  cases xs with
  | nil => rw [chars, listed, closingGap, List.nil_append, List.nil_append]
  | cons x xs =>
    rw [chars, itemChars_eq_listed, listed, closingGap]
    simp

theorem chars_object (layout : Layout) (depth : Nat) (ms : List (String × Json)) :
    chars layout depth (object ms) =
      '\x7b' :: (listed (gap layout (depth + 1)) (member layout (chars layout (depth + 1))) true ms
        ++ (closingGap layout depth ms ++ ['\x7d'])) := by
  cases ms with
  | nil => rw [chars, listed, closingGap, List.nil_append, List.nil_append]
  | cons m ms =>
    rw [chars, memberChars_eq_listed, listed, member, closingGap]
    simp

/-! ## The printer appends them -/

theorem toList_foldl_push (cs : List Char) (out : String) :
    (cs.foldl String.push out).toList = out.toList ++ cs := by
  induction cs generalizing out with
  | nil => simp
  | cons c cs ih =>
    rw [List.foldl_cons, ih, String.toList_push, List.append_assoc, List.singleton_append]

theorem toList_writeString (out s : String) :
    (writeString out s).toList = out.toList ++ quoted s := by
  have hescaped : ∀ (cs : List Char) (out : String),
      (cs.foldl (fun out c => (escape c).foldl String.push out) out).toList =
        out.toList ++ cs.flatMap escape := by
    intro cs
    induction cs with
    | nil => simp
    | cons c cs ih =>
      intro out
      rw [List.foldl_cons, ih, toList_foldl_push, List.flatMap_cons, List.append_assoc]
  rw [writeString, String.toList_push, hescaped, String.toList_push, quoted]
  simp

theorem toList_breakLine (layout : Layout) (depth : Nat) (out : String) :
    (breakLine layout depth out).toList = out.toList ++ gap layout depth := by
  cases layout with
  | compact => simp [breakLine, gap]
  | pretty => simp [breakLine, gap, indent]

theorem toList_colon (layout : Layout) (out : String) :
    (colon layout out).toList = out.toList ++ colonChars layout := by
  cases layout <;> simp [colon, colonChars]

mutual

theorem toList_write (layout : Layout) (depth : Nat) (out : String) : ∀ j : Json,
    (write layout depth out j).toList = out.toList ++ chars layout depth j
  | null => by simp [write, chars]
  | bool true => by simp [write, chars]
  | bool false => by simp [write, chars]
  | number n => by rw [write, chars, toList_foldl_push]
  | string s => by rw [write, chars, toList_writeString]
  | array [] => by simp [write, chars]
  | array (x :: xs) => by
    rw [write, chars, String.toList_push, toList_breakLine, toList_writeItems, toList_write,
      toList_breakLine, String.toList_push]
    simp
  | object [] => by simp [write, chars]
  | object ((name, x) :: ms) => by
    rw [write, chars, String.toList_push, toList_breakLine, toList_writeMembers, toList_write,
      toList_colon, toList_writeString, toList_breakLine, String.toList_push]
    simp

theorem toList_writeItems (layout : Layout) (depth : Nat) (out : String) : ∀ xs : List Json,
    (writeItems layout depth out xs).toList = out.toList ++ itemChars layout depth xs
  | [] => by simp [writeItems, itemChars]
  | x :: xs => by
    rw [writeItems, itemChars, toList_writeItems, toList_write, toList_breakLine,
      String.toList_push]
    simp

theorem toList_writeMembers (layout : Layout) (depth : Nat) (out : String) :
    ∀ ms : List (String × Json),
      (writeMembers layout depth out ms).toList = out.toList ++ memberChars layout depth ms
  | [] => by simp [writeMembers, memberChars]
  | (name, x) :: ms => by
    rw [writeMembers, memberChars, toList_writeMembers, toList_write, toList_colon,
      toList_writeString, toList_breakLine, String.toList_push]
    simp

end

end SaveTree.Json
