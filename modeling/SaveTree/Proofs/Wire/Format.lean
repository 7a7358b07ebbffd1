/-
  The wire form of a tree, as a grammar.

  `Value d bytes s`: the bytes are one value that denotes `s` and lies below `d` lists and
  objects. The grammar names the lead bytes one by one and allows every length a header may
  have, not only the shortest; it does not mention a reader. Numbers behind a lead byte are
  written by `bigEndian`, texts by `Utf8.encode`.
-/
import SaveTree.State.Basic
import SaveTree.Proofs.Wire.BigEndian

namespace SaveTree.Wire

/-! ## Headers -/

/-- The headers that announce one type. The `span` lead bytes from `lead` on hold the length
themselves, the `k`-th of them the length `held k`; each of `wide` is a lead byte with the width
of the length behind it. -/
structure HeaderForm where
  lead : Nat
  span : Nat
  held : Nat → Nat
  wide : List (UInt8 × Nat)

namespace HeaderForm

/-- Headers of texts. -/
def text : HeaderForm := ⟨0xA0, 32, id, [(0xD9, 1), (0xDA, 2), (0xDB, 4)]⟩

/-- Headers of lists. -/
def array : HeaderForm := ⟨0x90, 16, id, [(0xDC, 2), (0xDD, 4)]⟩

/-- Headers of objects. -/
def map : HeaderForm := ⟨0x80, 16, id, [(0xDE, 2), (0xDF, 4)]⟩

/-- Headers of extension blocks, up to the code. -/
def extension : HeaderForm := ⟨0xD4, 5, (2 ^ ·), [(0xC7, 1), (0xC8, 2), (0xC9, 4)]⟩

/-- The header announces the length. -/
inductive Announces (form : HeaderForm) : Bytes → Nat → Prop
  | held (k : Nat) (hk : k < form.span) :
      Announces form [UInt8.ofNat (form.lead + k)] (form.held k)
  | wide (lead : UInt8) (width n : Nat) (hl : (lead, width) ∈ form.wide) (hn : n < 256 ^ width) :
      Announces form (lead :: bigEndian width n) n

end HeaderForm

/-! ## Numbers and texts -/

/-- The lead bytes of unsigned integers, with their widths. -/
def unsignedLeads : List (UInt8 × Nat) := [(0xCC, 1), (0xCD, 2), (0xCE, 4), (0xCF, 8)]

/-- The lead bytes of signed integers, with their widths. -/
def signedLeads : List (UInt8 × Nat) := [(0xD0, 1), (0xD1, 2), (0xD2, 4), (0xD3, 8)]

/-- The bytes are an integer, with `width` bytes behind the lead byte. -/
inductive IntegerForm : (width : Nat) → Bytes → Int → Prop
  | positive (n : Nat) (hn : n < 0x80) : IntegerForm 0 [UInt8.ofNat n] n
  | negative (n : Nat) (hl : 0xE0 ≤ n) (hu : n < 0x100) :
      IntegerForm 0 [UInt8.ofNat n] ((n : Int) - 0x100)
  | unsigned (lead : UInt8) (width n : Nat) (hl : (lead, width) ∈ unsignedLeads)
      (hn : n < 256 ^ width) : IntegerForm width (lead :: bigEndian width n) n
  | signed (lead : UInt8) (width : Nat) (n : Int) (hl : (lead, width) ∈ signedLeads)
      (hn : FitsSigned width n) : IntegerForm width (lead :: bigEndian width (unsigned width n)) n

/-- The bytes are a float of 32 bits. -/
def FloatForm (bytes : Bytes) (x : Binary32) : Prop := bytes = 0xCA :: bigEndian 4 x.toNat

/-- The bytes are a float of 64 bits. -/
def DoubleForm (bytes : Bytes) (x : Binary64) : Prop := bytes = 0xCB :: bigEndian 8 x.toNat

/-- The bytes are a text behind its header. -/
def TextForm (bytes : Bytes) (s : String) : Prop :=
  ∃ header, HeaderForm.text.Announces header (Utf8.encode s).length ∧
    bytes = header ++ Utf8.encode s

/-! ## Composites -/

/-- The bytes are some blocks one after the other, one for each value. -/
inductive Joined {α : Type} (P : Bytes → α → Prop) : Bytes → List α → Prop
  | nil : Joined P [] []
  | cons {block rest : Bytes} {x : α} {xs : List α} (hx : P block x) (hxs : Joined P rest xs) :
      Joined P (block ++ rest) (x :: xs)

/-- The bytes are a component. -/
inductive ComponentForm : Bytes → Component → Prop
  | float {bytes : Bytes} {x : Binary32} (hx : FloatForm bytes x) : ComponentForm bytes (.float x)
  | int {width : Nat} {bytes : Bytes} {n : Int32} (hn : IntegerForm width bytes n.toInt) :
      ComponentForm bytes (.int n)

/-- The bytes are an extension block of a composite: its header, its code and its components. -/
def CompositeForm (bytes : Bytes) (c : Composite) : Prop :=
  ∃ header payload, HeaderForm.extension.Announces header payload.length ∧
    Joined ComponentForm payload c.components ∧
      bytes = header ++ UInt8.ofNat c.code :: payload

/-! ## Values -/

mutual

/-- The bytes are one value that lies below `depth` lists and objects. -/
inductive Value : (depth : Nat) → Bytes → State → Prop
  | false (depth : Nat) : Value depth [0xC2] (.bool false)
  | true (depth : Nat) : Value depth [0xC3] (.bool true)
  | long {depth : Nat} {bytes : Bytes} {n : Int64} (hn : IntegerForm 8 bytes n.toInt) :
      Value depth bytes (.long n)
  | int {depth width : Nat} {bytes : Bytes} {n : Int32} (hw : width < 8)
      (hn : IntegerForm width bytes n.toInt) : Value depth bytes (.int n)
  | float {depth : Nat} {bytes : Bytes} {x : Binary32} (hx : FloatForm bytes x) :
      Value depth bytes (.float x)
  | double {depth : Nat} {bytes : Bytes} {x : Binary64} (hx : DoubleForm bytes x) :
      Value depth bytes (.double x)
  | string {depth : Nat} {bytes : Bytes} {s : String} (hs : TextForm bytes s) :
      Value depth bytes (.string s)
  | list {depth : Nat} {header body : Bytes} {xs : List State} (hd : depth < 512)
      (hh : HeaderForm.array.Announces header xs.length) (hb : Items (depth + 1) body xs) :
      Value depth (header ++ body) (.list xs)
  | object {depth : Nat} {header body : Bytes} {ms : List (String × State)}
      (hd : depth < 512) (hh : HeaderForm.map.Announces header ms.length)
      (hb : Members (depth + 1) body ms) :
      Value depth (header ++ body)
        (.object (ms.foldl (fun fs (name, x) => Fields.set fs name x) []))
  | composite {depth : Nat} {bytes : Bytes} {c : Composite} (hc : CompositeForm bytes c) :
      Value depth bytes (.composite c)

/-- The bytes are the items of a list. -/
inductive Items : (depth : Nat) → Bytes → List State → Prop
  | nil (depth : Nat) : Items depth [] []
  | cons {depth : Nat} {block rest : Bytes} {x : State} {xs : List State}
      (hx : Value depth block x) (hxs : Items depth rest xs) :
      Items depth (block ++ rest) (x :: xs)

/-- The bytes are the names and values of an object, in the order they are written. -/
inductive Members : (depth : Nat) → Bytes → List (String × State) → Prop
  | nil (depth : Nat) : Members depth [] []
  | cons {depth : Nat} {key block rest : Bytes} {name : String} {x : State}
      {ms : List (String × State)} (hk : TextForm key name) (hx : Value depth block x)
      (hms : Members depth rest ms) :
      Members depth (key ++ block ++ rest) ((name, x) :: ms)

end

/-- A name and its value. -/
def MemberForm (depth : Nat) (bytes : Bytes) (m : String × State) : Prop :=
  ∃ key block, TextForm key m.1 ∧ Value depth block m.2 ∧ bytes = key ++ block

theorem items_iff_joined {depth : Nat} {body : Bytes} {xs : List State} :
    Items depth body xs ↔ Joined (Value depth) body xs := by
  induction xs generalizing body with
  | nil =>
    constructor
    · intro h; cases h; exact .nil
    · intro h; cases h; exact .nil depth
  | cons x xs ih =>
    constructor
    · intro h; cases h with | cons hx hxs => exact .cons hx (ih.1 hxs)
    · intro h; cases h with | cons hx hxs => exact .cons hx (ih.2 hxs)

theorem members_iff_joined {depth : Nat} {body : Bytes} {ms : List (String × State)} :
    Members depth body ms ↔ Joined (MemberForm depth) body ms := by
  induction ms generalizing body with
  | nil =>
    constructor
    · intro h; cases h; exact .nil
    · intro h; cases h; exact .nil depth
  | cons m ms ih =>
    constructor
    · intro h
      cases h with
      | cons hk hx hms => exact .cons ⟨_, _, hk, hx, rfl⟩ (ih.1 hms)
    · intro h
      cases h with
      | cons hm hms =>
        obtain ⟨key, block, hk, hx, rfl⟩ := hm
        exact .cons hk hx (ih.2 hms)

end SaveTree.Wire
