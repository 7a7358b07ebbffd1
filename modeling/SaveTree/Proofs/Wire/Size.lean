/-
  What is decoded is no larger than what it is decoded from.

  Each node of a tree takes at least one byte of its encoding, each name and text its own bytes and
  one more, so the bytes bound the nodes, the names and the characters together
  (`load_le_of_value`). Members whose names are repeated take bytes and leave nothing. Since each
  entry takes a byte, a header that announces more entries than there are bytes left stops the
  decoder wherever it stands (`Awaits`).
-/
import Mathlib
import SaveTree.Proofs.Wire.Denoted
import SaveTree.Proofs.Wire.Awaits

namespace SaveTree

/-! ## Sums over a tree -/

namespace State

mutual

/-- The sum of a measure over the nodes of a tree. -/
def total (measure : State → Nat) : State → Nat
  | list xs => measure (list xs) + totalItems measure xs
  | object fs => measure (object fs) + totalFields measure fs
  | s => measure s

/-- The sum of a measure over the items of a list and the nodes inside them. -/
def totalItems (measure : State → Nat) : List State → Nat
  | [] => 0
  | x :: xs => total measure x + totalItems measure xs

/-- The sum of a measure over the values of an object and the nodes inside them. -/
def totalFields (measure : State → Nat) : List (String × State) → Nat
  | [] => 0
  | (_, x) :: fs => total measure x + totalFields measure fs

end

/-- The number of nodes of a tree; a composite is one. -/
def nodes : State → Nat := total fun _ => 1

/-- The number of names in a tree. -/
def names : State → Nat := total fun s =>
  match s with
  | object fs => fs.length
  | _ => 0

/-- The number of bytes in the texts and names of a tree. -/
def textLength : State → Nat := total fun s =>
  match s with
  | string t => (Utf8.encode t).length
  | object fs => (fs.map fun f => (Utf8.encode f.1).length).sum
  | _ => 0

variable (measure : State → Nat)

theorem totalItems_eq_sum (xs : List State) :
    totalItems measure xs = (xs.map (total measure)).sum := by
  induction xs with
  | nil => rfl
  | cons x xs ih => rw [totalItems, ih, List.map_cons, List.sum_cons]

theorem totalFields_eq_sum (fs : List (String × State)) :
    totalFields measure fs = (fs.map fun f => total measure f.2).sum := by
  induction fs with
  | nil => rfl
  | cons f fs ih => rw [totalFields, ih, List.map_cons, List.sum_cons]

theorem total_list (xs : List State) :
    total measure (list xs) = measure (list xs) + (xs.map (total measure)).sum := by
  rw [total, totalItems_eq_sum]

theorem total_object (fs : List (String × State)) : total measure (object fs) =
    measure (object fs) + (fs.map fun f => total measure f.2).sum := by
  rw [total, totalFields_eq_sum]

/-- What the nodes, names and texts of a tree come to together. -/
def load (s : State) : Nat := s.nodes + s.names + s.textLength

theorem load_list (xs : List State) : (list xs).load = 1 + (xs.map load).sum := by
  have hsum : ∀ xs : List State, (xs.map load).sum =
      (xs.map nodes).sum + (xs.map names).sum + (xs.map textLength).sum := by
    intro xs
    induction xs with
    | nil => rfl
    | cons x xs ih =>
      simp only [List.map_cons, List.sum_cons, ih, load]
      omega
  rw [hsum, load, nodes, names, textLength, total_list, total_list, total_list]
  dsimp only
  omega

theorem load_object (fs : List (String × State)) : (object fs).load =
    1 + (fs.map fun f => 1 + (Utf8.encode f.1).length + f.2.load).sum := by
  have hsum : ∀ fs : List (String × State),
      (fs.map fun f => 1 + (Utf8.encode f.1).length + f.2.load).sum =
        fs.length + (fs.map fun f => (Utf8.encode f.1).length).sum +
          (fs.map fun f => f.2.nodes).sum + (fs.map fun f => f.2.names).sum +
            (fs.map fun f => f.2.textLength).sum := by
    intro fs
    induction fs with
    | nil => rfl
    | cons f fs ih =>
      rw [List.map_cons, List.sum_cons, ih, load]
      simp only [List.map_cons, List.sum_cons, List.length_cons]
      omega
  rw [hsum, load, nodes, names, textLength, total_object, total_object, total_object]
  dsimp only
  omega

end State

namespace Fields

variable {α : Type} (weight : String × α → Nat)

theorem sum_set_le (fs : Fields α) (k : String) (v : α) :
    ((fs.set k v).map weight).sum ≤ (fs.map weight).sum + weight (k, v) := by
  induction fs with
  | nil => simp [set]
  | cons f fs ih =>
    obtain ⟨n, w⟩ := f
    rw [set_cons]
    split
    · next hn =>
      subst hn
      simp only [List.map_cons, List.sum_cons]
      omega
    · simp only [List.map_cons, List.sum_cons]
      omega

theorem sum_foldl_set_le (pairs : List (String × α)) (fs : Fields α) :
    ((pairs.foldl (fun fs (k, v) => Fields.set fs k v) fs).map weight).sum ≤
      (fs.map weight).sum + (pairs.map weight).sum := by
  induction pairs generalizing fs with
  | nil => exact Nat.le_refl _
  | cons p pairs ih =>
    obtain ⟨k, v⟩ := p
    have hset := sum_set_le weight fs k v
    have hrest := ih (fs.set k v)
    rw [List.foldl_cons, List.map_cons, List.sum_cons]
    exact Nat.le_trans hrest (by omega)

/-- Fields weigh no more than the pairs they are built from. -/
theorem sum_ofPairs_le (pairs : List (String × α)) :
    ((ofPairs pairs).map weight).sum ≤ (pairs.map weight).sum := by
  have hempty := sum_foldl_set_le weight pairs []
  rw [ofPairs_eq_foldl_set]
  simpa using hempty

end Fields

namespace Wire

/-! ## The load of a value -/

theorem length_pos_of_announces {form : HeaderForm} {header : Bytes} {n : Nat}
    (h : form.Announces header n) : 0 < header.length := by
  cases h <;> exact Nat.succ_pos _

/-- Where each value weighs no more than its block, all of them weigh no more than the bytes. -/
theorem sum_le_of_joined {α : Type} {P : Bytes → α → Prop} {weight : α → Nat} {b : Bytes}
    {xs : List α} (h : Joined P b xs)
    (hweight : ∀ block x, block.length ≤ b.length → P block x → weight x ≤ block.length) :
    (xs.map weight).sum ≤ b.length := by
  induction h with
  | nil => exact Nat.le_refl _
  | @cons block rest x xs hx _ ih =>
    have hblock := hweight block x (by simp) hx
    have hrest := ih fun b y hb => hweight b y (by rw [List.length_append]; omega)
    rw [List.map_cons, List.sum_cons, List.length_append]
    omega

theorem length_of_textForm {bytes : Bytes} {s : String} (h : TextForm bytes s) :
    1 + (Utf8.encode s).length ≤ bytes.length := by
  obtain ⟨header, hheader, rfl⟩ := h
  have hpos := length_pos_of_announces hheader
  rw [List.length_append]
  omega

theorem length_pos_of_value {depth : Nat} {bytes : Bytes} {s : State}
    (h : Value depth bytes s) : 0 < bytes.length := by
  obtain ⟨lead, tail, -, rfl⟩ := behind_of_value h
  exact Nat.succ_pos _

/-- The bytes of a value bound its load: a header pays for its list or object, the header of a name
for the name, and what is kept of repeated names is part of what was read. -/
theorem load_le_of_value {depth : Nat} {bytes : Bytes} {s : State} (h : Value depth bytes s) :
    s.load ≤ bytes.length := by
  -- the blocks of entries are shorter than the bytes, as a header stands before them
  induction hn : bytes.length using Nat.strongRecOn generalizing depth bytes s with
  | ind n ih =>
  subst hn
  have hpos := length_pos_of_value h
  cases h with
  | string hs => exact length_of_textForm hs
  | @list depth header body xs hd hh hb =>
    have hheader := length_pos_of_announces hh
    rw [List.length_append] at ih ⊢
    have hweight : ∀ block x, block.length ≤ body.length → Value (depth + 1) block x →
        x.load ≤ block.length :=
      fun block x hle hx => ih block.length (by omega) hx rfl
    have hitems := sum_le_of_joined (items_iff_joined.1 hb) hweight
    rw [State.load_list]
    omega
  | @object depth header body ms hd hh hb =>
    have hheader := length_pos_of_announces hh
    rw [List.length_append] at ih ⊢
    have hweight : ∀ block m, block.length ≤ body.length → MemberForm (depth + 1) block m →
        1 + (Utf8.encode m.1).length + m.2.load ≤ block.length := by
      intro block m hle hm
      obtain ⟨key, value, hkey, hvalue, rfl⟩ := hm
      have hname := length_of_textForm hkey
      rw [List.length_append] at hle ⊢
      have hload := ih value.length (by omega) hvalue rfl
      omega
    have hmembers := sum_le_of_joined (members_iff_joined.1 hb) hweight
    have hbuilt := Fields.sum_ofPairs_le
      (fun f : String × State => 1 + (Utf8.encode f.1).length + f.2.load) ms
    rw [← Fields.ofPairs_eq_foldl_set, State.load_object]
    omega
  -- the others are one node without names and texts
  | _ => exact hpos

/-! ## Counts that are too large -/

/-- Reading fails, wherever the bytes stand in the input. -/
def Refuses {α : Type} (read : Reader α) (bytes : Bytes) : Prop :=
  ∀ offset, ∃ e, read ⟨offset, bytes⟩ = .error e

theorem Hands.refuses {α β : Type} {read : Reader α} {next : Reader β} {bytes rest : Bytes}
    (h : Hands read bytes next rest) (hrest : Refuses next rest) : Refuses read bytes := by
  intro offset
  obtain ⟨before, -, he⟩ := h
  obtain ⟨e, hnext⟩ := hrest (offset + before.length)
  exact ⟨e, he offset e hnext⟩

/-- Fewer bytes than entries are not enough. -/
theorem refuses_readMany_of_lt {α : Type} {read : Reader α} {P : Bytes → α → Prop} {rest : Bytes}
    {n : Nat} (h : Accepts read P) (hP : ∀ block x, P block x → 0 < block.length)
    (hn : rest.length < n) : Refuses (readMany read #[] n) rest := by
  intro offset
  cases hread : readMany read #[] n ⟨offset, rest⟩ with
  | error e => exact ⟨e, rfl⟩
  | ok r =>
    obtain ⟨block, ⟨xs, hjoined, rfl, -⟩, huses, -⟩ := (accepts_readMany h #[] n _ r.1 r.2).1 hread
    have hlength : (xs.map fun _ => 1).sum ≤ block.length :=
      sum_le_of_joined hjoined fun b x _ hx => hP b x hx
    rw [List.map_const', List.sum_replicate_nat, Nat.mul_one] at hlength
    have hrest := congrArg List.length huses
    rw [List.length_append] at hrest
    dsimp only at hrest
    omega

variable {levels n : Nat} {header rest : Bytes}

/-- What is refused where an entry is due is refused as a whole. -/
theorem refuses_of_awaits {depth depth' : Nat} {bytes : Bytes} (h : Awaits depth bytes depth' rest)
    (hlevels : levels + depth = maxNesting)
    (hrest : ∀ below, below + depth' = maxNesting → Refuses (readValue below) rest) :
    Refuses (readValue levels) bytes := by
  have hdepth : depth' ≤ maxNesting := h.depth_le (by omega)
  rw [Nat.eq_sub_of_add_eq hlevels]
  exact (hands_of_awaits h).refuses (hrest _ (Nat.sub_add_cancel hdepth))

/-- Where no more lists and objects may be opened their headers are refused. -/
theorem refuses_closed
    (hh : HeaderForm.array.Announces header n ∨ HeaderForm.map.Announces header n) :
    Refuses (readValue 0) (header ++ rest) := by
  intro offset
  refine ⟨.decode offset .tooDeep, ?_⟩
  rcases hh with hh | hh
  all_goals
    obtain ⟨lead, c, tail, hl, -, rfl⟩ := announces_iff.1 hh
    show readBehind none offset (Marker.ofByte lead) _ = _
  · rw [ofByte_eq_of_leads (m := .array c) hl]
    rfl
  · rw [ofByte_eq_of_leads (m := .map c) hl]
    rfl

/-- Each entry takes a byte at least. -/
theorem refuses_of_length_lt {depth : Nat} (hlevels : levels + depth = maxNesting)
    (hh : HeaderForm.array.Announces header n ∨ HeaderForm.map.Announces header n)
    (hn : rest.length < n) : Refuses (readValue levels) (header ++ rest) := by
  cases levels with
  | zero => exact refuses_closed hh
  | succ below =>
    have hvalue := accepts_readValue below (depth + 1) (by omega)
    rcases hh with hh | hh
    · refine (hands_list hh).refuses ?_
      exact refuses_readMany_of_lt hvalue (fun _ _ hx => length_pos_of_value hx) hn
    · refine (hands_object hh).refuses ?_
      refine refuses_readMany_of_lt (accepts_readField hvalue) (fun block m hm => ?_) hn
      obtain ⟨key, value, -, hx, rfl⟩ := hm
      have hpos := length_pos_of_value hx
      rw [List.length_append]
      omega

end Wire

open Wire

/-! ## Decoding -/

theorem decode_error_of_refuses {bytes : Bytes} (h : Refuses (readValue maxNesting) bytes) :
    ∃ e, decode bytes = .error e := by
  obtain ⟨e, he⟩ := h 0
  refine ⟨e, ?_⟩
  unfold decode
  rw [he]
  rfl

/-- Decoding cannot blow up: nodes, names and texts together are no more than the bytes, lists and
objects nest in the limit, and a header that announces more entries than there are bytes left is
an error wherever the decoder gets to it. -/
theorem decode_size (bytes : Bytes) :
    (∀ s, decode bytes = .ok s →
      s.nodes + s.names + s.textLength ≤ bytes.length ∧ s.nesting ≤ 512) ∧
    ∀ depth header rest n, Awaits 0 bytes depth (header ++ rest) →
      (HeaderForm.array.Announces header n ∨ HeaderForm.map.Announces header n) →
        rest.length < n → ∃ e, decode bytes = .error e := by
  refine ⟨fun s h => ?_, fun depth header rest n h hh hn => ?_⟩
  · have hvalue := value_of_decode h
    exact ⟨load_le_of_value hvalue, nesting_le_of_value hvalue⟩
  · have hrest : ∀ below, below + depth = maxNesting →
        Refuses (readValue below) (header ++ rest) :=
      fun below hbelow => refuses_of_length_lt hbelow hh hn
    exact decode_error_of_refuses (refuses_of_awaits h rfl hrest)

/-- An object with one name twice, the second time for a list of a text and a vector. -/
def repeatedName : Bytes :=
  [0x82, 0xA1, 0x61, 0x01, 0xA1, 0x61, 0x92, 0xA1, 0x62, 0xD5, 0x04, 0x07, 0xE0]

/-- An object whose second value is announced to have as many fields as a header can tell. -/
def hugeCount : Bytes :=
  [0x82, 0xA1, 0x61, 0x01, 0xA1, 0x62, 0xDF, 0xFF, 0xFF, 0xFF, 0xFF, 0xA1, 0x63]

theorem awaits_hugeCount :
    Awaits 0 hugeCount 1 ([0xDF, 0xFF, 0xFF, 0xFF, 0xFF] ++ [0xA1, 0x63]) := by
  have hmap : HeaderForm.map.Announces [0x82] 2 := .held 2 (by decide)
  have hname : TextForm [0xA1, 0x61] "a" := ⟨[0xA1], .held 1 (by decide), rfl⟩
  have hvalue : Value 1 [0x01] (.int 1) := .int (by decide) (.positive 1 (by decide))
  have hkey : TextForm [0xA1, 0x62] "b" := ⟨[0xA1], .held 1 (by decide), rfl⟩
  have hbody : Members 1 ([0xA1, 0x61] ++ [0x01] ++ []) [("a", .int 1)] :=
    .cons hname hvalue (.nil 1)
  exact .field (by decide) hmap hbody (by decide) hkey (.here 1 _)

theorem decode_size_samples :
    decode repeatedName =
        .ok (.object [("a", .list [.string "b", .composite (.vector2int 7 (-32))])]) ∧
      (State.object [("a", .list [.string "b", .composite (.vector2int 7 (-32))])]).nodes = 4 ∧
      4 + 1 + 2 ≤ repeatedName.length ∧ ∃ e, decode hugeCount = .error e := by
  have hd : decode repeatedName =
      .ok (.object [("a", .list [.string "b", .composite (.vector2int 7 (-32))])]) := by cbv
  have hheader : HeaderForm.map.Announces [0xDF, 0xFF, 0xFF, 0xFF, 0xFF] (2 ^ 32 - 1) :=
    .wide 0xDF 4 (2 ^ 32 - 1) (by decide) (by decide)
  obtain ⟨hsize, -⟩ := (decode_size repeatedName).1 _ hd
  exact ⟨hd, rfl, hsize,
    (decode_size hugeCount).2 1 _ _ _ awaits_hugeCount (.inr hheader) (by decide)⟩

end SaveTree
