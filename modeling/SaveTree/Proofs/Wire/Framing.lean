/-
  Where an encoding ends.

  `Frames read offset block x`: the reader makes `x` of the block whatever stands behind it, and
  an input that ends inside the block is a fault within that input. Readers put together from
  such readers are such readers, so a cut anywhere in an encoding is found by the reader it falls
  into: in a header, in a text, between a name and its value, in the payload of a composite.
-/
import SaveTree.Proofs.Wire.Decode

namespace SaveTree.Wire

variable {α β : Type} {start : Nat}

/-- At the offset the reader makes `x` of the block, and finds each cut inside it. -/
structure Frames (read : Reader α) (offset : Nat) (block : Bytes) (x : α) : Prop where
  /-- What stands behind the block is left as it is. -/
  whole : ∀ rest, read ⟨offset, block ++ rest⟩ = .ok (x, ⟨offset + block.length, rest⟩)
  /-- A part of the block is a fault not behind the end of the part. -/
  cut : ∀ part, part <+: block → part ≠ block → ∃ place fault,
    read ⟨offset, part⟩ = .error (.decode place fault) ∧ place ≤ offset + part.length

/-- From the offset `start` on, each successful reading is of a block that the reader frames. -/
def Framed (start : Nat) (read : Reader α) : Prop :=
  ∀ i x j, start ≤ i.offset → read i = .ok (x, j) →
    ∃ block, Uses i block j ∧ Frames read i.offset block x

theorem Framed.mono {read : Reader α} {later : Nat} (h : Framed start read)
    (hle : start ≤ later) : Framed later read :=
  fun i x j hi => h i x j (Nat.le_trans hle hi)

/-! ## Readers put together -/

theorem framed_pure (x : α) : Framed start (fun i => .ok (x, i)) := by
  intro i y j _ h
  cases h
  refine ⟨[], uses_nil_iff.2 rfl, fun rest => rfl, fun part hpart hne => ?_⟩
  exact absurd (List.prefix_nil.1 hpart) hne

theorem framed_error {read : Reader α} (h : ∀ i, ∃ e, read i = .error e) :
    Framed start read := by
  intro i x j _ hread
  obtain ⟨e, he⟩ := h i
  rw [he] at hread
  cases hread

/-- A part of two blocks is a part of the first, or the first and a part of the second. -/
theorem prefix_append_cases {part b c : Bytes} (h : part <+: b ++ c) (hne : part ≠ b ++ c) :
    (part <+: b ∧ part ≠ b) ∨ ∃ rest, part = b ++ rest ∧ rest <+: c ∧ rest ≠ c := by
  rcases List.prefix_or_prefix_of_prefix (List.prefix_append b c) h with hb | hb
  · obtain ⟨rest, rfl⟩ := hb
    exact .inr ⟨rest, rfl, (List.prefix_append_right_inj b).1 h, fun hc => hne (by rw [hc])⟩
  · by_cases heq : part = b
    · refine .inr ⟨[], by rw [heq, List.append_nil], List.nil_prefix, fun hc => hne ?_⟩
      rw [heq, ← hc, List.append_nil]
    · exact .inl ⟨hb, heq⟩

theorem Frames.bind {f : Reader α} {g : Nat → α → Reader β} {offset : Nat} {b c : Bytes} {x : α}
    {y : β} (hf : Frames f offset b x) (hg : Frames (g offset x) (offset + b.length) c y) :
    Frames (fun i => f i >>= fun (x, j) => g i.offset x j) offset (b ++ c) y := by
  refine ⟨fun rest => ?_, fun part hpart hne => ?_⟩
  · dsimp only
    rw [List.append_assoc, hf.whole (c ++ rest)]
    show g offset x _ = _
    rw [hg.whole rest, List.length_append, Nat.add_assoc]
  · dsimp only
    rcases prefix_append_cases hpart hne with ⟨hb, hnb⟩ | ⟨rest, rfl, hc, hnc⟩
    · -- the cut falls into the first block, and the second reader is not reached
      obtain ⟨place, fault, hread, hle⟩ := hf.cut part hb hnb
      rw [hread]
      exact ⟨place, fault, rfl, hle⟩
    · obtain ⟨place, fault, hread, hle⟩ := hg.cut rest hc hnc
      rw [hf.whole rest]
      refine ⟨place, fault, hread, ?_⟩
      rw [List.length_append]
      omega

/-- One reader after the other; the second may look at the offset at which the first started. -/
theorem Framed.bind {f : Reader α} {g : Nat → α → Reader β} (hf : Framed start f)
    (hg : ∀ offset x, start ≤ offset → Framed offset (g offset x)) :
    Framed start (fun i => f i >>= fun (x, j) => g i.offset x j) := by
  intro i y k hi h
  dsimp only at h
  cases hread : f i with
  | error e =>
    rw [hread] at h
    cases h
  | ok r =>
    obtain ⟨x, j⟩ := r
    rw [hread] at h
    obtain ⟨b, hb, hfb⟩ := hf i x j hi hread
    obtain ⟨c, hc, hgc⟩ := hg i.offset x hi j y k (by rw [hb.2]; omega) h
    rw [hb.2] at hgc
    exact ⟨b ++ c, uses_append_iff.2 ⟨j, hb, hc⟩, hfb.bind hgc⟩

theorem Framed.map {f : Reader α} (hf : Framed start f) (make : α → β) :
    Framed start (fun i => f i >>= fun (x, j) => .ok (make x, j)) :=
  hf.bind (g := fun _ x j => .ok (make x, j)) fun _ x _ => framed_pure (make x)

theorem framed_if {p : Prop} [Decidable p] {x : α} {e : Error} :
    Framed start (fun i => if p then .ok (x, i) else .error e) := by
  by_cases hp : p
  · simpa only [hp, if_true] using framed_pure x
  · simpa only [hp, if_false] using framed_error fun _ => ⟨e, rfl⟩

/-! ## Blocks of known length -/

theorem frames_of_length {read : Reader α} {offset n : Nat} {block : Bytes} {x : α}
    (hlength : block.length = n)
    (hwhole : ∀ rest, read ⟨offset, block ++ rest⟩ = .ok (x, ⟨offset + block.length, rest⟩))
    (hshort : ∀ part : Bytes, part.length < n → ∃ place fault,
      read ⟨offset, part⟩ = .error (.decode place fault) ∧ place ≤ offset + part.length) :
    Frames read offset block x := by
  refine ⟨hwhole, fun part hpart hne => hshort part ?_⟩
  have hle := hpart.length_le
  have hnl : part.length ≠ block.length := fun heq => hne (hpart.eq_of_length heq)
  omega

theorem take?_of_lt {i : Input} {n : Nat} (h : i.rest.length < n) : i.take? n = none := by
  unfold Input.take?
  dsimp only
  rw [if_neg]
  rw [List.length_take]
  omega

theorem take?_append {offset n : Nat} {block rest : Bytes} (h : block.length = n) :
    Input.take? ⟨offset, block ++ rest⟩ n = some (block, ⟨offset + block.length, rest⟩) :=
  take?_eq_some_iff.2 ⟨h, rfl, rfl⟩

theorem framed_readNumber (width : Nat) : Framed start (readNumber start width) := by
  intro i n j hi h
  unfold readNumber at h
  split at h
  · next bytes k hk =>
    cases h
    obtain ⟨hl, hu⟩ := take?_eq_some_iff.1 hk
    refine ⟨bytes, hu, frames_of_length hl (fun rest => ?_) fun part hpart => ?_⟩
    · unfold readNumber
      rw [take?_append hl]
    · unfold readNumber
      rw [take?_of_lt hpart]
      exact ⟨start, .noData, rfl, by omega⟩
  · cases h

theorem framed_readCount (c : Count) : Framed start (readCount start c) := by
  cases c with
  | inline n => exact framed_pure n
  | field width => exact framed_readNumber width

theorem framed_readBlock (block : Block) (n : Nat) : Framed start (readBlock block n) := by
  intro i x j _ h
  unfold readBlock at h
  split at h
  · next r hr =>
    cases h
    obtain ⟨hl, hu⟩ := take?_eq_some_iff.1 hr
    refine ⟨x, hu, frames_of_length hl (fun rest => ?_) fun part hpart => ?_⟩
    · unfold readBlock
      rw [take?_append hl]
    · unfold readBlock
      rw [take?_of_lt hpart]
      exact ⟨i.offset, _, rfl, Nat.le_add_right _ _⟩
  · cases h

theorem framed_readMarker (missing : DecodeFault) : Framed start (readMarker missing) := by
  intro i m j _ h
  unfold readMarker at h
  split at h
  · cases h
  · next b rest hr =>
    cases h
    refine ⟨[b], ⟨hr, rfl⟩, frames_of_length rfl (fun rest => rfl) fun part hpart => ?_⟩
    obtain rfl : part = [] := List.eq_nil_of_length_eq_zero (Nat.lt_one_iff.1 hpart)
    exact ⟨i.offset, missing, rfl, Nat.le_refl _⟩

/-! ## Numbers -/

theorem framed_readWhole (m : Marker) : Framed start (readWhole start m) := by
  cases m with
  | small n => exact framed_pure n
  | unsigned width => exact (framed_readNumber width).map fun n => (n : Int)
  | signed width => exact (framed_readNumber width).map (signed width)
  | _ => exact framed_error fun _ => ⟨_, rfl⟩

theorem framed_readInteger (low high : Int) (m : Marker) :
    Framed start (readInteger start low high m) :=
  (framed_readWhole m).bind
    (g := fun _ n i => if low ≤ n ∧ n ≤ high then .ok (n, i) else failAt start .outOfRange)
    fun _ _ _ => framed_if

theorem framed_readInt (m : Marker) : Framed start (readInt start m) :=
  (framed_readInteger _ _ m).map Int32.ofInt

theorem framed_readLong (m : Marker) : Framed start (readLong start m) :=
  (framed_readInteger _ _ m).map Int64.ofInt

theorem framed_readFloat (m : Marker) : Framed start (readFloat start m) := by
  cases m with
  | float => exact (framed_readNumber 4).map (Binary.ofNat .single)
  | _ => exact framed_error fun _ => ⟨_, rfl⟩

theorem framed_readDouble : Framed start (readDouble start) :=
  (framed_readNumber 8).map (Binary.ofNat .double)

/-! ## Texts -/

theorem framed_textOf (place : Nat) (bytes : Bytes) : Framed start (textOf place bytes) := by
  unfold textOf
  cases Utf8.decode bytes with
  | ok s => exact framed_pure s
  | error fault => exact framed_error fun _ => ⟨_, rfl⟩

theorem framed_readText (length : Count) : Framed start (readText start length) :=
  (framed_readCount length).bind
    (g := fun _ n i => readBlock .text n i >>= fun r => textOf start r.1 r.2)
    fun _ n _ => (framed_readBlock .text n).bind (g := fun _ bytes => textOf start bytes)
      fun _ bytes _ => framed_textOf start bytes

theorem framed_keyBehind (m : Marker) : Framed start (keyBehind start m) := by
  cases m with
  | text length => exact framed_readText length
  | _ => exact framed_error fun _ => ⟨_, rfl⟩

theorem framed_readKey : Framed start readKey :=
  (framed_readMarker .noValue).bind (g := keyBehind) fun _ m _ => framed_keyBehind m

/-! ## Many values one after the other -/

theorem framed_readMany {one : Reader α} (h : Framed start one) (out : Array α) (n : Nat) :
    Framed start (readMany one out n) := by
  induction n generalizing start out with
  | zero => exact framed_pure out
  | succ n ih =>
    have hr : readMany one out (n + 1) =
        fun i => one i >>= fun r => readMany one (out.push r.1) n r.2 := by
      funext i
      rw [readMany]
      cases one i <;> rfl
    rw [hr]
    exact h.bind (g := fun _ x => readMany one (out.push x) n)
      fun _ x hle => ih (h.mono hle) (out.push x)

/-! ## Composites -/

/-- The components stand in the payload, which has been read as a whole. -/
theorem framed_compositeOf (place : Nat) (code : Int) (kind : Kind) (i : Input) (payload : Bytes) :
    Framed start (compositeOf place code kind i payload) := by
  unfold compositeOf
  cases readComponents kind ⟨i.offset, payload⟩ with
  | error e => exact framed_error fun _ => ⟨e, rfl⟩
  | ok r =>
    obtain ⟨_ | c, left⟩ := r
    · exact framed_error fun _ => ⟨_, rfl⟩
    · exact framed_if

theorem framed_readPayload (place : Nat) (code : Int) (n : Nat) (kind : Kind) :
    Framed start (readPayload place code n kind) :=
  (framed_readBlock .extension n).bind
    (g := fun offset payload => compositeOf place code kind ⟨offset, []⟩ payload)
    fun offset payload _ => framed_compositeOf place code kind ⟨offset, []⟩ payload

theorem framed_payloadBehind (place n byte : Nat) : Framed start (payloadBehind place n byte) := by
  unfold payloadBehind
  cases Kind.ofCode? (signed 1 byte) with
  | none => exact framed_error fun _ => ⟨_, rfl⟩
  | some kind => exact framed_readPayload place (signed 1 byte) n kind

theorem framed_readExtension (size : Count) : Framed start (readExtension start size) :=
  (framed_readCount size).bind
    (g := fun _ n i => readNumber start 1 i >>= fun byte => payloadBehind start n byte.1 byte.2)
    fun _ n hle => ((framed_readNumber 1).bind (g := fun _ byte => payloadBehind start n byte)
      fun _ byte _ => framed_payloadBehind start n byte).mono hle

/-! ## Values -/

theorem framed_readField {value : Reader α} (h : Framed start value) :
    Framed start (readField value) :=
  framed_readKey.bind (g := fun _ name i => value i >>= fun (x, i) => .ok ((name, x), i))
    fun _ name hle => (h.mono hle).map fun x => (name, x)

theorem framed_list {value : Reader State} (h : Framed start value) (length : Count) :
    Framed start (fun i => readCount start length i >>= fun (n, i) => readMany value #[] n i >>=
      fun (xs, i) => .ok (State.list xs.toList, i)) :=
  (framed_readCount length).bind
    (g := fun _ n i => readMany value #[] n i >>= fun (xs, i) => .ok (State.list xs.toList, i))
    fun _ n hle => (framed_readMany (h.mono hle) #[] n).map fun xs => State.list xs.toList

theorem framed_object {value : Reader State} (h : Framed start value) (length : Count) :
    Framed start (fun i => readCount start length i >>= fun (n, i) =>
      readMany (readField value) #[] n i >>= fun (fs, i) =>
        .ok (State.object (Fields.ofPairs fs.toList), i)) :=
  (framed_readCount length).bind
    (g := fun _ n i => readMany (readField value) #[] n i >>= fun (fs, i) =>
      .ok (State.object (Fields.ofPairs fs.toList), i))
    fun _ n hle => (framed_readMany (framed_readField (h.mono hle)) #[] n).map
      fun fs => State.object (Fields.ofPairs fs.toList)

/-- A reader behind a marker frames what stands there, if the values inside lists and objects are
read by a reader that frames them. -/
theorem framed_readBehind {nested : Option (Reader State)}
    (h : ∀ value, nested = some value → Framed 0 value) (m : Marker) :
    Framed start (readBehind nested start m) := by
  cases m with
  | bool b => exact framed_pure _
  | small n => exact (framed_readInt (.small n)).map State.int
  | unsigned width | signed width =>
    by_cases hw : width = 8
    · subst hw
      exact (framed_readLong _).map State.long
    · simp only [readBehind]
      exact (framed_readInt _).map State.int
  | float => exact (framed_readFloat .float).map State.float
  | double => exact framed_readDouble.map State.double
  | text length => exact (framed_readText length).map State.string
  | array length =>
    cases nested with
    | none => exact framed_error fun _ => ⟨_, rfl⟩
    | some value => exact framed_list ((h value rfl).mono (Nat.zero_le start)) length
  | map length =>
    cases nested with
    | none => exact framed_error fun _ => ⟨_, rfl⟩
    | some value => exact framed_object ((h value rfl).mono (Nat.zero_le start)) length
  | extension size => exact (framed_readExtension size).map State.composite
  | _ => exact framed_error fun _ => ⟨_, rfl⟩

theorem framed_readValue (levels : Nat) : Framed start (readValue levels) := by
  induction levels generalizing start with
  | zero =>
    have hnested : ∀ value, (none : Option (Reader State)) = some value → Framed 0 value := nofun
    exact (framed_readMarker .noValue).bind (g := readBehind none)
      fun _ m _ => framed_readBehind hnested m
  | succ levels ih =>
    refine (framed_readMarker .noValue).bind (g := readBehind (some (readValue levels)))
      fun _ m _ => framed_readBehind (fun value hvalue => ?_) m
    cases hvalue
    exact ih

/-! ## Whole inputs -/

/-- What decodes is one block that the reader of values frames. -/
theorem frames_of_decode {bytes : Bytes} {s : State} (h : decode bytes = .ok s) :
    Frames (readValue maxNesting) 0 bytes s := by
  unfold decode at h
  cases hr : readValue maxNesting ⟨0, bytes⟩ with
  | error e =>
    rw [hr] at h
    cases h
  | ok r =>
    obtain ⟨t, left⟩ := r
    rw [hr] at h
    replace h : (if left.rest.isEmpty then Except.ok t else _) = .ok s := h
    split at h
    · next hl =>
      cases h
      obtain ⟨block, ⟨hu, -⟩, hframes⟩ := framed_readValue maxNesting ⟨0, bytes⟩ s left
        (Nat.le_refl 0) hr
      have hu : bytes = block ++ left.rest := hu
      rw [List.isEmpty_iff.1 hl, List.append_nil] at hu
      rwa [hu]
    · cases h

/-- Bytes behind an encoding are refused at the offset at which it ends. -/
theorem decode_append {bytes more : Bytes} {s : State} (h : decode bytes = .ok s)
    (hmore : more ≠ []) :
    decode (bytes ++ more) = .error (.decode bytes.length (.trailing more.length)) := by
  have hread := (frames_of_decode h).whole more
  unfold decode
  rw [hread]
  show (if more.isEmpty then Except.ok s else failAt (0 + bytes.length) _) = _
  rw [if_neg (by rwa [List.isEmpty_iff]), Nat.zero_add]
  rfl

/-- A part of an encoding is refused at an offset within the part. -/
theorem decode_part {bytes part : Bytes} {s : State} (h : decode bytes = .ok s)
    (hpart : part <+: bytes) (hne : part ≠ bytes) :
    ∃ offset fault, decode part = .error (.decode offset fault) ∧ offset ≤ part.length := by
  obtain ⟨offset, fault, hread, hle⟩ := (frames_of_decode h).cut part hpart hne
  rw [Nat.zero_add] at hle
  refine ⟨offset, fault, ?_, hle⟩
  unfold decode
  rw [hread]
  rfl

/-- Where an encoding ends is found in its bytes: cut short it is refused within what is left of
it, and with more behind it at its end. So no encoding is the beginning of another. -/
theorem decode_framing {bytes : Bytes} {s : State} (h : decode bytes = .ok s) :
    (∀ part, part <+: bytes → part ≠ bytes → ∃ offset fault,
      decode part = .error (.decode offset fault) ∧ offset ≤ part.length) ∧
    (∀ more, more ≠ [] → ∃ fault,
      decode (bytes ++ more) = .error (.decode bytes.length fault)) ∧
    ∀ other t, decode other = .ok t → bytes <+: other → other = bytes := by
  refine ⟨fun part hpart hne => decode_part h hpart hne,
    fun more hmore => ⟨_, decode_append h hmore⟩, fun other t hother hprefix => ?_⟩
  by_cases heq : bytes = other
  · exact heq.symm
  · obtain ⟨offset, fault, hcut, -⟩ := decode_part hother hprefix heq
    rw [h] at hcut
    cases hcut

/-- A list of a text and a vector of compact numbers. -/
def listBytes : Bytes := [0x92, 0xA1, 0x6E, 0xD5, 0x04, 0x07, 0xE0]

theorem decode_framing_listBytes :
    decode listBytes = .ok (.list [.string "n", .composite (.vector2int 7 (-32))]) ∧
      (∃ offset fault, decode [0x92, 0xA1, 0x6E, 0xD5, 0x04, 0x07] =
        .error (.decode offset fault) ∧ offset ≤ 6) ∧
      ∃ fault, decode (listBytes ++ [0xC3]) = .error (.decode 7 fault) := by
  have hd : decode listBytes = .ok (.list [.string "n", .composite (.vector2int 7 (-32))]) := rfl
  obtain ⟨hcut, hmore, -⟩ := decode_framing hd
  exact ⟨hd, hcut _ ⟨[0xE0], rfl⟩ (by decide), hmore [0xC3] (by decide)⟩

end SaveTree.Wire
