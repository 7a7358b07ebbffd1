/-
  Extension blocks of no composite, and the errors of decoding.

  `UnknownAt depth bytes place code`: behind `place` bytes a value is due, and there stands the
  complete header of an extension block whose code is of no composite. Exactly then reading the
  bytes fails with that code at that place; the payload is not looked at, so it makes no difference
  what stands behind the header, if anything does (`readValue_eq_unknown_iff`).
-/
import SaveTree.Proofs.Wire.Awaits
import SaveTree.Proofs.Wire.Offset

namespace SaveTree

namespace Wire

/-- The header of an extension block, complete with its code, which is of no composite. -/
def UnknownHeader (code : Int) (header : Bytes) : Prop :=
  ∃ size length byte, HeaderForm.extension.Announces size length ∧ header = size ++ [byte] ∧
    signed 1 byte.toNat = code ∧ Kind.ofCode? code = none

/-- Of bytes to be read as a value below `depth` lists and objects, the header of an extension block
of no composite stands behind the first `place`, where a value is due. The payload may be missing:
the value is due even if nothing stands behind the header. -/
def UnknownAt (depth : Nat) (bytes : Bytes) (place : Nat) (code : Int) : Prop :=
  ∃ before header payload below, bytes = before ++ (header ++ payload) ∧ before.length = place ∧
    UnknownHeader code header ∧ Awaits depth (before ++ header) below header

theorem unknownAt_here (depth : Nat) {header : Bytes} {code : Int} (hh : UnknownHeader code header)
    (payload : Bytes) : UnknownAt depth (header ++ payload) 0 code :=
  ⟨[], header, payload, depth, rfl, rfl, hh, .here depth header⟩

theorem UnknownAt.item {depth n place : Nat} {header body bytes : Bytes} {xs : List State}
    {code : Int} (h : UnknownAt (depth + 1) bytes place code) (hd : depth < 512)
    (hh : HeaderForm.array.Announces header n) (hb : Items (depth + 1) body xs)
    (hn : xs.length < n) :
    UnknownAt depth (header ++ body ++ bytes) ((header ++ body).length + place) code := by
  obtain ⟨before, block, payload, below, rfl, rfl, hu, ha⟩ := h
  have hitem := Awaits.item hd hh hb hn ha
  refine ⟨header ++ body ++ before, block, payload, below, ?_, List.length_append, hu, ?_⟩
  · simp only [List.append_assoc]
  · simpa only [List.append_assoc] using hitem

theorem UnknownAt.field {depth n place : Nat} {header body key bytes : Bytes}
    {ms : List (String × State)} {name : String} {code : Int}
    (h : UnknownAt (depth + 1) bytes place code) (hd : depth < 512)
    (hh : HeaderForm.map.Announces header n) (hb : Members (depth + 1) body ms)
    (hn : ms.length < n) (hk : TextForm key name) :
    UnknownAt depth (header ++ body ++ key ++ bytes) ((header ++ body ++ key).length + place)
      code := by
  obtain ⟨before, block, payload, below, rfl, rfl, hu, ha⟩ := h
  have hfield := Awaits.field hd hh hb hn hk ha
  refine ⟨header ++ body ++ key ++ before, block, payload, below, ?_, List.length_append, hu, ?_⟩
  · simp only [List.append_assoc]
  · simpa only [List.append_assoc] using hfield

/-! ## Readers of extension blocks -/

theorem Locates.ne_unknown {α : Type} {trace : Nat → Trace} {read : Nat → Reader α}
    (h : Locates DecodeAt trace read) (start : Nat) {place : Nat} {code : Int} {i : Input} :
    read start i ≠ .error (.unknownExtension place code) := by
  intro he
  obtain ⟨_, hd, -⟩ := h.failed start i _ he
  cases hd

theorem readNumber_one (start offset : Nat) (byte : UInt8) (rest : Bytes) :
    readNumber start 1 ⟨offset, byte :: rest⟩ = .ok (byte.toNat, ⟨offset + 1, rest⟩) := by
  have hbyte : byte.toNat < 256 ^ 1 ∧ [byte] = bigEndian 1 byte.toNat :=
    ⟨byte.toNat_lt, by rw [bigEndian_one, UInt8.ofNat_toNat]⟩
  exact (accepts_readNumber start 1).read_append hbyte offset rest

/-- A code of no composite is told with the start of its block, whatever stands behind it. -/
theorem readExtension_eq_unknown_iff {start place : Nat} {code : Int} {size : Count} {i : Input} :
    readExtension start size i = .error (.unknownExtension place code) ↔
      place = start ∧ ∃ tail length byte payload, size.Holds tail length ∧
        i.rest = tail ++ byte :: payload ∧ signed 1 byte.toNat = code ∧
          Kind.ofCode? code = none := by
  unfold readExtension
  refine ⟨fun h => ?_, fun h => ?_⟩
  · obtain hc | ⟨⟨n, j⟩, hc, h⟩ := bind_eq_error_iff.1 h
    · exact absurd hc ((locates_readCount size).ne_unknown start)
    obtain hb | ⟨⟨byte, k⟩, hb, h⟩ := bind_eq_error_iff.1 h
    · exact absurd hb ((locates_readNumber 1).ne_unknown start)
    obtain ⟨tail, htail, hi⟩ := (accepts_readCount start size _ n j).1 hc
    obtain ⟨_, ⟨hbyte, rfl⟩, hj⟩ := (accepts_readNumber start 1 _ byte k).1 hb
    replace h : payloadBehind start n byte k = .error (.unknownExtension place code) := h
    unfold payloadBehind at h
    cases hkind : Kind.ofCode? (signed 1 byte) with
    | some kind =>
      rw [hkind] at h
      exact absurd h ((locates_readPayload hkind n).ne_unknown start)
    | none =>
      rw [hkind] at h
      cases h
      have hbyte : (UInt8.ofNat byte).toNat = byte := Nat.mod_eq_of_lt hbyte
      refine ⟨rfl, tail, n, UInt8.ofNat byte, k.rest, htail, ?_, by rw [hbyte], hkind⟩
      rw [hi.1, hj.1, bigEndian_one]
      rfl
  · obtain ⟨rfl, tail, n, byte, payload, htail, hi, rfl, hkind⟩ := h
    obtain ⟨offset, rest⟩ := i
    obtain rfl : rest = tail ++ byte :: payload := hi
    rw [(accepts_readCount place size).read_append htail offset (byte :: payload)]
    show (readNumber place 1 ⟨offset + tail.length, byte :: payload⟩ >>=
      fun r => payloadBehind place n r.1 r.2) = _
    rw [readNumber_one]
    show payloadBehind place n byte.toNat _ = _
    unfold payloadBehind
    rw [hkind]

/-! ## Values -/

/-- Where reading the entries of a list or object fails for a code, the header is complete, and it
fails with one of the entries that the header announces. -/
theorem exists_entry_of_unknown {α : Type} {one : Reader α} {P : Bytes → α → Prop}
    (hone : Accepts one P) (make : Array α → State) {form : HeaderForm} {lead : UInt8} {c : Count}
    (hlead : form.Marks lead c) {offset place : Nat} {code : Int} {rest : Bytes}
    (h : (readCount offset c ⟨offset + 1, rest⟩ >>= fun (n, i) => readMany one #[] n i >>=
      fun (xs, i) => .ok (make xs, i)) = .error (.unknownExtension place code)) :
    ∃ n header body xs j, form.Announces header n ∧ Joined P body xs ∧ xs.length < n ∧
      Uses ⟨offset, lead :: rest⟩ (header ++ body) j ∧
        one j = .error (.unknownExtension place code) := by
  obtain hc | ⟨⟨n, j⟩, hc, h⟩ := bind_eq_error_iff.1 h
  · exact absurd hc ((locates_readCount c).ne_unknown offset)
  obtain h | ⟨_, -, h⟩ := bind_eq_error_iff.1 h
  · obtain ⟨k, hk, xs, l, hread, he⟩ := readMany_eq_error_iff.1 h
    obtain ⟨tail, htail, hj⟩ := (accepts_readCount offset c _ n j).1 hc
    obtain ⟨body, ⟨ys, hbody, rfl, -⟩, hl⟩ := (accepts_readMany hone #[] k j xs l).1 hread
    have hmarker : Uses ⟨offset, lead :: rest⟩ [lead] ⟨offset + 1, rest⟩ := ⟨rfl, rfl⟩
    have hheader : Uses ⟨offset, lead :: rest⟩ (lead :: tail) j :=
      uses_append_iff.2 ⟨_, hmarker, hj⟩
    exact ⟨n, lead :: tail, body, ys, l, announces_iff.2 ⟨lead, c, tail, hlead, htail, rfl⟩, hbody,
      hk, uses_append_iff.2 ⟨j, hheader, hl⟩, he⟩
  · cases h

/-- Where reading a field fails for a code, its name has been read. -/
theorem exists_key_of_unknown {α : Type} {value : Reader α} {place : Nat} {code : Int} {i : Input}
    (h : readField value i = .error (.unknownExtension place code)) :
    ∃ key name j, TextForm key name ∧ Uses i key j ∧
      value j = .error (.unknownExtension place code) := by
  obtain hk | ⟨⟨name, j⟩, hk, h⟩ := bind_eq_error_iff.1 h
  · exact absurd hk (locates_readKey.ne_unknown 0)
  obtain h | ⟨_, -, h⟩ := bind_eq_error_iff.1 h
  · obtain ⟨key, hkey, hj⟩ := (accepts_readKey i name j).1 hk
    exact ⟨key, name, j, hkey, hj, h⟩
  · cases h

/-- Behind a marker reading fails for a code at the marker itself, or where an entry of a list or
object is due. -/
theorem exists_unknownAt_of_readBehind (nested : Option (Reader State × Trace))
    {depth offset place : Nat} {code : Int} {lead : UInt8} {rest : Bytes}
    (hnested : ∀ value t, nested = some (value, t) →
      depth < maxNesting ∧ Accepts value (Value (depth + 1)) ∧
        ∀ j, value j = .error (.unknownExtension place code) →
          ∃ k, place = j.offset + k ∧ UnknownAt (depth + 1) j.rest k code)
    (h : readBehind (nested.map Prod.fst) offset (Marker.ofByte lead) ⟨offset + 1, rest⟩ =
      .error (.unknownExtension place code)) :
    ∃ k, place = offset + k ∧ UnknownAt depth (lead :: rest) k code := by
  cases hm : Marker.ofByte lead with
  | extension size =>
    rw [hm] at h
    obtain h | ⟨_, -, h⟩ := bind_eq_error_iff.1 h
    · obtain ⟨rfl, tail, n, byte, payload, htail, rfl, hcode, hkind⟩ :=
        readExtension_eq_unknown_iff.1 h
      have hsize : HeaderForm.extension.Announces (lead :: tail) n :=
        announces_iff.2 ⟨lead, size, tail, ofByte_eq_iff.1 hm, htail, rfl⟩
      have hu : UnknownHeader code (lead :: tail ++ [byte]) :=
        ⟨lead :: tail, n, byte, hsize, rfl, hcode, hkind⟩
      exact ⟨0, rfl, by simpa using unknownAt_here depth hu payload⟩
    · cases h
  | array c =>
    rw [hm] at h
    rcases nested with _ | ⟨value, t⟩
    · cases h
    obtain ⟨hd, hvalue, hentry⟩ := hnested value t rfl
    obtain ⟨n, header, body, xs, j, hh, hbody, hn, ⟨hbytes, hoffset⟩, he⟩ :=
      exists_entry_of_unknown hvalue (fun xs => .list xs.toList) (ofByte_eq_iff.1 hm) h
    obtain ⟨k, rfl, hu⟩ := hentry j he
    replace hbytes : lead :: rest = header ++ body ++ j.rest := hbytes
    refine ⟨(header ++ body).length + k, by rw [hoffset, Nat.add_assoc], ?_⟩
    rw [hbytes]
    exact hu.item hd hh (items_iff_joined.2 hbody) hn
  | map c =>
    rw [hm] at h
    rcases nested with _ | ⟨value, t⟩
    · cases h
    obtain ⟨hd, hvalue, hentry⟩ := hnested value t rfl
    obtain ⟨n, header, body, ms, j, hh, hbody, hn, hj, he⟩ :=
      exists_entry_of_unknown (accepts_readField hvalue)
        (fun fs => .object (Fields.ofPairs fs.toList)) (ofByte_eq_iff.1 hm) h
    obtain ⟨key, name, l, hkey, hl, he⟩ := exists_key_of_unknown he
    obtain ⟨hbytes, hoffset⟩ := uses_append_iff.2 ⟨j, hj, hl⟩
    obtain ⟨k, rfl, hu⟩ := hentry l he
    replace hbytes : lead :: rest = header ++ body ++ key ++ l.rest := hbytes
    refine ⟨(header ++ body ++ key).length + k, by rw [hoffset, Nat.add_assoc], ?_⟩
    rw [hbytes]
    exact hu.field hd hh (members_iff_joined.2 hbody) hn hkey
  | _ =>
    exact absurd h ((locates_readBehind_scalar nested (by simp [hm])).ne_unknown offset)

/-- Where reading a value fails for a code, the header with the code stands where a value is due. -/
theorem exists_unknownAt_of_readValue {levels depth place : Nat} {code : Int} {i : Input}
    (hlevels : levels = maxNesting - depth)
    (h : readValue levels i = .error (.unknownExtension place code)) :
    ∃ k, place = i.offset + k ∧ UnknownAt depth i.rest k code := by
  -- an entry lies one level deeper and behind more bytes
  induction levels generalizing depth i with
  | zero =>
    obtain ⟨offset, _ | ⟨lead, rest⟩⟩ := i
    · cases h
    · exact exists_unknownAt_of_readBehind none nofun h
  | succ levels ih =>
    obtain ⟨offset, _ | ⟨lead, rest⟩⟩ := i
    · cases h
    · refine exists_unknownAt_of_readBehind (some (readValue levels, valueTrace levels)) ?_ h
      rintro value t ⟨⟩
      have hdepth : levels + (depth + 1) = maxNesting := by omega
      exact ⟨by omega, accepts_readValue levels (depth + 1) hdepth,
        fun j hj => ih (Nat.eq_sub_of_add_eq hdepth) hj⟩

/-- Whatever stands behind the header, and however many lists and objects may be opened. -/
theorem readValue_of_unknownHeader (levels offset : Nat) {code : Int} {header : Bytes}
    (h : UnknownHeader code header) (payload : Bytes) :
    readValue levels ⟨offset, header ++ payload⟩ = .error (.unknownExtension offset code) := by
  obtain ⟨size, n, byte, hsize, rfl, hcode, hkind⟩ := h
  obtain ⟨lead, c, tail, hl, hc, rfl⟩ := announces_iff.1 hsize
  have hm : Marker.ofByte lead = .extension c := ofByte_eq_of_leads hl
  have hblock : readExtension offset c ⟨offset + 1, tail ++ [byte] ++ payload⟩ =
      .error (.unknownExtension offset code) :=
    readExtension_eq_unknown_iff.2 ⟨rfl, tail, n, byte, payload, hc, by simp, hcode, hkind⟩
  have hbehind : ∀ nested, readBehind nested offset (Marker.ofByte lead)
      ⟨offset + 1, tail ++ [byte] ++ payload⟩ = .error (.unknownExtension offset code) := by
    intro nested
    rw [hm]
    exact bind_eq_error_iff.2 (.inl hblock)
  cases levels with
  | zero => exact hbehind none
  | succ levels => exact hbehind (some (readValue levels))

/-- Reading a value fails for a code exactly where the header with the code stands where a value is
due. -/
theorem readValue_eq_unknown_iff (depth : Nat) {place : Nat} {code : Int} {i : Input} :
    readValue (maxNesting - depth) i = .error (.unknownExtension place code) ↔
      ∃ k, place = i.offset + k ∧ UnknownAt depth i.rest k code := by
  refine ⟨exists_unknownAt_of_readValue rfl, fun h => ?_⟩
  obtain ⟨k, rfl, before, header, payload, below, hbytes, rfl, hu, ha⟩ := h
  obtain ⟨offset, rest⟩ := i
  obtain rfl : rest = before ++ (header ++ payload) := hbytes
  -- the value is due without the payload, and so with it
  obtain ⟨start, hstart, hother⟩ := ha.replace
  obtain rfl : before = start := List.append_cancel_right hstart
  obtain ⟨start, hstart, herror⟩ := hands_of_awaits (hother (header ++ payload))
  obtain rfl : before = start := List.append_cancel_right hstart
  exact herror offset _ (readValue_of_unknownHeader _ _ hu payload)

end Wire

open Wire

/-! ## Decoding -/

/-- An error of decoding is one of the reader of values, or there are bytes behind the value. -/
theorem decode_eq_error_iff {bytes : Bytes} {e : Error} :
    decode bytes = .error e ↔ readValue maxNesting ⟨0, bytes⟩ = .error e ∨
      ∃ s left, readValue maxNesting ⟨0, bytes⟩ = .ok (s, left) ∧ left.rest ≠ [] ∧
        e = .decode left.offset (.trailing left.rest.length) := by
  unfold decode
  refine bind_eq_error_iff.trans (or_congr_right ⟨fun h => ?_, fun h => ?_⟩)
  · obtain ⟨⟨s, left⟩, hread, h⟩ := h
    replace h : (if left.rest.isEmpty then Except.ok s else _) = .error e := h
    split at h
    · cases h
    · next hrest =>
      cases h
      exact ⟨s, left, hread, by rwa [List.isEmpty_iff] at hrest, rfl⟩
  · obtain ⟨s, left, hread, hrest, rfl⟩ := h
    exact ⟨(s, left), hread, if_neg (by rwa [List.isEmpty_iff])⟩

/-- Offsets are absolute. Wherever the bytes of a value stand in the input and however many lists
and objects are around them, the reader does the same there with all offsets moved; it comes by
places in those bytes alone, and each of its errors is one of decoding, found at such a place. The
error for a code of no composite is that of a complete header with this code where a value is due,
whether or not a payload follows. -/
theorem offsets_absolute (depth n : Nat) (bytes : Bytes) :
    readValue (maxNesting - depth) ⟨n, bytes⟩ =
        later n (readValue (maxNesting - depth) ⟨0, bytes⟩) ∧
    (∀ p, valueTrace (maxNesting - depth) ⟨n, bytes⟩ p →
      p.LiesIn ⟨n, bytes⟩ ∧ n ≤ p.offset ∧ p.offset ≤ n + bytes.length) ∧
    (∀ s j, readValue (maxNesting - depth) ⟨n, bytes⟩ = .ok (s, j) →
      valueTrace (maxNesting - depth) ⟨n, bytes⟩ j) ∧
    (∀ e, readValue (maxNesting - depth) ⟨n, bytes⟩ = .error e →
      ∃ p, valueTrace (maxNesting - depth) ⟨n, bytes⟩ p ∧ FoundAt e p.offset ∧
        n ≤ p.offset ∧ p.offset ≤ n + bytes.length) ∧
    (∀ place code,
      readValue (maxNesting - depth) ⟨n, bytes⟩ = .error (.unknownExtension place code) ↔
        ∃ k, place = n + k ∧ UnknownAt depth bytes k code) ∧
    (∀ e, decode bytes = .error e → ∃ place ≤ bytes.length, FoundAt e place) ∧
    ∀ place code, decode bytes = .error (.unknownExtension place code) ↔
      UnknownAt 0 bytes place code := by
  have hvalue := fun levels => locates_readValue levels
  have hplace : ∀ levels n p, valueTrace levels ⟨n, bytes⟩ p →
      p.LiesIn ⟨n, bytes⟩ ∧ n ≤ p.offset ∧ p.offset ≤ n + bytes.length := by
    intro levels n p hp
    have hp := (hvalue levels).inside n ⟨n, bytes⟩ p hp
    exact ⟨hp, hp.offset_le⟩
  refine ⟨(hvalue _).later n 0 ⟨0, bytes⟩, hplace _ n, (hvalue _).ends n _, fun e he => ?_,
    fun place code => readValue_eq_unknown_iff depth, fun e he => ?_, fun place code => ?_⟩
  · obtain ⟨p, hp, hfound⟩ := exists_place_of_readValue he
    exact ⟨p, hp, hfound, (hplace _ n p hp).2⟩
  · obtain he | ⟨s, left, hread, -, rfl⟩ := decode_eq_error_iff.1 he
    · obtain ⟨p, hp, hfound⟩ := exists_place_of_readValue he
      obtain ⟨-, -, hle⟩ := hplace _ 0 p hp
      exact ⟨p.offset, by rwa [Nat.zero_add] at hle, hfound⟩
    · obtain ⟨-, -, hle⟩ := hplace _ 0 left ((hvalue _).ends 0 _ s left hread)
      exact ⟨left.offset, by rwa [Nat.zero_add] at hle, .decode _ _⟩
  · have hread : readValue maxNesting ⟨0, bytes⟩ = .error (.unknownExtension place code) ↔
        ∃ k, place = 0 + k ∧ UnknownAt 0 bytes k code := readValue_eq_unknown_iff 0
    rw [decode_eq_error_iff, hread]
    refine ⟨fun h => ?_, fun h => .inl ⟨place, (Nat.zero_add place).symm, h⟩⟩
    obtain ⟨k, rfl, hu⟩ | ⟨_, _, _, _, he⟩ := h
    · rwa [Nat.zero_add]
    · cases he

/-- A list of a truth value and of a block that has a code of no composite and no payload. -/
def strayCode : Bytes := [0x92, 0xC3, 0xD4, 0x03]

/-- A vector of integers with a truth value in its payload. -/
def strayComponent : Bytes := [0xD5, 0x04, 0x07, 0xC3]

theorem offsets_absolute_strayBytes :
    UnknownAt 0 strayCode 2 3 ∧
      readValue maxNesting ⟨7, strayCode⟩ = .error (.unknownExtension 9 3) ∧
      decode strayComponent = .error (.decode 3 .wrongMarker) ∧
      readValue maxNesting ⟨7, strayComponent⟩ = .error (.decode 10 .wrongMarker) := by
  obtain ⟨-, -, -, -, hunknown, -, hdecode⟩ := offsets_absolute 0 7 strayCode
  have hcode : UnknownAt 0 strayCode 2 3 := (hdecode 2 3).1 rfl
  have hread : readValue maxNesting ⟨0, strayComponent⟩ = .error (.decode 3 .wrongMarker) := rfl
  have hlater : readValue maxNesting ⟨7, strayComponent⟩ =
      later 7 (readValue maxNesting ⟨0, strayComponent⟩) := (offsets_absolute 0 7 strayComponent).1
  exact ⟨hcode, (hunknown 9 3).2 ⟨2, rfl, hcode⟩, rfl, by rw [hlater, hread]; rfl⟩

end SaveTree
