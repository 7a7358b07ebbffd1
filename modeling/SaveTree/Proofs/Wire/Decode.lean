/-
  Decoding accepts exactly the grammar.

  Each reader of `Wire.Read` gets the blocks it accepts, from the numbers up to the values.
  `Behind` says what stands behind a marker; with it the grammar and the reader of values take
  the same cases, and the nesting limit is the one thing that the induction carries.
-/
import SaveTree.Fields.Lemmas
import SaveTree.Proofs.Wire.Accepts

namespace SaveTree.Wire

/-! ## Numbers -/

theorem accepts_readWhole (start : Nat) (m : Marker) :
    Accepts (readWhole start m) m.HoldsInteger := by
  cases m with
  | small n => exact accepts_pure n
  | unsigned width =>
    apply ((accepts_readNumber start width).map fun n => (n : Int)).congr
    intro block n
    simp only [Marker.HoldsInteger, and_assoc]
  | signed width =>
    apply ((accepts_readNumber start width).map (signed width)).congr
    intro block n
    refine ⟨fun h => ?_, fun h => ?_⟩
    · obtain ⟨m, ⟨hm, rfl⟩, rfl⟩ := h
      exact ⟨fitsSigned_signed hm, by rw [unsigned_signed hm]⟩
    · obtain ⟨hf, rfl⟩ := h
      exact ⟨_, ⟨unsigned_lt width n, rfl⟩, (signed_unsigned hf).symm⟩
  | _ => exact accepts_error fun _ => ⟨_, rfl⟩

theorem accepts_readInteger (start : Nat) (low high : Int) (m : Marker) :
    Accepts (readInteger start low high m)
      fun b n => m.HoldsInteger b n ∧ low ≤ n ∧ n ≤ high :=
  (accepts_readWhole start m).filter (fun n => low ≤ n ∧ n ≤ high) _

theorem accepts_readInt (start : Nat) (m : Marker) :
    Accepts (readInt start m) fun b n => m.HoldsInteger b n.toInt := by
  apply ((accepts_readInteger start (-2 ^ 31) (2 ^ 31 - 1) m).map Int32.ofInt).congr
  intro block n
  refine ⟨fun h => ?_, fun hn => ?_⟩
  · obtain ⟨k, ⟨hk, hl, hu⟩, rfl⟩ := h
    rwa [Int32.toInt_ofInt_of_le hl (by omega)]
  · exact ⟨n.toInt, ⟨hn, n.le_toInt, Int.le_sub_one_of_lt n.toInt_lt⟩, n.ofInt_toInt.symm⟩

theorem accepts_readLong (start : Nat) (m : Marker) :
    Accepts (readLong start m) fun b n => m.HoldsInteger b n.toInt := by
  apply ((accepts_readInteger start (-2 ^ 63) (2 ^ 63 - 1) m).map Int64.ofInt).congr
  intro block n
  refine ⟨fun h => ?_, fun hn => ?_⟩
  · obtain ⟨k, ⟨hk, hl, hu⟩, rfl⟩ := h
    rwa [Int64.toInt_ofInt_of_le hl (by omega)]
  · exact ⟨n.toInt, ⟨hn, n.le_toInt, Int.le_sub_one_of_lt n.toInt_lt⟩, n.ofInt_toInt.symm⟩

theorem accepts_readFloat (start : Nat) (m : Marker) :
    Accepts (readFloat start m) fun b x => m = .float ∧ b = bigEndian 4 x.toNat := by
  cases m with
  | float =>
    apply ((accepts_readNumber start 4).map (Binary.ofNat .single)).congr
    intro block x
    refine ⟨fun h => ?_, fun h => ?_⟩
    · obtain ⟨n, ⟨hn, rfl⟩, rfl⟩ := h
      exact ⟨rfl, by rw [Binary.toNat_ofNat hn]⟩
    · obtain ⟨-, rfl⟩ := h
      exact ⟨x.toNat, ⟨x.toNat_lt, rfl⟩, x.ofNat_toNat.symm⟩
  | _ => exact (accepts_error fun _ => ⟨_, rfl⟩).congr fun _ _ => by simp

theorem accepts_readDouble (start : Nat) :
    Accepts (readDouble start) fun b x => b = bigEndian 8 x.toNat := by
  apply ((accepts_readNumber start 8).map (Binary.ofNat .double)).congr
  intro block x
  refine ⟨fun h => ?_, fun h => ?_⟩
  · obtain ⟨n, ⟨hn, rfl⟩, rfl⟩ := h
    rw [Binary.toNat_ofNat hn]
  · obtain rfl := h
    exact ⟨x.toNat, ⟨x.toNat_lt, rfl⟩, x.ofNat_toNat.symm⟩

/-! ## Texts -/

/-- The text whose bytes were read, or a fault at `start`. -/
def textOf (start : Nat) (bytes : Bytes) : Reader String := fun i =>
  match Utf8.decode bytes with
  | .ok s => .ok (s, i)
  | .error fault => failAt start (.notText fault)

theorem accepts_textOf (start : Nat) (bytes : Bytes) :
    Accepts (textOf start bytes) fun b s => b = [] ∧ bytes = Utf8.encode s := by
  unfold textOf
  cases hd : Utf8.decode bytes with
  | ok t =>
    obtain rfl := Utf8.decode_eq_ok_iff.1 hd
    apply (accepts_pure t).congr
    intro b s
    simp only [← Utf8.decode_eq_ok_iff, hd, Except.ok.injEq, eq_comm]
  | error fault =>
    apply (accepts_error fun _ => ⟨_, rfl⟩).congr
    intro b s
    simp [← Utf8.decode_eq_ok_iff, hd]

theorem accepts_readText (start : Nat) (length : Count) :
    Accepts (readText start length) fun b s =>
      ∃ tail, length.Holds tail (Utf8.encode s).length ∧ b = tail ++ Utf8.encode s := by
  apply ((accepts_readCount start length).bind fun _ n =>
    (accepts_readBlock .text n).bind fun _ bytes => accepts_textOf start bytes).congr
  intro block s
  refine ⟨fun h => ?_, fun h => ?_⟩
  · obtain ⟨_, tail, _, hn, ⟨bytes, b, _, ⟨rfl, rfl⟩, ⟨rfl, rfl⟩, rfl⟩, rfl⟩ := h
    rw [List.append_nil]
    exact ⟨tail, hn, rfl⟩
  · obtain ⟨tail, hn, rfl⟩ := h
    exact ⟨_, tail, _, hn, ⟨_, _, [], ⟨rfl, rfl⟩, ⟨rfl, rfl⟩, (List.append_nil _).symm⟩, rfl⟩

/-- A text is a lead byte and what `readText` reads behind it. -/
theorem textForm_iff {bytes : Bytes} {s : String} :
    TextForm bytes s ↔ ∃ lead c tail, Marker.ofByte lead = .text c ∧
      c.Holds tail (Utf8.encode s).length ∧ bytes = lead :: (tail ++ Utf8.encode s) := by
  simp only [TextForm, announces_iff, ofByte_eq_iff, Marker.Leads]
  refine ⟨fun h => ?_, fun h => ?_⟩
  · obtain ⟨_, ⟨lead, c, tail, hm, hc, rfl⟩, rfl⟩ := h
    exact ⟨lead, c, tail, hm, hc, rfl⟩
  · obtain ⟨lead, c, tail, hm, hc, rfl⟩ := h
    exact ⟨_, ⟨lead, c, tail, hm, hc, rfl⟩, rfl⟩

/-- The text behind a marker that came at `start`, where the marker is one of a text. -/
def keyBehind (start : Nat) (m : Marker) : Reader String := fun i =>
  match m with
  | .text length => readText start length i
  | m => failAt start (.keyNotText m)

theorem accepts_keyBehind (start : Nat) (m : Marker) :
    Accepts (keyBehind start m) fun b s => ∃ c tail, m = .text c ∧
      c.Holds tail (Utf8.encode s).length ∧ b = tail ++ Utf8.encode s := by
  cases m with
  | text c =>
    apply (accepts_readText start c).congr
    intro b s
    simp
  | _ => exact (accepts_error fun _ => ⟨_, rfl⟩).congr fun _ _ => by simp

theorem accepts_readKey : Accepts readKey TextForm := by
  apply (accepts_marked .noValue fun i m => accepts_keyBehind i.offset m).congr
  intro block s
  rw [textForm_iff]
  refine ⟨fun h => ?_, fun h => ?_⟩
  · obtain ⟨lead, _, ⟨c, tail, hm, hc, rfl⟩, rfl⟩ := h
    exact ⟨lead, c, tail, hm, hc, rfl⟩
  · obtain ⟨lead, c, tail, hm, hc, rfl⟩ := h
    exact ⟨lead, _, ⟨c, tail, hm, hc, rfl⟩, rfl⟩

/-! ## Many values one after the other -/

theorem accepts_readMany {α : Type} {one : Reader α} {P : Bytes → α → Prop}
    (h : Accepts one P) (out : Array α) (n : Nat) :
    Accepts (readMany one out n)
      fun b ys => ∃ xs, Joined P b xs ∧ xs.length = n ∧ ys = out ++ xs.toArray := by
  induction n generalizing out with
  | zero =>
    apply (accepts_pure out).congr
    intro block ys
    refine ⟨fun hy => ?_, fun hy => ?_⟩
    · obtain ⟨rfl, rfl⟩ := hy
      exact ⟨[], .nil, rfl, by simp⟩
    · obtain ⟨xs, hx, hl, rfl⟩ := hy
      obtain rfl := List.eq_nil_of_length_eq_zero hl
      cases hx
      exact ⟨rfl, by simp⟩
  | succ n ih =>
    have hr : readMany one out (n + 1) =
        fun i => one i >>= fun r => readMany one (out.push r.1) n r.2 := by
      funext i
      rw [readMany]
      cases one i <;> rfl
    rw [hr]
    apply (h.bind fun _ x => ih (out.push x)).congr
    intro block ys
    refine ⟨fun hy => ?_, fun hy => ?_⟩
    · obtain ⟨x, b, c, hb, ⟨xs, hx, hl, rfl⟩, rfl⟩ := hy
      exact ⟨x :: xs, .cons hb hx, by simp [hl], by simp⟩
    · obtain ⟨xs, hx, hl, rfl⟩ := hy
      cases hx with
      | nil => cases hl
      | cons hb hx => exact ⟨_, _, _, hb, ⟨_, hx, Nat.succ.inj hl, by simp⟩, rfl⟩

/-! ## Composites -/

/-- A component as the blocks of a kind hold it. -/
def ComponentOf (kind : Kind) (bytes : Bytes) (c : Component) : Prop :=
  match kind, c with
  | .vector2int, .int n | .vector3int, .int n => ∃ width, IntegerForm width bytes n.toInt
  | .vector2int, .float _ | .vector3int, .float _ => False
  | _, .float x => FloatForm bytes x
  | _, .int _ => False

theorem accepts_floatComponent :
    Accepts (fun i => readMarker .noMarker i >>= fun (m, j) =>
        readFloat i.offset m j >>= fun (x, j) => .ok (Component.float x, j))
      fun b c => ∃ x, c = .float x ∧ FloatForm b x := by
  apply (accepts_marked .noMarker fun i m =>
    (accepts_readFloat i.offset m).map Component.float).congr
  intro block c
  simp only [FloatForm, ofByte_eq_iff, Marker.Leads]
  refine ⟨fun h => ?_, fun h => ?_⟩
  · obtain ⟨_, _, ⟨x, ⟨rfl, rfl⟩, rfl⟩, rfl⟩ := h
    exact ⟨x, rfl, rfl⟩
  · obtain ⟨x, rfl, rfl⟩ := h
    exact ⟨_, _, ⟨x, ⟨rfl, rfl⟩, rfl⟩, rfl⟩

theorem accepts_intComponent :
    Accepts (fun i => readMarker .noMarker i >>= fun (m, j) =>
        readInt i.offset m j >>= fun (n, j) => .ok (Component.int n, j))
      fun b c => ∃ n, c = .int n ∧ ∃ width, IntegerForm width b n.toInt := by
  apply (accepts_marked .noMarker fun i m =>
    (accepts_readInt i.offset m).map Component.int).congr
  intro block c
  simp only [integerForm_iff]
  refine ⟨fun h => ?_, fun h => ?_⟩
  · obtain ⟨lead, tail, ⟨n, hn, rfl⟩, rfl⟩ := h
    exact ⟨n, rfl, _, lead, tail, hn, rfl, rfl⟩
  · obtain ⟨n, rfl, _, lead, tail, hn, -, rfl⟩ := h
    exact ⟨lead, tail, ⟨n, hn, rfl⟩, rfl⟩

theorem accepts_readComponent (kind : Kind) :
    Accepts (readComponent kind) (ComponentOf kind) := by
  cases kind with
  | vector2int | vector3int =>
    apply accepts_intComponent.congr
    intro block c
    cases c <;> simp [ComponentOf]
  | _ =>
    apply accepts_floatComponent.congr
    intro block c
    cases c <;> simp [ComponentOf]

theorem componentOf_kind_iff {c : Composite} {x : Component} (hx : x ∈ c.components)
    (b : Bytes) : ComponentOf c.kind b x ↔ ComponentForm b x := by
  have hf : ∀ y, ComponentForm b (.float y) ↔ FloatForm b y :=
    fun y => ⟨fun h => by cases h; assumption, .float⟩
  have hi : ∀ n, ComponentForm b (.int n) ↔ ∃ width, IntegerForm width b n.toInt :=
    fun n => ⟨fun h => by cases h; exact ⟨_, by assumption⟩, fun ⟨_, h⟩ => .int h⟩
  cases c <;> simp only [Composite.components, List.mem_cons, List.not_mem_nil, or_false] at hx
  · rcases hx with rfl | rfl <;> exact (hf _).symm
  · rcases hx with rfl | rfl | rfl <;> exact (hf _).symm
  · rcases hx with rfl | rfl <;> exact (hi _).symm
  · rcases hx with rfl | rfl | rfl <;> exact (hi _).symm
  · rcases hx with rfl | rfl | rfl | rfl <;> exact (hf _).symm

theorem joined_congr {α : Type} {P Q : Bytes → α → Prop} {b : Bytes} {xs : List α}
    (h : ∀ x ∈ xs, ∀ b, P b x ↔ Q b x) : Joined P b xs ↔ Joined Q b xs := by
  induction xs generalizing b with
  | nil => constructor <;> (intro h; cases h; exact .nil)
  | cons x xs ih =>
    have hx := h x List.mem_cons_self
    have ih := fun b => ih (b := b) fun y hy => h y (List.mem_cons_of_mem x hy)
    constructor
    · intro hj
      cases hj with
      | cons hb hr => exact .cons ((hx _).1 hb) ((ih _).1 hr)
    · intro hj
      cases hj with
      | cons hb hr => exact .cons ((hx _).2 hb) ((ih _).2 hr)

theorem accepts_readComponents (kind : Kind) :
    Accepts (readComponents kind) fun b r => ∃ cs, Joined (ComponentOf kind) b cs ∧
      cs.length = kind.arity ∧ r = Composite.ofComponents? kind cs := by
  apply ((accepts_readMany (accepts_readComponent kind) #[] kind.arity).map
    fun cs => Composite.ofComponents? kind cs.toList).congr
  intro block r
  refine ⟨fun h => ?_, fun h => ?_⟩
  · obtain ⟨_, ⟨cs, hj, hl, rfl⟩, rfl⟩ := h
    exact ⟨cs, hj, hl, by simp⟩
  · obtain ⟨cs, hj, hl, rfl⟩ := h
    exact ⟨_, ⟨cs, hj, hl, rfl⟩, by simp⟩

/-- The components of a payload make the composite that has them. -/
theorem joined_componentOf_iff {kind : Kind} {b : Bytes} {c : Composite} :
    (∃ cs, Joined (ComponentOf kind) b cs ∧ cs.length = kind.arity ∧
        some c = Composite.ofComponents? kind cs) ↔
      c.kind = kind ∧ Joined ComponentForm b c.components := by
  refine ⟨fun h => ?_, fun h => ?_⟩
  · obtain ⟨cs, hj, -, hc⟩ := h
    obtain ⟨rfl, rfl⟩ := Composite.ofComponents?_eq_some_iff.1 hc.symm
    exact ⟨rfl, (joined_congr fun x hx b => componentOf_kind_iff hx b).1 hj⟩
  · obtain ⟨rfl, hj⟩ := h
    refine ⟨c.components, (joined_congr fun x hx b => componentOf_kind_iff hx b).2 hj,
      c.length_components, ?_⟩
    exact (Composite.ofComponents?_eq_some_iff.2 ⟨rfl, rfl⟩).symm

/-- The composite of a kind that a payload holds from its first byte to its last, which came
behind `i`; `start` and `code` are those of its block. -/
def compositeOf (start : Nat) (code : Int) (kind : Kind) (i : Input) (payload : Bytes) :
    Reader Composite := fun after => do
  let (c, left) ← readComponents kind ⟨i.offset, payload⟩
  match c with
  | none => .error (.unknownExtension start code)
  | some c =>
    if left.rest.isEmpty then .ok (c, after)
    else failAt left.offset (.unread left.rest.length kind)

theorem accepts_compositeOf (start : Nat) (code : Int) (kind : Kind) (i : Input)
    (payload : Bytes) : Accepts (compositeOf start code kind i payload) fun b c =>
      b = [] ∧ c.kind = kind ∧ Joined ComponentForm payload c.components := by
  intro after c k
  have hr := accepts_readComponents kind ⟨i.offset, payload⟩
  unfold compositeOf
  refine ⟨fun h => ?_, fun hx => ?_⟩
  · cases hc : readComponents kind ⟨i.offset, payload⟩ with
    | error e => rw [hc] at h; cases h
    | ok r =>
      obtain ⟨_ | d, left⟩ := r
      · rw [hc] at h; cases h
      rw [hc] at h
      obtain ⟨b, hb, hu⟩ := (hr _ _).1 hc
      replace h : (if left.rest.isEmpty then Except.ok (d, after) else _) = .ok (c, k) := h
      split at h
      · next hl =>
        cases h
        have hp : payload = b ++ left.rest := hu.1
        rw [List.isEmpty_iff.1 hl, List.append_nil] at hp
        subst hp
        exact ⟨[], ⟨rfl, joined_componentOf_iff.1 hb⟩, uses_nil_iff.2 rfl⟩
      · cases h
  · obtain ⟨_, ⟨rfl, hc⟩, hu⟩ := hx
    have hk : readComponents kind ⟨i.offset, payload⟩ =
        .ok (some c, ⟨i.offset + payload.length, []⟩) :=
      (hr _ _).2 ⟨payload, joined_componentOf_iff.2 hc, (List.append_nil _).symm, rfl⟩
    rw [hk, uses_nil_iff.1 hu]
    rfl

/-- The payload of an extension block is used up by its components. -/
theorem accepts_readPayload (start : Nat) (code : Int) (n : Nat) (kind : Kind) :
    Accepts (readPayload start code n kind) fun b c =>
      b.length = n ∧ c.kind = kind ∧ Joined ComponentForm b c.components := by
  apply ((accepts_readBlock .extension n).bind fun i payload =>
    accepts_compositeOf start code kind i payload).congr
  intro block c
  refine ⟨fun hx => ?_, fun hx => ?_⟩
  · obtain ⟨payload, b, _, ⟨rfl, rfl⟩, ⟨rfl, hc⟩, rfl⟩ := hx
    rw [List.append_nil]
    exact ⟨rfl, hc⟩
  · obtain ⟨rfl, hc⟩ := hx
    exact ⟨block, block, [], ⟨rfl, rfl⟩, ⟨rfl, hc⟩, (List.append_nil _).symm⟩

theorem code_lt (c : Composite) : c.code < 128 := by
  cases c <;> simp [Composite.code]

/-- The code byte of a composite is its code, read in two's complement too. -/
theorem ofCode?_signed_iff {byte : Nat} (hb : byte < 256) (c : Composite) :
    Kind.ofCode? (signed 1 byte) = some c.kind ↔ byte = c.code := by
  have hc := code_lt c
  rw [Kind.ofCode?_eq_some_iff]
  refine ⟨fun h => ?_, fun h => ?_⟩
  · obtain ⟨n, hn, hs⟩ := h
    rw [c.code?_kind, Option.some.injEq] at hn
    unfold signed at hs
    split at hs <;> omega
  · obtain rfl := h
    refine ⟨c.code, c.code?_kind, ?_⟩
    unfold signed
    rw [if_pos (by omega)]

theorem bigEndian_one (n : Nat) : bigEndian 1 n = [UInt8.ofNat n] := by
  simp [bigEndian]

/-- The composite behind a code byte. -/
def payloadBehind (start n byte : Nat) : Reader Composite := fun i =>
  match Kind.ofCode? (signed 1 byte) with
  | none => .error (.unknownExtension start (signed 1 byte))
  | some kind => readPayload start (signed 1 byte) n kind i

theorem accepts_payloadBehind (start n byte : Nat) :
    Accepts (payloadBehind start n byte) fun b c => Kind.ofCode? (signed 1 byte) = some c.kind ∧
      b.length = n ∧ Joined ComponentForm b c.components := by
  unfold payloadBehind
  cases hc : Kind.ofCode? (signed 1 byte) with
  | none => exact (accepts_error fun _ => ⟨_, rfl⟩).congr fun _ _ => by simp
  | some kind =>
    apply (accepts_readPayload start (signed 1 byte) n kind).congr
    intro b c
    rw [Option.some.injEq, eq_comm (a := kind)]
    exact and_left_comm

/-- What `readExtension` reads behind a marker. -/
theorem accepts_readExtension (start : Nat) (size : Count) :
    Accepts (readExtension start size) fun b c => ∃ tail payload, size.Holds tail payload.length ∧
      Joined ComponentForm payload c.components ∧ b = tail ++ UInt8.ofNat c.code :: payload := by
  apply ((accepts_readCount start size).bind fun _ n => (accepts_readNumber start 1).bind
    fun _ byte => accepts_payloadBehind start n byte).congr
  intro block c
  refine ⟨fun h => ?_, fun h => ?_⟩
  · obtain ⟨n, tail, _, hn, ⟨byte, _, payload, ⟨hb, rfl⟩, ⟨hc, rfl, hj⟩, rfl⟩, rfl⟩ := h
    obtain rfl := (ofCode?_signed_iff hb c).1 hc
    exact ⟨tail, payload, hn, hj, by rw [bigEndian_one]; rfl⟩
  · obtain ⟨tail, payload, hn, hj, rfl⟩ := h
    have hb : c.code < 256 := Nat.lt_trans (code_lt c) (by decide)
    exact ⟨_, tail, _, hn, ⟨c.code, _, payload, ⟨hb, rfl⟩,
      ⟨(ofCode?_signed_iff hb c).2 rfl, rfl, hj⟩, by rw [bigEndian_one]; rfl⟩, rfl⟩

/-- A composite is a lead byte and what `readExtension` reads behind it. -/
theorem compositeForm_iff {bytes : Bytes} {c : Composite} :
    CompositeForm bytes c ↔ ∃ lead size tail payload, Marker.ofByte lead = .extension size ∧
      size.Holds tail payload.length ∧ Joined ComponentForm payload c.components ∧
        bytes = lead :: (tail ++ UInt8.ofNat c.code :: payload) := by
  simp only [CompositeForm, announces_iff, ofByte_eq_iff, Marker.Leads]
  refine ⟨fun h => ?_, fun h => ?_⟩
  · obtain ⟨_, payload, ⟨lead, size, tail, hm, hc, rfl⟩, hj, rfl⟩ := h
    exact ⟨lead, size, tail, payload, hm, hc, hj, rfl⟩
  · obtain ⟨lead, size, tail, payload, hm, hc, hj, rfl⟩ := h
    exact ⟨_, payload, ⟨lead, size, tail, hm, hc, rfl⟩, hj, rfl⟩

/-! ## Values -/

theorem accepts_readField {read : Reader State} {depth : Nat}
    (h : Accepts read (Value depth)) : Accepts (readField read) (MemberForm depth) := by
  apply (accepts_readKey.bind fun _ name => h.map fun x => (name, x)).congr
  intro block ⟨name, x⟩
  refine ⟨fun hy => ?_, fun hy => ?_⟩
  · obtain ⟨_, key, _, hk, ⟨_, hx, hm⟩, rfl⟩ := hy
    cases hm
    exact ⟨key, _, hk, hx, rfl⟩
  · obtain ⟨key, b, hk, hx, rfl⟩ := hy
    exact ⟨_, key, b, hk, ⟨_, hx, rfl⟩, rfl⟩

/-- What stands behind the marker of a value. -/
def Behind (depth : Nat) : Marker → Bytes → State → Prop
  | .bool v, b, s => b = [] ∧ s = .bool v
  | .float, b, s => ∃ x, b = bigEndian 4 x.toNat ∧ s = .float x
  | .double, b, s => ∃ x, b = bigEndian 8 x.toNat ∧ s = .double x
  | .text c, b, s =>
    ∃ t tail, c.Holds tail (Utf8.encode t).length ∧ b = tail ++ Utf8.encode t ∧ s = .string t
  | .array c, b, s => ∃ tail body xs, depth < maxNesting ∧ c.Holds tail xs.length ∧
      Joined (Value (depth + 1)) body xs ∧ b = tail ++ body ∧ s = .list xs
  | .map c, b, s => ∃ tail body ms, depth < maxNesting ∧ c.Holds tail ms.length ∧
      Joined (MemberForm (depth + 1)) body ms ∧ b = tail ++ body ∧
        s = .object (ms.foldl (fun fs (name, x) => Fields.set fs name x) [])
  | .extension size, b, s => ∃ c tail payload, size.Holds tail payload.length ∧
      Joined ComponentForm payload c.components ∧ b = tail ++ UInt8.ofNat c.code :: payload ∧
        s = .composite c
  | m, b, s => (m.width = 8 ∧ ∃ n : Int64, m.HoldsInteger b n.toInt ∧ s = .long n) ∨
      (m.width ≠ 8 ∧ ∃ n : Int32, m.HoldsInteger b n.toInt ∧ s = .int n)

theorem integerForm_width_le {width : Nat} {bytes : Bytes} {n : Int}
    (h : IntegerForm width bytes n) : width ≤ 8 := by
  have hw : ∀ p ∈ unsignedLeads ++ signedLeads, p.2 ≤ 8 := by decide
  cases h with
  | positive => exact Nat.zero_le 8
  | negative => exact Nat.zero_le 8
  | unsigned lead width n hl => exact hw (lead, width) (List.mem_append_left _ hl)
  | signed lead width n hl => exact hw (lead, width) (List.mem_append_right _ hl)

/-- An integer stands behind its marker as a long one or as one of 32 bits. -/
theorem behind_integer {depth : Nat} {m : Marker} {b : Bytes} {s : State} {n : Int}
    (hn : m.HoldsInteger b n) : Behind depth m b s ↔
      (m.width = 8 ∧ ∃ n : Int64, m.HoldsInteger b n.toInt ∧ s = .long n) ∨
        (m.width ≠ 8 ∧ ∃ n : Int32, m.HoldsInteger b n.toInt ∧ s = .int n) := by
  cases m with
  | small | unsigned | signed => exact Iff.rfl
  | _ => exact hn.elim

theorem behind_of_value {depth : Nat} {bytes : Bytes} {s : State} (h : Value depth bytes s) :
    ∃ lead tail, Behind depth (Marker.ofByte lead) tail s ∧ bytes = lead :: tail := by
  cases h with
  | false => exact ⟨0xC2, [], ⟨rfl, rfl⟩, rfl⟩
  | true => exact ⟨0xC3, [], ⟨rfl, rfl⟩, rfl⟩
  | long hn =>
    obtain ⟨lead, tail, hi, hw, rfl⟩ := integerForm_iff.1 hn
    exact ⟨lead, tail, (behind_integer hi).2 (Or.inl ⟨hw, _, hi, rfl⟩), rfl⟩
  | int hw hn =>
    obtain ⟨lead, tail, hi, rfl, rfl⟩ := integerForm_iff.1 hn
    exact ⟨lead, tail, (behind_integer hi).2 (Or.inr ⟨Nat.ne_of_lt hw, _, hi, rfl⟩), rfl⟩
  | float hx => exact ⟨0xCA, _, ⟨_, rfl, rfl⟩, hx⟩
  | double hx => exact ⟨0xCB, _, ⟨_, rfl, rfl⟩, hx⟩
  | string hs =>
    obtain ⟨lead, c, tail, hm, hc, rfl⟩ := textForm_iff.1 hs
    exact ⟨lead, _, by rw [hm]; exact ⟨_, tail, hc, rfl, rfl⟩, rfl⟩
  | list hd hh hb =>
    obtain ⟨lead, c, tail, hl, hc, rfl⟩ := announces_iff.1 hh
    have hm : Marker.ofByte lead = .array c := ofByte_eq_of_leads hl
    exact ⟨lead, _, by rw [hm]; exact ⟨tail, _, _, hd, hc, items_iff_joined.1 hb, rfl, rfl⟩, rfl⟩
  | object hd hh hb =>
    obtain ⟨lead, c, tail, hl, hc, rfl⟩ := announces_iff.1 hh
    have hm : Marker.ofByte lead = .map c := ofByte_eq_of_leads hl
    exact ⟨lead, _, by rw [hm]; exact ⟨tail, _, _, hd, hc, members_iff_joined.1 hb, rfl, rfl⟩, rfl⟩
  | composite hc =>
    obtain ⟨lead, size, tail, payload, hm, hs, hj, rfl⟩ := compositeForm_iff.1 hc
    exact ⟨lead, _, by rw [hm]; exact ⟨_, tail, payload, hs, hj, rfl, rfl⟩, rfl⟩

theorem value_of_integer {depth : Nat} {lead : UInt8} {tail : Bytes} {s : State}
    (h : ((Marker.ofByte lead).width = 8 ∧
        ∃ n : Int64, (Marker.ofByte lead).HoldsInteger tail n.toInt ∧ s = .long n) ∨
      ((Marker.ofByte lead).width ≠ 8 ∧
        ∃ n : Int32, (Marker.ofByte lead).HoldsInteger tail n.toInt ∧ s = .int n)) :
    Value depth (lead :: tail) s := by
  rcases h with ⟨hw, n, hn, rfl⟩ | ⟨hw, n, hn, rfl⟩
  · exact .long (integerForm_iff.2 ⟨lead, tail, hn, hw, rfl⟩)
  · have hf := integerForm_iff.2 ⟨lead, tail, hn, rfl, rfl⟩
    exact .int (Nat.lt_of_le_of_ne (integerForm_width_le hf) hw) hf

theorem value_of_behind {depth : Nat} {lead : UInt8} {tail : Bytes} {s : State}
    (h : Behind depth (Marker.ofByte lead) tail s) : Value depth (lead :: tail) s := by
  have hl := leads_ofByte lead
  cases hm : Marker.ofByte lead with
  | bool v =>
    rw [hm] at h hl
    obtain ⟨rfl, rfl⟩ := h
    cases v <;> cases hl
    · exact .false depth
    · exact .true depth
  | float =>
    rw [hm] at h hl
    obtain ⟨x, rfl, rfl⟩ := h
    cases hl
    exact .float rfl
  | double =>
    rw [hm] at h hl
    obtain ⟨x, rfl, rfl⟩ := h
    cases hl
    exact .double rfl
  | text c =>
    rw [hm] at h
    obtain ⟨t, len, hc, rfl, rfl⟩ := h
    exact .string (textForm_iff.2 ⟨lead, c, len, hm, hc, rfl⟩)
  | array c =>
    rw [hm] at h hl
    obtain ⟨len, body, xs, hd, hc, hj, rfl, rfl⟩ := h
    exact .list hd (announces_iff.2 ⟨lead, c, len, hl, hc, rfl⟩) (items_iff_joined.2 hj)
  | map c =>
    rw [hm] at h hl
    obtain ⟨len, body, ms, hd, hc, hj, rfl, rfl⟩ := h
    exact .object hd (announces_iff.2 ⟨lead, c, len, hl, hc, rfl⟩) (members_iff_joined.2 hj)
  | extension size =>
    rw [hm] at h
    obtain ⟨c, len, payload, hs, hj, rfl, rfl⟩ := h
    exact .composite (compositeForm_iff.2 ⟨lead, size, len, payload, hm, hs, hj, rfl⟩)
  | _ =>
    -- integers, and the markers behind which no integer stands either
    rw [hm] at h
    exact value_of_integer (by rw [hm]; exact h)

/-- A value is a lead byte and what stands behind its marker. -/
theorem value_iff_behind {depth : Nat} {bytes : Bytes} {s : State} :
    Value depth bytes s ↔
      ∃ lead tail, Behind depth (Marker.ofByte lead) tail s ∧ bytes = lead :: tail := by
  constructor
  · exact behind_of_value
  · rintro ⟨lead, tail, h, rfl⟩
    exact value_of_behind h

theorem accepts_list {value : Reader State} {depth : Nat} (hd : depth < maxNesting)
    (hv : Accepts value (Value (depth + 1))) (start : Nat) (c : Count) :
    Accepts (fun i => readCount start c i >>= fun (n, i) => readMany value #[] n i >>=
      fun (xs, i) => .ok (State.list xs.toList, i)) (Behind depth (.array c)) := by
  apply ((accepts_readCount start c).bind fun _ n =>
    (accepts_readMany hv #[] n).map fun xs => State.list xs.toList).congr
  intro b s
  refine ⟨fun h => ?_, fun h => ?_⟩
  · obtain ⟨_, tail, body, hc, ⟨_, ⟨xs, hj, rfl, rfl⟩, rfl⟩, rfl⟩ := h
    exact ⟨tail, body, xs, hd, hc, hj, rfl, by simp⟩
  · obtain ⟨tail, body, xs, -, hc, hj, rfl, rfl⟩ := h
    exact ⟨_, tail, body, hc, ⟨_, ⟨xs, hj, rfl, rfl⟩, by simp⟩, rfl⟩

theorem accepts_object {value : Reader State} {depth : Nat} (hd : depth < maxNesting)
    (hv : Accepts value (Value (depth + 1))) (start : Nat) (c : Count) :
    Accepts (fun i => readCount start c i >>= fun (n, i) => readMany (readField value) #[] n i >>=
      fun (fs, i) => .ok (State.object (Fields.ofPairs fs.toList), i))
      (Behind depth (.map c)) := by
  apply ((accepts_readCount start c).bind fun _ n =>
    (accepts_readMany (accepts_readField hv) #[] n).map
      fun fs => State.object (Fields.ofPairs fs.toList)).congr
  intro b s
  refine ⟨fun h => ?_, fun h => ?_⟩
  · obtain ⟨_, tail, body, hc, ⟨_, ⟨ms, hj, rfl, rfl⟩, rfl⟩, rfl⟩ := h
    exact ⟨tail, body, ms, hd, hc, hj, rfl, by simp [Fields.ofPairs_eq_foldl_set]⟩
  · obtain ⟨tail, body, ms, -, hc, hj, rfl, rfl⟩ := h
    exact ⟨_, tail, body, hc, ⟨_, ⟨ms, hj, rfl, rfl⟩, by simp [Fields.ofPairs_eq_foldl_set]⟩, rfl⟩

theorem accepts_readBehind_integer (nested : Option (Reader State)) (depth start : Nat)
    {m : Marker} {width : Nat} (hm : m = .unsigned width ∨ m = .signed width) :
    Accepts (readBehind nested start m) (Behind depth m) := by
  by_cases hw : width = 8
  · subst hw
    rcases hm with rfl | rfl
    all_goals
      apply ((accepts_readLong start _).map State.long).congr
      intro b s
      simp [Behind, Marker.width]
  · rcases hm with rfl | rfl
    all_goals
      simp only [readBehind]
      apply ((accepts_readInt start _).map State.int).congr
      intro b s
      simp [Behind, Marker.width, hw]

/-- A reader behind a marker accepts what the grammar has there, if the values inside lists and
objects are read by a reader that accepts theirs. -/
theorem accepts_readBehind {nested : Option (Reader State)} {depth : Nat}
    (hn : nested = none → maxNesting ≤ depth)
    (hs : ∀ value, nested = some value → depth < maxNesting ∧ Accepts value (Value (depth + 1)))
    (start : Nat) (m : Marker) : Accepts (readBehind nested start m) (Behind depth m) := by
  have hdeep : ∀ {c b s}, nested = none →
      ¬ Behind depth (.array c) b s ∧ ¬ Behind depth (.map c) b s := by
    intro c b s h
    have := hn h
    refine ⟨fun hx => ?_, fun hx => ?_⟩
    · obtain ⟨_, _, _, hd, -⟩ := hx
      omega
    · obtain ⟨_, _, _, hd, -⟩ := hx
      omega
  cases m with
  | bool b => exact accepts_pure _
  | small n =>
    apply ((accepts_readInt start (.small n)).map State.int).congr
    intro b s
    simp [Behind, Marker.width]
  | unsigned width => exact accepts_readBehind_integer nested depth start (Or.inl rfl)
  | signed width => exact accepts_readBehind_integer nested depth start (Or.inr rfl)
  | float =>
    apply ((accepts_readFloat start .float).map State.float).congr
    intro b s
    simp [Behind]
  | double => exact (accepts_readDouble start).map State.double
  | text c =>
    apply ((accepts_readText start c).map State.string).congr
    intro b s
    refine ⟨fun hx => ?_, fun hx => ?_⟩
    · obtain ⟨x, ⟨tail, hc, rfl⟩, rfl⟩ := hx
      exact ⟨x, tail, hc, rfl, rfl⟩
    · obtain ⟨x, tail, hc, rfl, rfl⟩ := hx
      exact ⟨x, ⟨tail, hc, rfl⟩, rfl⟩
  | array c =>
    cases nested with
    | none => exact (accepts_error fun _ => ⟨_, rfl⟩).congr fun _ _ => by simp [(hdeep rfl).1]
    | some value =>
      obtain ⟨hd, hv⟩ := hs value rfl
      exact accepts_list hd hv start c
  | map c =>
    cases nested with
    | none => exact (accepts_error fun _ => ⟨_, rfl⟩).congr fun _ _ => by simp [(hdeep rfl).2]
    | some value =>
      obtain ⟨hd, hv⟩ := hs value rfl
      exact accepts_object hd hv start c
  | extension size =>
    apply ((accepts_readExtension start size).map State.composite).congr
    intro b s
    refine ⟨fun hx => ?_, fun hx => ?_⟩
    · obtain ⟨c, ⟨tail, payload, hs, hj, rfl⟩, rfl⟩ := hx
      exact ⟨c, tail, payload, hs, hj, rfl, rfl⟩
    · obtain ⟨c, tail, payload, hs, hj, rfl, rfl⟩ := hx
      exact ⟨c, ⟨tail, payload, hs, hj, rfl⟩, rfl⟩
  | _ =>
    -- no value has one of these markers
    apply (accepts_error fun _ => ⟨_, rfl⟩).congr
    intro b s
    simp [Behind, Marker.HoldsInteger]

theorem accepts_readValue (levels depth : Nat) (h : levels + depth = maxNesting) :
    Accepts (readValue levels) (Value depth) := by
  induction levels generalizing depth with
  | zero =>
    have hs : ∀ value, (none : Option (Reader State)) = some value →
        depth < maxNesting ∧ Accepts value (Value (depth + 1)) := nofun
    apply (accepts_marked .noValue fun i m =>
      accepts_readBehind (fun _ => by omega) hs i.offset m).congr
    intro b s
    exact value_iff_behind.symm
  | succ levels ih =>
    have hs : ∀ value, some (readValue levels) = some value →
        depth < maxNesting ∧ Accepts value (Value (depth + 1)) := by
      intro value hv
      cases hv
      exact ⟨by omega, ih (depth + 1) (by omega)⟩
    apply (accepts_marked .noValue fun i m =>
      accepts_readBehind (fun hv => by cases hv) hs i.offset m).congr
    intro b s
    exact value_iff_behind.symm

/-- Bytes denote at most one tree. -/
theorem value_unique {depth : Nat} {bytes : Bytes} {s t : State} (hd : depth ≤ maxNesting)
    (hs : Value depth bytes s) (ht : Value depth bytes t) : s = t := by
  have hv := accepts_readValue (maxNesting - depth) depth (Nat.sub_add_cancel hd)
  have hu : Uses ⟨0, bytes⟩ bytes ⟨0 + bytes.length, []⟩ := ⟨(List.append_nil _).symm, rfl⟩
  have hr := (hv _ _ _).2 ⟨bytes, hs, hu⟩
  rw [(hv _ _ _).2 ⟨bytes, ht, hu⟩] at hr
  cases hr
  rfl

/-! ## Whole inputs -/

theorem decode_of_value {bytes : Bytes} {s : State} (h : Value 0 bytes s) :
    decode bytes = .ok s := by
  have hv := accepts_readValue maxNesting 0 (Nat.add_zero _)
  have hr : readValue maxNesting ⟨0, bytes⟩ = .ok (s, ⟨0 + bytes.length, []⟩) :=
    (hv _ _ _).2 ⟨bytes, h, (List.append_nil _).symm, rfl⟩
  unfold decode
  rw [hr]
  rfl

theorem value_of_decode {bytes : Bytes} {s : State} (h : decode bytes = .ok s) :
    Value 0 bytes s := by
  have hv := accepts_readValue maxNesting 0 (Nat.add_zero _)
  unfold decode at h
  cases hr : readValue maxNesting ⟨0, bytes⟩ with
  | error e => rw [hr] at h; cases h
  | ok r =>
    obtain ⟨t, left⟩ := r
    rw [hr] at h
    replace h : (if left.rest.isEmpty then Except.ok t else _) = .ok s := h
    split at h
    · next hl =>
      cases h
      obtain ⟨b, hb, hu, -⟩ := (hv _ _ _).1 hr
      have hu : bytes = b ++ left.rest := hu
      rw [List.isEmpty_iff.1 hl, List.append_nil] at hu
      rwa [hu]
    · cases h

/-- Decoding succeeds exactly on the bytes of one value with nothing behind it, and gives the tree
that the value denotes. -/
theorem decode_eq_ok_iff_value (bytes : Bytes) (s : State) :
    decode bytes = .ok s ↔ Value 0 bytes s :=
  ⟨value_of_decode, decode_of_value⟩

end SaveTree.Wire
