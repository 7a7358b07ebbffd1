/-
  The writer's form.

  Bytes are in the writer's form if each integer has the lead byte of its width, each header is as
  short as its length allows, extension blocks tell their length in one byte, and no object gives
  a name twice. The form is a part of the grammar and does not mention the writer. Each tree has
  one such form, and that is what the writer makes of it (`canonical_iff`), so decoding and
  encoding gives the bytes back exactly if they were in this form.
-/
import SaveTree.Proofs.Wire.Denoted

namespace SaveTree.Wire

/-! ## The form -/

/-- The header announces the length, and none of the form does so in fewer bytes. -/
def HeaderForm.Shortest (form : HeaderForm) (header : Bytes) (n : Nat) : Prop :=
  form.Announces header n ∧ ∀ other, form.Announces other n → header.length ≤ other.length

/-- A text behind its shortest header. -/
def CanonicalText (bytes : Bytes) (s : String) : Prop :=
  ∃ header, HeaderForm.text.Shortest header (Utf8.encode s).length ∧
    bytes = header ++ Utf8.encode s

/-- A component, an integer with the lead byte of four signed bytes. -/
inductive CanonicalComponent : Bytes → Component → Prop
  | float {bytes : Bytes} {x : Binary32} (hx : FloatForm bytes x) :
      CanonicalComponent bytes (.float x)
  | int {width : Nat} {bytes : Bytes} {n : Int32} (hn : IntegerForm width bytes n.toInt)
      (hl : bytes.head? = some 0xD2) : CanonicalComponent bytes (.int n)

/-- An extension block whose length stands in one byte. -/
def CanonicalComposite (bytes : Bytes) (c : Composite) : Prop :=
  ∃ header payload, HeaderForm.extension.Announces header payload.length ∧
    header.head? = some 0xC7 ∧ Joined CanonicalComponent payload c.components ∧
      bytes = header ++ UInt8.ofNat c.code :: payload

mutual

/-- The bytes are the tree in the writer's form. -/
inductive Canonical : Bytes → State → Prop
  | false : Canonical [0xC2] (.bool false)
  | true : Canonical [0xC3] (.bool true)
  | long {width : Nat} {bytes : Bytes} {n : Int64} (hn : IntegerForm width bytes n.toInt)
      (hl : bytes.head? = some 0xD3) : Canonical bytes (.long n)
  | int {width : Nat} {bytes : Bytes} {n : Int32} (hn : IntegerForm width bytes n.toInt)
      (hl : bytes.head? = some 0xD2) : Canonical bytes (.int n)
  | float {bytes : Bytes} {x : Binary32} (hx : FloatForm bytes x) : Canonical bytes (.float x)
  | double {bytes : Bytes} {x : Binary64} (hx : DoubleForm bytes x) : Canonical bytes (.double x)
  | string {bytes : Bytes} {s : String} (hs : CanonicalText bytes s) : Canonical bytes (.string s)
  | list {header body : Bytes} {xs : List State} (hh : HeaderForm.array.Shortest header xs.length)
      (hb : CanonicalItems body xs) : Canonical (header ++ body) (.list xs)
  | object {header body : Bytes} {fs : List (String × State)}
      (hh : HeaderForm.map.Shortest header fs.length) (hd : (Fields.keys fs).Nodup)
      (hb : CanonicalFields body fs) : Canonical (header ++ body) (.object fs)
  | composite {bytes : Bytes} {c : Composite} (hc : CanonicalComposite bytes c) :
      Canonical bytes (.composite c)

/-- The bytes are the items of a list in the writer's form. -/
inductive CanonicalItems : Bytes → List State → Prop
  | nil : CanonicalItems [] []
  | cons {block rest : Bytes} {x : State} {xs : List State} (hx : Canonical block x)
      (hxs : CanonicalItems rest xs) : CanonicalItems (block ++ rest) (x :: xs)

/-- The bytes are the names and values of an object in the writer's form. -/
inductive CanonicalFields : Bytes → List (String × State) → Prop
  | nil : CanonicalFields [] []
  | cons {key block rest : Bytes} {name : String} {x : State} {fs : List (String × State)}
      (hk : CanonicalText key name) (hx : Canonical block x) (hfs : CanonicalFields rest fs) :
      CanonicalFields (key ++ block ++ rest) ((name, x) :: fs)

end

/-! ## Shortest headers -/

namespace HeaderForm

/-- Headers of one length tell their number in one way: a lead byte holds the number itself, and
no two fields have the same width. -/
structure Graded (form : HeaderForm) : Prop where
  held_eq : ∀ k < form.span, form.held k = k
  width_pos : ∀ p ∈ form.wide, 0 < p.2
  width_inj : ∀ p ∈ form.wide, ∀ q ∈ form.wide, p.2 = q.2 → p = q

theorem graded_text : text.Graded := ⟨by decide, by decide, by decide⟩

theorem graded_array : array.Graded := ⟨by decide, by decide, by decide⟩

theorem graded_map : map.Graded := ⟨by decide, by decide, by decide⟩

variable {form : HeaderForm} {a b header other : Bytes} {n : Nat}

/-- A header of a graded form is a lead byte that holds the number, or one in front of a field wide
enough for it. -/
theorem Graded.eq_of_announces (hg : form.Graded) (h : form.Announces header n) :
    (n < form.span ∧ header = [UInt8.ofNat (form.lead + n)]) ∨
      ∃ p ∈ form.wide, n < 256 ^ p.2 ∧ header = p.1 :: bigEndian p.2 n := by
  cases h with
  | held k hk =>
    rw [hg.held_eq k hk]
    exact Or.inl ⟨hk, rfl⟩
  | wide lead width n hl hn => exact Or.inr ⟨_, hl, hn, rfl⟩

theorem Graded.announces_inj (hg : form.Graded) (ha : form.Announces a n)
    (hb : form.Announces b n) (hl : a.length = b.length) : a = b := by
  have ha := hg.eq_of_announces ha
  have hb := hg.eq_of_announces hb
  rcases ha with ⟨-, rfl⟩ | ⟨p, hp, -, rfl⟩
  · rcases hb with ⟨-, rfl⟩ | ⟨q, hq, -, rfl⟩
    · rfl
    · have hw := hg.width_pos q hq
      simp at hl
      omega
  · rcases hb with ⟨-, rfl⟩ | ⟨q, hq, -, rfl⟩
    · have hw := hg.width_pos p hp
      simp at hl
      omega
    · have hw : p.2 = q.2 := by simpa using hl
      rw [hg.width_inj p hp q hq hw]

theorem Graded.shortest_iff (hg : form.Graded) (h : form.Shortest header n) :
    form.Shortest other n ↔ other = header := by
  refine ⟨fun ho => ?_, fun ho => ho ▸ h⟩
  have hl : other.length = header.length := Nat.le_antisymm (ho.2 _ h.1) (h.2 _ ho.1)
  exact hg.announces_inj ho.1 h.1 hl

/-- A header is shortest if it is no longer than each lead byte and field that can hold the
number. -/
theorem Graded.shortest_of_announces (hg : form.Graded) (ha : form.Announces header n)
    (hh : n < form.span → header.length = 1)
    (hw : ∀ p ∈ form.wide, n < 256 ^ p.2 → header.length ≤ p.2 + 1) : form.Shortest header n := by
  refine ⟨ha, fun other ho => ?_⟩
  rcases hg.eq_of_announces ho with ⟨hn, rfl⟩ | ⟨p, hp, hn, rfl⟩
  · rw [hh hn]
    exact Nat.le_refl 1
  · rw [List.length_cons, length_bigEndian]
    exact hw p hp hn

end HeaderForm

theorem shortest_textHeader {n : Nat} (h : n < 2 ^ 32) :
    HeaderForm.text.Shortest (textHeader n) n := by
  have hl : (textHeader n).length =
      if n < 32 then 1 else if n < 2 ^ 8 then 2 else if n < 2 ^ 16 then 3 else 5 := by
    simp only [textHeader, Nat.mod_eq_of_lt h, apply_ite List.length, List.length_cons,
      length_bigEndian, List.length_nil]
  refine HeaderForm.graded_text.shortest_of_announces (announces_textHeader h) ?_ ?_
  · exact fun hn => hl.trans (if_pos hn)
  · simp only [HeaderForm.text, List.forall_mem_cons, hl]
    refine ⟨?_, ?_, ?_, nofun⟩ <;> grind

theorem shortest_arrayHeader {n : Nat} (h : n < 2 ^ 32) :
    HeaderForm.array.Shortest (arrayHeader n) n := by
  have hl : (arrayHeader n).length = if n < 16 then 1 else if n < 2 ^ 16 then 3 else 5 := by
    simp only [arrayHeader, apply_ite List.length, List.length_cons, length_bigEndian,
      List.length_nil]
  refine HeaderForm.graded_array.shortest_of_announces (announces_arrayHeader h) ?_ ?_
  · exact fun hn => hl.trans (if_pos hn)
  · simp only [HeaderForm.array, List.forall_mem_cons, hl]
    refine ⟨?_, ?_, nofun⟩ <;> grind

theorem shortest_mapHeader {n : Nat} (h : n < 2 ^ 32) :
    HeaderForm.map.Shortest (mapHeader n) n := by
  have hl : (mapHeader n).length = if n < 16 then 1 else if n < 2 ^ 16 then 3 else 5 := by
    simp only [mapHeader, apply_ite List.length, List.length_cons, length_bigEndian,
      List.length_nil]
  refine HeaderForm.graded_map.shortest_of_announces (announces_mapHeader h) ?_ ?_
  · exact fun hn => hl.trans (if_pos hn)
  · simp only [HeaderForm.map, List.forall_mem_cons, hl]
    refine ⟨?_, ?_, nofun⟩ <;> grind

/-! ## One form for each tree -/

/-- A header of a graded form is the shortest exactly if it is the one the writer chooses. -/
theorem shortest_iff {form : HeaderForm} {choose : Nat → Bytes} {header : Bytes} {n : Nat}
    (hg : form.Graded) (hw : ∀ p ∈ form.wide, p.2 ≤ 4) (hs : form.span ≤ 32)
    (hc : ∀ n, n < 2 ^ 32 → form.Shortest (choose n) n) :
    form.Shortest header n ↔ n < 2 ^ 32 ∧ header = choose n := by
  refine ⟨fun h => ?_, fun h => ?_⟩
  · have hn : n < 2 ^ 32 := by
      refine lt_of_announces (fun k hk => ?_) hw h.1
      rw [hg.held_eq k hk]
      omega
    exact ⟨hn, (hg.shortest_iff (hc n hn)).1 h⟩
  · obtain ⟨hn, rfl⟩ := h
    exact hc n hn

theorem shortest_text_iff {header : Bytes} {n : Nat} :
    HeaderForm.text.Shortest header n ↔ n < 2 ^ 32 ∧ header = textHeader n :=
  shortest_iff HeaderForm.graded_text (by decide) (by decide) fun _ => shortest_textHeader

theorem shortest_array_iff {header : Bytes} {n : Nat} :
    HeaderForm.array.Shortest header n ↔ n < 2 ^ 32 ∧ header = arrayHeader n :=
  shortest_iff HeaderForm.graded_array (by decide) (by decide) fun _ => shortest_arrayHeader

theorem shortest_map_iff {header : Bytes} {n : Nat} :
    HeaderForm.map.Shortest header n ↔ n < 2 ^ 32 ∧ header = mapHeader n :=
  shortest_iff HeaderForm.graded_map (by decide) (by decide) fun _ => shortest_mapHeader

theorem canonicalText_iff {bytes : Bytes} {s : String} :
    CanonicalText bytes s ↔ (Utf8.encode s).length < 2 ^ 32 ∧ bytes = textBytes s := by
  unfold CanonicalText
  simp only [shortest_text_iff]
  refine ⟨fun h => ?_, fun h => ?_⟩
  · obtain ⟨header, ⟨hl, rfl⟩, rfl⟩ := h
    exact ⟨hl, rfl⟩
  · obtain ⟨hl, rfl⟩ := h
    exact ⟨_, ⟨hl, rfl⟩, rfl⟩

/-- Behind the lead byte of signed integers of a width stand that many bytes. -/
theorem eq_of_integerForm {lead : UInt8} {width w : Nat} {bytes : Bytes} {n : Int}
    (hs : (lead, width) ∈ signedLeads) (h : IntegerForm w bytes n) (hl : bytes.head? = some lead) :
    bytes = lead :: bigEndian width (unsigned width n) := by
  obtain ⟨lead', tail, hn, -, rfl⟩ := integerForm_iff.1 h
  obtain rfl : lead' = lead := Option.some.inj hl
  have hm : Marker.ofByte lead' = .signed width := ofByte_eq_of_leads hs
  rw [hm] at hn
  obtain ⟨-, rfl⟩ := hn
  rfl

theorem eq_intBytes {width : Nat} {bytes : Bytes} {n : Int32} (h : IntegerForm width bytes n.toInt)
    (hl : bytes.head? = some 0xD2) : bytes = intBytes n :=
  eq_of_integerForm (by decide) h hl

theorem eq_longBytes {width : Nat} {bytes : Bytes} {n : Int64}
    (h : IntegerForm width bytes n.toInt) (hl : bytes.head? = some 0xD3) : bytes = longBytes n :=
  eq_of_integerForm (by decide) h hl

theorem canonicalComponent_iff {bytes : Bytes} {x : Component} :
    CanonicalComponent bytes x ↔ bytes = componentBytes x := by
  refine ⟨fun h => ?_, fun h => ?_⟩
  · cases h with
    | float hx => exact hx
    | int hn hl => exact eq_intBytes hn hl
  · obtain rfl := h
    cases x with
    | float x => exact .float rfl
    | int n => exact .int (integerForm_intBytes n) rfl

theorem joined_eq_flatMap {α : Type} {P : Bytes → α → Prop} {block : α → Bytes} {b : Bytes}
    {xs : List α} (h : ∀ b x, P b x → b = block x) (hj : Joined P b xs) : b = xs.flatMap block := by
  induction hj with
  | nil => rfl
  | cons hx _ ih => rw [h _ _ hx, ih, List.flatMap_cons]

/-- No composite is as long as a lead byte can tell, so its length stands in one byte. -/
theorem compositeBytes_eq (c : Composite) : compositeBytes c =
    (0xC7 :: bigEndian 1 (c.components.flatMap componentBytes).length) ++
      UInt8.ofNat c.code :: c.components.flatMap componentBytes := by
  have hh : extensionHeader (5 * c.kind.arity) c.code =
      0xC7 :: bigEndian 1 (5 * c.kind.arity) ++ [UInt8.ofNat c.code] := by
    cases c <;> rfl
  unfold compositeBytes
  dsimp only
  rw [length_payload, hh, List.append_assoc, List.singleton_append]

theorem announces_extension_iff {header : Bytes} {n : Nat} :
    HeaderForm.extension.Announces header n ∧ header.head? = some 0xC7 ↔
      n < 256 ∧ header = 0xC7 :: bigEndian 1 n := by
  refine ⟨fun h => ?_, fun h => ?_⟩
  · obtain ⟨hh, hl⟩ := h
    cases hh with
    | held k hk =>
      have hne : ∀ k < 5, UInt8.ofNat (0xD4 + k) ≠ 0xC7 := by decide
      exact absurd (Option.some.inj hl) (hne k hk)
    | wide lead width n hw hn =>
      have hone : ∀ p ∈ HeaderForm.extension.wide, p.1 = 0xC7 → p.2 = 1 := by decide
      obtain rfl : lead = 0xC7 := Option.some.inj hl
      obtain rfl : width = 1 := hone _ hw rfl
      exact ⟨hn, rfl⟩
  · obtain ⟨hn, rfl⟩ := h
    exact ⟨.wide 0xC7 1 n (by decide) hn, rfl⟩

theorem canonicalComposite_iff {bytes : Bytes} {c : Composite} :
    CanonicalComposite bytes c ↔ bytes = compositeBytes c := by
  rw [compositeBytes_eq]
  refine ⟨fun h => ?_, fun h => ?_⟩
  · obtain ⟨header, payload, hh, hl, hj, rfl⟩ := h
    have hblocks : ∀ b x, CanonicalComponent b x → b = componentBytes x :=
      fun _ _ => canonicalComponent_iff.1
    obtain rfl := joined_eq_flatMap hblocks hj
    obtain ⟨-, rfl⟩ := announces_extension_iff.1 ⟨hh, hl⟩
    rfl
  · obtain ⟨hh, hl⟩ := announces_extension_iff.2 ⟨length_payload_lt c, rfl⟩
    exact ⟨_, _, hh, hl, joined_flatMap (fun _ => canonicalComponent_iff.2 rfl) c.components, h⟩

theorem canonicalItems_iff {body : Bytes} {xs : List State}
    (h : ∀ x ∈ xs, ∀ b, Canonical b x ↔ b = plainBytes x) :
    CanonicalItems body xs ↔ body = plainItems xs := by
  induction xs generalizing body with
  | nil =>
    refine ⟨fun hi => ?_, fun hi => hi ▸ .nil⟩
    cases hi
    rfl
  | cons x xs ih =>
    rw [List.forall_mem_cons] at h
    rw [plainItems]
    refine ⟨fun hi => ?_, fun hi => ?_⟩
    · cases hi with | cons hx hxs => rw [(h.1 _).1 hx, (ih h.2).1 hxs]
    · exact hi ▸ .cons ((h.1 _).2 rfl) ((ih h.2).2 rfl)

theorem canonicalFields_iff {body : Bytes} {fs : List (String × State)}
    (hk : ∀ f ∈ fs, (Utf8.encode f.1).length < 2 ^ 32)
    (h : ∀ f ∈ fs, ∀ b, Canonical b f.2 ↔ b = plainBytes f.2) :
    CanonicalFields body fs ↔ body = plainFields fs := by
  induction fs generalizing body with
  | nil =>
    refine ⟨fun hi => ?_, fun hi => hi ▸ .nil⟩
    cases hi
    rfl
  | cons f fs ih =>
    obtain ⟨name, x⟩ := f
    rw [List.forall_mem_cons] at h hk
    rw [plainFields]
    refine ⟨fun hi => ?_, fun hi => ?_⟩
    · cases hi with
      | cons hn hx hfs => rw [(canonicalText_iff.1 hn).2, (h.1 _).1 hx, (ih hk.2 h.2).1 hfs]
    · exact hi ▸ .cons (canonicalText_iff.2 ⟨hk.1, rfl⟩) ((h.1 _).2 rfl) ((ih hk.2 h.2).2 rfl)

/-- A tree within the limits of headers has one form, the plain bytes. -/
theorem canonical_iff {bytes : Bytes} {s : State} (hs : s.Storable) (he : s.Every State.FewEntries) :
    Canonical bytes s ↔ bytes = plainBytes s := by
  obtain ⟨hd, ht⟩ := hs
  induction s generalizing bytes with
  | bool b =>
    rw [plainBytes]
    refine ⟨fun h => ?_, fun h => ?_⟩
    · cases h <;> rfl
    · rw [h]
      cases b
      · exact .false
      · exact .true
  | int n =>
    rw [plainBytes]
    refine ⟨fun h => ?_, fun h => h ▸ .int (integerForm_intBytes n) rfl⟩
    cases h with | int hn hl => exact eq_intBytes hn hl
  | long n =>
    rw [plainBytes]
    refine ⟨fun h => ?_, fun h => h ▸ .long (integerForm_longBytes n) rfl⟩
    cases h with | long hn hl => exact eq_longBytes hn hl
  | float x =>
    refine ⟨fun h => ?_, fun h => .float h⟩
    cases h with | float hx => exact hx
  | double x =>
    refine ⟨fun h => ?_, fun h => .double h⟩
    cases h with | double hx => exact hx
  | string s =>
    have hl := (State.every_iff.1 ht).1
    refine ⟨fun h => ?_, fun h => .string (canonicalText_iff.2 ⟨hl, h⟩)⟩
    cases h with | string hs => exact (canonicalText_iff.1 hs).2
  | composite c =>
    refine ⟨fun h => ?_, fun h => .composite (canonicalComposite_iff.2 h)⟩
    cases h with | composite hc => exact canonicalComposite_iff.1 hc
  | list xs ih =>
    rw [State.every_list_iff] at hd ht he
    have hi : ∀ {body}, CanonicalItems body xs ↔ body = plainItems xs :=
      canonicalItems_iff fun x hx b => ih x hx (he.2 x hx) (hd.2 x hx) (ht.2 x hx)
    rw [plainBytes]
    refine ⟨fun h => ?_, fun h => ?_⟩
    · cases h with
      | list hh hb => rw [(shortest_array_iff.1 hh).2, hi.1 hb]
    · exact h ▸ .list (shortest_array_iff.2 ⟨he.1, rfl⟩) (hi.2 rfl)
  | object fs ih =>
    rw [State.every_object_iff] at hd ht he
    have hf : ∀ {body}, CanonicalFields body fs ↔ body = plainFields fs :=
      canonicalFields_iff ht.1 fun f hf b => ih f hf (he.2 f hf) (hd.2 f hf) (ht.2 f hf)
    rw [plainBytes]
    refine ⟨fun h => ?_, fun h => ?_⟩
    · cases h with
      | object hh _ hb => rw [(shortest_map_iff.1 hh).2, hf.1 hb]
    · exact h ▸ .object (shortest_map_iff.2 ⟨he.1, rfl⟩) hd.1 (hf.2 rfl)

end SaveTree.Wire

namespace SaveTree

open Wire

/-- What decodes can be encoded again, to bytes that decode to the same tree; these are the same
bytes exactly if those were in the writer's form. -/
theorem reencode_decoded {bytes : Bytes} {s : State} (h : decode bytes = .ok s) :
    ∃ again, encode s = .ok again ∧ decode again = .ok s ∧ (decode again >>= encode) = .ok again ∧
      (again = bytes ↔ Canonical bytes s) := by
  have hs := storable_of_decode h
  have he := encode_of_decode h
  have hd := decode_of_encode hs he
  refine ⟨plainBytes s, he, hd, ?_, ?_⟩
  · rw [hd]
    exact he
  · rw [canonical_iff hs (encode_eq_ok_iff.1 he).1.2]
    exact eq_comm

/-- An object that gives the name `a` twice, the second time to a vector of compact numbers. -/
def compactBytes : Bytes :=
  [0x82, 0xA1, 0x61, 0x05, 0xA1, 0x61, 0xD5, 0x04, 0x07, 0xE0]

theorem value_compactBytes :
    Value 0 compactBytes (.object [("a", .composite (.vector2int 7 (-32)))]) := by
  have ha : TextForm [0xA1, 0x61] "a" := ⟨[0xA1], .held 1 (by decide), rfl⟩
  have h5 : Value 1 [0x05] (.int 5) := .int (by decide) (.positive 5 (by decide))
  have hx : ComponentForm [0x07] (.int 7) := .int (.positive 7 (by decide))
  have hy : ComponentForm [0xE0] (.int (-32)) := .int (.negative 0xE0 (by decide) (by decide))
  have hv : Value 1 [0xD5, 0x04, 0x07, 0xE0] (.composite (.vector2int 7 (-32))) :=
    .composite ⟨[0xD5], [0x07, 0xE0], .held 1 (by decide), .cons hx (.cons hy .nil), rfl⟩
  exact .object (by decide) (.held 2 (by decide)) (.cons ha h5 (.cons ha hv (.nil 1)))

theorem reencode_compactBytes :
    ∃ s again, decode compactBytes = .ok s ∧ encode s = .ok again ∧ decode again = .ok s ∧
      again.length = 16 ∧ ¬ Canonical compactBytes s := by
  have hd := decode_of_value value_compactBytes
  obtain ⟨again, he, hr, -, hc⟩ := reencode_decoded hd
  have ha : again.length = 16 := by
    cases he
    rfl
  refine ⟨_, again, hd, he, hr, ha, fun h => ?_⟩
  rw [hc.2 h] at ha
  exact absurd ha (by decide)

end SaveTree
