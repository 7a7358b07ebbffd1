/-
  Lead bytes and markers.

  Every marker is announced by the lead bytes the grammar names for it and by no others
  (`ofByte_eq_iff`). With that, a header or an integer of the grammar is a lead byte followed by
  what its marker says (`announces_iff`, `integerForm_iff`).
-/
import SaveTree.Proofs.Wire.Format

namespace SaveTree.Wire

/-! ## The lead bytes of a marker -/

/-- The header's lead byte tells the length in this way. -/
def HeaderForm.Marks (form : HeaderForm) (lead : UInt8) : Count → Prop
  | .inline n => ∃ k < form.span, lead = UInt8.ofNat (form.lead + k) ∧ n = form.held k
  | .field width => (lead, width) ∈ form.wide

/-- The byte announces the marker. -/
def Marker.Leads : Marker → UInt8 → Prop
  | .small n, b => (0 ≤ n ∧ n < 0x80 ∧ b = UInt8.ofNat n.toNat) ∨
      (-0x20 ≤ n ∧ n < 0 ∧ b = UInt8.ofNat (n + 0x100).toNat)
  | .unsigned width, b => (b, width) ∈ unsignedLeads
  | .signed width, b => (b, width) ∈ signedLeads
  | .float, b => b = 0xCA
  | .double, b => b = 0xCB
  | .bool true, b => b = 0xC3
  | .bool false, b => b = 0xC2
  | .text c, b => HeaderForm.text.Marks b c
  | .array c, b => HeaderForm.array.Marks b c
  | .map c, b => HeaderForm.map.Marks b c
  | .extension c, b => HeaderForm.extension.Marks b c
  | .binary width, b => (b, width) ∈ [((0xC4 : UInt8), 1), (0xC5, 2), (0xC6, 4)]
  | .nil, b => b = 0xC0
  | .reserved, b => b = 0xC1

instance (form : HeaderForm) (lead : UInt8) (c : Count) : Decidable (form.Marks lead c) :=
  match c with
  | .inline n =>
    inferInstanceAs (Decidable
      (∃ k < form.span, lead = UInt8.ofNat (form.lead + k) ∧ n = form.held k))
  | .field width => inferInstanceAs (Decidable ((lead, width) ∈ form.wide))

instance (m : Marker) (b : UInt8) : Decidable (m.Leads b) :=
  match m with
  | .small n => inferInstanceAs (Decidable ((0 ≤ n ∧ n < 0x80 ∧ b = UInt8.ofNat n.toNat) ∨
      (-0x20 ≤ n ∧ n < 0 ∧ b = UInt8.ofNat (n + 0x100).toNat)))
  | .unsigned width => inferInstanceAs (Decidable ((b, width) ∈ unsignedLeads))
  | .signed width => inferInstanceAs (Decidable ((b, width) ∈ signedLeads))
  | .float => inferInstanceAs (Decidable (b = 0xCA))
  | .double => inferInstanceAs (Decidable (b = 0xCB))
  | .bool true => inferInstanceAs (Decidable (b = 0xC3))
  | .bool false => inferInstanceAs (Decidable (b = 0xC2))
  | .text c => inferInstanceAs (Decidable (HeaderForm.text.Marks b c))
  | .array c => inferInstanceAs (Decidable (HeaderForm.array.Marks b c))
  | .map c => inferInstanceAs (Decidable (HeaderForm.map.Marks b c))
  | .extension c => inferInstanceAs (Decidable (HeaderForm.extension.Marks b c))
  | .binary width =>
    inferInstanceAs (Decidable ((b, width) ∈ [((0xC4 : UInt8), 1), (0xC5, 2), (0xC6, 4)]))
  | .nil => inferInstanceAs (Decidable (b = 0xC0))
  | .reserved => inferInstanceAs (Decidable (b = 0xC1))

theorem leads_ofByte_lt : ∀ n < 256, (Marker.ofByte (UInt8.ofNat n)).Leads (UInt8.ofNat n) := by
  decide +kernel

theorem leads_ofByte (b : UInt8) : (Marker.ofByte b).Leads b := by
  have h := leads_ofByte_lt b.toNat b.toNat_lt
  rwa [UInt8.ofNat_toNat] at h

/-- A marker with a length has the lead bytes of its header, if the lead bytes that hold the
length and those with a field behind them do. -/
theorem ofByte_eq_of_marks {form : HeaderForm} {marker : Count → Marker}
    (held : ∀ k < form.span,
      Marker.ofByte (UInt8.ofNat (form.lead + k)) = marker (.inline (form.held k)))
    (wide : ∀ p ∈ form.wide, Marker.ofByte p.1 = marker (.field p.2))
    {lead : UInt8} {c : Count} (h : form.Marks lead c) : Marker.ofByte lead = marker c := by
  cases c with
  | inline n =>
    obtain ⟨k, hk, rfl, rfl⟩ := h
    exact held k hk
  | field width => exact wide (lead, width) h

theorem ofByte_eq_of_leads {m : Marker} {b : UInt8} (h : m.Leads b) : Marker.ofByte b = m := by
  cases m with
  | small n =>
    have hp : ∀ k < 0x80, Marker.ofByte (UInt8.ofNat k) = .small (k : Nat) := by decide
    have hn : ∀ k < 0x20, Marker.ofByte (UInt8.ofNat (0xE0 + k)) =
        .small ((0xE0 + k : Nat) - (0x100 : Int)) := by decide
    rcases h with ⟨hl, hu, rfl⟩ | ⟨hl, hu, rfl⟩
    · rw [hp n.toNat (by omega), Int.toNat_of_nonneg hl]
    · have hk : (n + 0x100).toNat = 0xE0 + (n + 0x20).toNat := by omega
      rw [hk, hn _ (by omega), ← hk, Int.toNat_of_nonneg (by omega), Int.add_sub_cancel]
  | unsigned width =>
    have hw : ∀ p ∈ unsignedLeads, Marker.ofByte p.1 = .unsigned p.2 := by decide
    exact hw (b, width) h
  | signed width =>
    have hw : ∀ p ∈ signedLeads, Marker.ofByte p.1 = .signed p.2 := by decide
    exact hw (b, width) h
  | binary width =>
    have hw : ∀ p ∈ [((0xC4 : UInt8), 1), (0xC5, 2), (0xC6, 4)],
        Marker.ofByte p.1 = .binary p.2 := by decide
    exact hw (b, width) h
  | bool v => cases v <;> cases h <;> rfl
  | float => cases h; rfl
  | double => cases h; rfl
  | nil => cases h; rfl
  | reserved => cases h; rfl
  | text c => exact ofByte_eq_of_marks (by decide) (by decide) h
  | array c => exact ofByte_eq_of_marks (by decide) (by decide) h
  | map c => exact ofByte_eq_of_marks (by decide) (by decide) h
  | extension c => exact ofByte_eq_of_marks (by decide) (by decide) h

theorem ofByte_eq_iff {b : UInt8} {m : Marker} : Marker.ofByte b = m ↔ m.Leads b := by
  constructor
  · rintro rfl
    exact leads_ofByte b
  · exact ofByte_eq_of_leads

/-! ## What stands behind a marker -/

/-- The bytes behind a lead byte that tell the length `n` in this way. -/
def Count.Holds : Count → Bytes → Nat → Prop
  | .inline n, bytes, m => bytes = [] ∧ m = n
  | .field width, bytes, m => m < 256 ^ width ∧ bytes = bigEndian width m

theorem announces_iff {form : HeaderForm} {header : Bytes} {n : Nat} :
    form.Announces header n ↔
      ∃ lead c tail, form.Marks lead c ∧ c.Holds tail n ∧ header = lead :: tail := by
  refine ⟨fun h => ?_, fun hx => ?_⟩
  · cases h with
    | held k hk => exact ⟨_, .inline (form.held k), [], ⟨k, hk, rfl, rfl⟩, ⟨rfl, rfl⟩, rfl⟩
    | wide lead width n hl hn => exact ⟨lead, .field width, _, hl, ⟨hn, rfl⟩, rfl⟩
  · obtain ⟨lead, c, tail, hm, hc, rfl⟩ := hx
    cases c with
    | inline m =>
      obtain ⟨k, hk, rfl, rfl⟩ := hm
      obtain ⟨rfl, rfl⟩ := hc
      exact .held k hk
    | field width =>
      obtain ⟨hn, rfl⟩ := hc
      exact .wide lead width n hm hn

namespace Marker

/-- The bytes behind an integer's lead byte. -/
def HoldsInteger : Marker → Bytes → Int → Prop
  | .small k, bytes, n => bytes = [] ∧ n = k
  | .unsigned width, bytes, n => ∃ m : Nat, m < 256 ^ width ∧ bytes = bigEndian width m ∧ n = m
  | .signed width, bytes, n => FitsSigned width n ∧ bytes = bigEndian width (Wire.unsigned width n)
  | _, _, _ => False

/-- The number of bytes behind an integer's lead byte. -/
def width : Marker → Nat
  | .unsigned width => width
  | .signed width => width
  | _ => 0

end Marker

theorem integerForm_iff {width : Nat} {bytes : Bytes} {n : Int} :
    IntegerForm width bytes n ↔ ∃ lead tail, (Marker.ofByte lead).HoldsInteger tail n ∧
      (Marker.ofByte lead).width = width ∧ bytes = lead :: tail := by
  refine ⟨fun h => ?_, fun hx => ?_⟩
  · cases h with
    | positive k hk =>
      have hm : Marker.ofByte (UInt8.ofNat k) = .small k :=
        ofByte_eq_of_leads (Or.inl ⟨by omega, by omega, rfl⟩)
      exact ⟨_, [], by rw [hm]; exact ⟨rfl, rfl⟩, by rw [hm]; rfl, rfl⟩
    | negative k hl hu =>
      have hm : Marker.ofByte (UInt8.ofNat k) = .small (k - 0x100) := by
        have hk : ((k : Int) - 0x100 + 0x100).toNat = k := by omega
        exact ofByte_eq_of_leads (Or.inr ⟨by omega, by omega, by rw [hk]⟩)
      exact ⟨_, [], by rw [hm]; exact ⟨rfl, rfl⟩, by rw [hm]; rfl, rfl⟩
    | unsigned lead width k hl hn =>
      have hm : Marker.ofByte lead = .unsigned width := ofByte_eq_of_leads hl
      exact ⟨lead, _, by rw [hm]; exact ⟨k, hn, rfl, rfl⟩, by rw [hm]; rfl, rfl⟩
    | signed lead width n hl hn =>
      have hm : Marker.ofByte lead = .signed width := ofByte_eq_of_leads hl
      exact ⟨lead, _, by rw [hm]; exact ⟨hn, rfl⟩, by rw [hm]; rfl, rfl⟩
  · obtain ⟨lead, tail, hn, rfl, rfl⟩ := hx
    have hl := leads_ofByte lead
    cases hm : Marker.ofByte lead with
    | small k =>
      rw [hm] at hl hn
      obtain ⟨rfl, rfl⟩ := hn
      rcases hl with ⟨hl, hu, rfl⟩ | ⟨hl, hu, rfl⟩
      · have := IntegerForm.positive n.toNat (by omega)
        rwa [Int.toNat_of_nonneg hl] at this
      · have := IntegerForm.negative (n + 0x100).toNat (by omega) (by omega)
        rwa [Int.toNat_of_nonneg (by omega), Int.add_sub_cancel] at this
    | unsigned width =>
      rw [hm] at hl hn
      obtain ⟨k, hk, rfl, rfl⟩ := hn
      exact .unsigned lead width k hl hk
    | signed width =>
      rw [hm] at hl hn
      obtain ⟨hf, rfl⟩ := hn
      exact .signed lead width n hl hf
    | _ => rw [hm] at hn; exact hn.elim

end SaveTree.Wire
