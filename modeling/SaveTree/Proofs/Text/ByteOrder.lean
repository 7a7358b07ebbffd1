/-
  The order of texts is that of their encodings.

  Texts are compared character by character, byte strings byte by byte, and a text comes first
  exactly if its encoding does. Of two characters the later one has the greater encoding,
  whatever stands behind: a longer encoding has a greater lead byte, and of two that are equally
  long the first difference is one of payload bits.
-/
import SaveTree.Text.Utf8

namespace SaveTree.Utf8

variable {m n : Nat} {xs ys : Bytes} {c d : Char} {cs ds : List Char} {s t : String}

theorem ofNat_cons_lt_of_le (h : m ≤ n) (hn : n < 256) (hrest : m = n → xs < ys) :
    UInt8.ofNat m :: xs < UInt8.ofNat n :: ys := by
  have hm : (UInt8.ofNat m).toNat = m := by rw [UInt8.toNat_ofNat']; omega
  have hn : (UInt8.ofNat n).toNat = n := by rw [UInt8.toNat_ofNat']; omega
  rw [List.cons_lt_cons_iff, UInt8.lt_iff_toNat_lt, hm, hn]
  rcases Nat.lt_or_eq_of_le h with hlt | rfl
  · exact .inl hlt
  · exact .inr ⟨rfl, hrest rfl⟩

theorem ofNat_cons_lt_of_lt (h : m < n) (hn : n < 256) (xs ys : Bytes) :
    UInt8.ofNat m :: xs < UInt8.ofNat n :: ys :=
  ofNat_cons_lt_of_le (Nat.le_of_lt h) hn fun heq => absurd heq (Nat.ne_of_lt h)

/-- A later character has the greater encoding, whatever follows the characters. -/
theorem encodeChar_append_lt (h : c < d) (xs ys : Bytes) :
    String.utf8EncodeChar c ++ xs < String.utf8EncodeChar d ++ ys := by
  have hcd : c.toNat < d.toNat := UInt32.lt_iff_toNat_lt.1 (Char.lt_def.1 h)
  have hd : d.toNat < 0xD800 ∨ 0xDFFF < d.toNat ∧ d.toNat < 0x110000 := d.valid
  unfold String.utf8EncodeChar
  simp only [Char.toNat_val]
  -- by the length of the first encoding; the second is no shorter
  split
  · split
    · exact ofNat_cons_lt_of_lt hcd (by omega) _ _
    split
    · exact ofNat_cons_lt_of_lt (by omega) (by omega) _ _
    split
    · exact ofNat_cons_lt_of_lt (by omega) (by omega) _ _
    · exact ofNat_cons_lt_of_lt (by omega) (by omega) _ _
  rw [if_neg (show ¬ d.toNat ≤ 0x7F by omega)]
  split
  · split
    · exact ofNat_cons_lt_of_le (by omega) (by omega) fun h₁ =>
        ofNat_cons_lt_of_lt (by omega) (by omega) _ _
    split
    · exact ofNat_cons_lt_of_lt (by omega) (by omega) _ _
    · exact ofNat_cons_lt_of_lt (by omega) (by omega) _ _
  rw [if_neg (show ¬ d.toNat ≤ 0x7FF by omega)]
  split
  · split
    · exact ofNat_cons_lt_of_le (by omega) (by omega) fun h₁ =>
        ofNat_cons_lt_of_le (by omega) (by omega) fun h₂ =>
          ofNat_cons_lt_of_lt (by omega) (by omega) _ _
    · exact ofNat_cons_lt_of_lt (by omega) (by omega) _ _
  rw [if_neg (show ¬ d.toNat ≤ 0xFFFF by omega)]
  exact ofNat_cons_lt_of_le (by omega) (by omega) fun h₁ =>
    ofNat_cons_lt_of_le (by omega) (by omega) fun h₂ =>
      ofNat_cons_lt_of_le (by omega) (by omega) fun h₃ =>
        ofNat_cons_lt_of_lt (by omega) (by omega) _ _

theorem flatMap_encodeChar_lt (h : cs < ds) :
    cs.flatMap String.utf8EncodeChar < ds.flatMap String.utf8EncodeChar := by
  induction cs generalizing ds with
  | nil =>
    cases ds with
    | nil => exact absurd h (List.not_lt_nil _)
    | cons d ds =>
      rw [List.flatMap_nil, List.flatMap_cons]
      cases hd : String.utf8EncodeChar d with
      | nil => exact absurd hd String.utf8EncodeChar_ne_nil
      | cons b bytes => exact List.nil_lt_cons _ _
  | cons c cs ih =>
    cases ds with
    | nil => exact absurd h (List.not_lt_nil _)
    | cons d ds =>
      rw [List.flatMap_cons, List.flatMap_cons]
      rcases List.cons_lt_cons_iff.1 h with hcd | ⟨rfl, htail⟩
      · exact encodeChar_append_lt hcd _ _
      · exact List.append_left_lt (ih htail)

/-- A text comes before another exactly if its bytes do. -/
theorem encode_lt_encode_iff : encode s < encode t ↔ s < t := by
  refine ⟨fun h => ?_, fun h => flatMap_encodeChar_lt (String.lt_iff.1 h)⟩
  by_cases hst : s < t
  · exact hst
  by_cases hts : t < s
  · exact absurd (flatMap_encodeChar_lt (String.lt_iff.1 hts)) (List.lt_asymm h)
  · cases String.le_antisymm (String.not_lt.1 hts) (String.not_lt.1 hst)
    exact absurd h (List.lt_irrefl _)

end SaveTree.Utf8
