/-
  UTF-8: `decode` accepts exactly the byte strings that `encode` writes.

  Each length of a character has two facts: reading its bytes goes on after the character
  (`decodeFrom_encodeChar`), and bytes that pass the tests of that length are the encoding of
  the character they are read as (`encodeChar_of_two` and its neighbours). Together they give
  `decode_eq_ok_iff`.
-/
import SaveTree.Text.Utf8

namespace SaveTree.Utf8

/-! ## The tests on single bytes, as numbers -/

theorem isContinuation_iff (b : UInt8) :
    isContinuation b = true ↔ 0x80 ≤ b.toNat ∧ b.toNat ≤ 0xBF := by
  simp [isContinuation, UInt8.le_iff_toNat_le]

/-- A second byte is a continuation, in a narrower range behind four of the lead bytes. -/
theorem isSecond_iff (a b : UInt8) : isSecond a b = true ↔
    (0x80 ≤ b.toNat ∧ b.toNat ≤ 0xBF) ∧ (a.toNat = 0xE0 → 0xA0 ≤ b.toNat) ∧
      (a.toNat = 0xED → b.toNat ≤ 0x9F) ∧ (a.toNat = 0xF0 → 0x90 ≤ b.toNat) ∧
        (a.toNat = 0xF4 → b.toNat ≤ 0x8F) := by
  unfold isSecond
  simp only [← UInt8.toNat_inj, UInt8.reduceToNat]
  split
  · simp only [Bool.and_eq_true, decide_eq_true_eq, UInt8.le_iff_toNat_le, UInt8.reduceToNat]
    omega
  split
  · simp only [Bool.and_eq_true, decide_eq_true_eq, UInt8.le_iff_toNat_le, UInt8.reduceToNat]
    omega
  split
  · simp only [Bool.and_eq_true, decide_eq_true_eq, UInt8.le_iff_toNat_le, UInt8.reduceToNat]
    omega
  split
  · simp only [Bool.and_eq_true, decide_eq_true_eq, UInt8.le_iff_toNat_le, UInt8.reduceToNat]
    omega
  · rw [isContinuation_iff]
    omega

theorem toNat_ofNat_of_valid {n : Nat} (h : n.isValidChar) : (Char.ofNat n).toNat = n := by
  rw [Char.ofNat, dif_pos h]
  rfl

/-! ## Bytes that are read as a character are its encoding -/

theorem encodeChar_of_one {a : UInt8} (ha : a.toNat ≤ 0x7F) :
    String.utf8EncodeChar (Char.ofNat a.toNat) = [a] := by
  have hv := toNat_ofNat_of_valid (n := a.toNat) (Or.inl (by omega))
  unfold String.utf8EncodeChar
  rw [Char.toNat_val, hv, if_pos ha, UInt8.ofNat_toNat]

theorem encodeChar_of_two {a b : UInt8} (hl : 0xC2 ≤ a.toNat) (hu : a.toNat < 0xE0)
    (hb : 0x80 ≤ b.toNat ∧ b.toNat ≤ 0xBF) :
    String.utf8EncodeChar (Char.ofNat (a.toNat % 32 * 64 + payload b)) = [a, b] := by
  unfold payload
  have hv := toNat_ofNat_of_valid (n := a.toNat % 32 * 64 + b.toNat % 64) (Or.inl (by omega))
  unfold String.utf8EncodeChar
  rw [Char.toNat_val, hv, if_neg (by omega), if_pos (by omega)]
  simp only [List.cons.injEq, ← UInt8.toNat_inj, UInt8.toNat_ofNat', and_true]
  omega

theorem encodeChar_of_three {a b₁ b₂ : UInt8} (hl : 0xE0 ≤ a.toNat) (hu : a.toNat < 0xF0)
    (h₁ : isSecond a b₁ = true) (h₂ : 0x80 ≤ b₂.toNat ∧ b₂.toNat ≤ 0xBF) :
    String.utf8EncodeChar
      (Char.ofNat ((a.toNat % 16 * 64 + payload b₁) * 64 + payload b₂)) = [a, b₁, b₂] := by
  rw [isSecond_iff] at h₁
  obtain ⟨hb, h0, hd, -, -⟩ := h₁
  unfold payload
  -- behind 0xE0 the number has twelve bits at least, behind 0xED it is below the surrogates
  have hv := toNat_ofNat_of_valid
    (n := (a.toNat % 16 * 64 + b₁.toNat % 64) * 64 + b₂.toNat % 64)
    (by unfold Nat.isValidChar; omega)
  unfold String.utf8EncodeChar
  rw [Char.toNat_val, hv, if_neg (by omega), if_neg (by omega), if_pos (by omega)]
  simp only [List.cons.injEq, ← UInt8.toNat_inj, UInt8.toNat_ofNat', and_true]
  omega

theorem encodeChar_of_four {a b₁ b₂ b₃ : UInt8} (hl : 0xF0 ≤ a.toNat) (hu : a.toNat ≤ 0xF4)
    (h₁ : isSecond a b₁ = true) (h₂ : 0x80 ≤ b₂.toNat ∧ b₂.toNat ≤ 0xBF)
    (h₃ : 0x80 ≤ b₃.toNat ∧ b₃.toNat ≤ 0xBF) :
    String.utf8EncodeChar
      (Char.ofNat (((a.toNat % 8 * 64 + payload b₁) * 64 + payload b₂) * 64 + payload b₃)) =
        [a, b₁, b₂, b₃] := by
  rw [isSecond_iff] at h₁
  obtain ⟨hb, -, -, h0, h4⟩ := h₁
  unfold payload
  -- behind 0xF0 the number has seventeen bits at least, behind 0xF4 it is below U+110000
  have hv := toNat_ofNat_of_valid
    (n := ((a.toNat % 8 * 64 + b₁.toNat % 64) * 64 + b₂.toNat % 64) * 64 + b₃.toNat % 64)
    (by unfold Nat.isValidChar; omega)
  unfold String.utf8EncodeChar
  rw [Char.toNat_val, hv, if_neg (by omega), if_neg (by omega), if_neg (by omega)]
  simp only [List.cons.injEq, ← UInt8.toNat_inj, UInt8.toNat_ofNat', and_true]
  omega

/-! ## Reading a character's encoding goes on behind the character -/

theorem decodeFrom_one {a : UInt8} (ha : a.toNat ≤ 0x7F) (offset : Nat) (acc : List Char)
    (rest : Bytes) : decodeFrom offset acc (a :: rest) =
      decodeFrom (offset + 1) (Char.ofNat a.toNat :: acc) rest := by
  rw [decodeFrom.eq_def]
  exact if_pos (UInt8.le_iff_toNat_le.2 ha)

/-- What a lead byte of a longer character passes before its second byte is looked at. -/
theorem lead_tests {a : UInt8} (hl : 0xC2 ≤ a.toNat) (hu : a.toNat ≤ 0xF4) :
    ¬ a ≤ 0x7F ∧ (a < 0xC2 || 0xF4 < a) = false := by
  simp only [UInt8.le_iff_toNat_le, UInt8.lt_iff_toNat_lt, UInt8.reduceToNat,
    Bool.or_eq_false_iff, decide_eq_false_iff_not]
  omega

theorem lead_range {a : UInt8} (h : ¬ (a < 0xC2 || 0xF4 < a) = true) :
    0xC2 ≤ a.toNat ∧ a.toNat ≤ 0xF4 := by
  simp only [UInt8.lt_iff_toNat_lt, UInt8.reduceToNat, Bool.or_eq_true, decide_eq_true_eq] at h
  omega

theorem decodeFrom_two {a b : UInt8} (hl : 0xC2 ≤ a.toNat) (hu : a.toNat < 0xE0)
    (hb : isSecond a b = true) (offset : Nat) (acc : List Char) (rest : Bytes) :
    decodeFrom offset acc (a :: b :: rest) = decodeFrom (offset + 2)
      (Char.ofNat (a.toNat % 32 * 64 + payload b) :: acc) rest := by
  obtain ⟨h1, h2⟩ := lead_tests hl (by omega)
  have h3 : a < 0xE0 := UInt8.lt_iff_toNat_lt.2 hu
  rw [decodeFrom.eq_def]
  simp [h1, h2, hb, h3]

theorem decodeFrom_three {a b₁ b₂ : UInt8} (hl : 0xE0 ≤ a.toNat) (hu : a.toNat < 0xF0)
    (h₁ : isSecond a b₁ = true) (h₂ : isContinuation b₂ = true) (offset : Nat)
    (acc : List Char) (rest : Bytes) :
    decodeFrom offset acc (a :: b₁ :: b₂ :: rest) = decodeFrom (offset + 3)
      (Char.ofNat ((a.toNat % 16 * 64 + payload b₁) * 64 + payload b₂) :: acc) rest := by
  obtain ⟨h1, h2⟩ := lead_tests (a := a) (by omega) (by omega)
  have h3 : ¬ a < 0xE0 := by simp only [UInt8.lt_iff_toNat_lt, UInt8.reduceToNat]; omega
  have h4 : a < 0xF0 := UInt8.lt_iff_toNat_lt.2 hu
  rw [decodeFrom.eq_def]
  simp [h1, h2, h₁, h₂, h3, h4]

theorem decodeFrom_four {a b₁ b₂ b₃ : UInt8} (hl : 0xF0 ≤ a.toNat) (hu : a.toNat ≤ 0xF4)
    (h₁ : isSecond a b₁ = true) (h₂ : isContinuation b₂ = true)
    (h₃ : isContinuation b₃ = true) (offset : Nat) (acc : List Char) (rest : Bytes) :
    decodeFrom offset acc (a :: b₁ :: b₂ :: b₃ :: rest) = decodeFrom (offset + 4)
      (Char.ofNat (((a.toNat % 8 * 64 + payload b₁) * 64 + payload b₂) * 64 + payload b₃) :: acc)
      rest := by
  obtain ⟨h1, h2⟩ := lead_tests (a := a) (by omega) hu
  have h3 : ¬ a < 0xE0 := by simp only [UInt8.lt_iff_toNat_lt, UInt8.reduceToNat]; omega
  have h4 : ¬ a < 0xF0 := by simp only [UInt8.lt_iff_toNat_lt, UInt8.reduceToNat]; omega
  rw [decodeFrom.eq_def]
  simp [h1, h2, h₁, h₂, h₃, h3, h4]

theorem ofNat_eq_of_toNat {c : Char} {n : Nat} (h : n = c.toNat) : Char.ofNat n = c := by
  rw [h, Char.ofNat_toNat]

theorem decodeFrom_encodeChar (c : Char) (offset : Nat) (acc : List Char) (rest : Bytes) :
    decodeFrom offset acc (String.utf8EncodeChar c ++ rest) =
      decodeFrom (offset + (String.utf8EncodeChar c).length) (c :: acc) rest := by
  have hvalid : c.toNat < 0xD800 ∨ 0xDFFF < c.toNat ∧ c.toNat < 0x110000 := c.valid
  unfold String.utf8EncodeChar
  simp only [Char.toNat_val]
  split
  · have ha : (UInt8.ofNat c.toNat).toNat = c.toNat := by rw [UInt8.toNat_ofNat']; omega
    rw [List.singleton_append, decodeFrom_one (by omega), ofNat_eq_of_toNat ha]
    rfl
  split
  · rw [List.cons_append, List.singleton_append, decodeFrom_two, ofNat_eq_of_toNat]
    · rfl
    · simp only [payload, UInt8.toNat_ofNat']; omega
    · simp only [UInt8.toNat_ofNat']; omega
    · simp only [UInt8.toNat_ofNat']; omega
    · simp only [isSecond_iff, UInt8.toNat_ofNat']; omega
  split
  · rw [List.cons_append, List.cons_append, List.singleton_append, decodeFrom_three,
      ofNat_eq_of_toNat]
    · rfl
    · simp only [payload, UInt8.toNat_ofNat']; omega
    · simp only [UInt8.toNat_ofNat']; omega
    · simp only [UInt8.toNat_ofNat']; omega
    · simp only [isSecond_iff, UInt8.toNat_ofNat']; omega
    · simp only [isContinuation_iff, UInt8.toNat_ofNat']; omega
  · rw [List.cons_append, List.cons_append, List.cons_append, List.singleton_append,
      decodeFrom_four, ofNat_eq_of_toNat]
    · rfl
    · simp only [payload, UInt8.toNat_ofNat']; omega
    · simp only [UInt8.toNat_ofNat']; omega
    · simp only [UInt8.toNat_ofNat']; omega
    · simp only [isSecond_iff, UInt8.toNat_ofNat']; omega
    · simp only [isContinuation_iff, UInt8.toNat_ofNat']; omega
    · simp only [isContinuation_iff, UInt8.toNat_ofNat']; omega

/-! ## Texts -/

theorem decodeFrom_flatMap (cs : List Char) (offset : Nat) (acc : List Char) :
    decodeFrom offset acc (cs.flatMap String.utf8EncodeChar) = .ok (acc.reverse ++ cs) := by
  induction cs generalizing offset acc with
  | nil => simp [decodeFrom]
  | cons c cs ih => rw [List.flatMap_cons, decodeFrom_encodeChar, ih, List.reverse_cons,
      List.append_assoc, List.singleton_append]

/-- A character in front of what was read in the rest. -/
theorem flatMap_encodeChar_cons {acc cs : List Char} {c : Char} {bytes rest : Bytes}
    (hc : String.utf8EncodeChar c = bytes)
    (h : ∃ more, cs = (c :: acc).reverse ++ more ∧ rest = more.flatMap String.utf8EncodeChar) :
    ∃ more, cs = acc.reverse ++ more ∧ bytes ++ rest = more.flatMap String.utf8EncodeChar := by
  obtain ⟨more, rfl, rfl⟩ := h
  exact ⟨c :: more, by simp, by rw [List.flatMap_cons, hc]⟩

theorem eq_flatMap_of_decodeFrom {offset : Nat} {acc cs : List Char} {bytes : Bytes}
    (h : decodeFrom offset acc bytes = .ok cs) :
    ∃ more, cs = acc.reverse ++ more ∧ bytes = more.flatMap String.utf8EncodeChar := by
  fun_induction decodeFrom offset acc bytes generalizing cs with
  | case1 => cases h; exact ⟨[], by simp, rfl⟩
  | case2 offset acc a rest ha ih =>
    exact flatMap_encodeChar_cons (encodeChar_of_one (UInt8.le_iff_toNat_le.1 ha)) (ih h)
  | case6 offset acc a _ h2 b rest hb hu _ =>
    rename_i ih
    obtain ⟨hl, -⟩ := lead_range h2
    have hb := (isSecond_iff a b).1 (by simpa using hb)
    exact flatMap_encodeChar_cons
      (encodeChar_of_two hl (UInt8.lt_iff_toNat_lt.1 hu) hb.1) (ih h)
  | case9 offset acc a _ h2 b₁ hb₁ hl b₂ rest hb₂ hu _ =>
    rename_i ih
    have hl : 0xE0 ≤ a.toNat := by simpa [UInt8.lt_iff_toNat_lt] using hl
    have hb₂ := (isContinuation_iff b₂).1 (by simpa using hb₂)
    exact flatMap_encodeChar_cons
      (encodeChar_of_three hl (UInt8.lt_iff_toNat_lt.1 hu) (by simpa using hb₁) hb₂) (ih h)
  | case12 offset acc a _ h2 b₁ hb₁ _ b₂ hb₂ hl b₃ rest hb₃ _ =>
    rename_i ih
    obtain ⟨-, hu⟩ := lead_range h2
    have hl : 0xF0 ≤ a.toNat := by simpa [UInt8.lt_iff_toNat_lt] using hl
    have hb₂ := (isContinuation_iff b₂).1 (by simpa using hb₂)
    have hb₃ := (isContinuation_iff b₃).1 (by simpa using hb₃)
    exact flatMap_encodeChar_cons
      (encodeChar_of_four hl hu (by simpa using hb₁) hb₂ hb₃) (ih h)
  | _ => cases h

/-- A byte string is read as a text exactly when it is the text's encoding. -/
theorem decode_eq_ok_iff {bytes : Bytes} {s : String} :
    decode bytes = .ok s ↔ bytes = encode s := by
  unfold decode encode
  refine ⟨fun h => ?_, fun hx => ?_⟩
  · cases hd : decodeFrom 0 [] bytes with
    | error e => rw [hd] at h; cases h
    | ok cs =>
      rw [hd] at h
      cases h
      obtain ⟨more, rfl, rfl⟩ := eq_flatMap_of_decodeFrom hd
      simp
  · obtain rfl := hx
    rw [decodeFrom_flatMap]
    simp [Except.map]

/-! ## Lengths -/

/-- The number of bytes of a list of characters. -/
def width (cs : List Char) : Nat := (cs.flatMap String.utf8EncodeChar).length

theorem width_nil : width [] = 0 := rfl

theorem width_cons (c : Char) (cs : List Char) : width (c :: cs) = c.utf8Size + width cs := by
  rw [width, List.flatMap_cons, List.length_append, String.length_utf8EncodeChar, width]

theorem width_append (cs ds : List Char) : width (cs ++ ds) = width cs + width ds := by
  rw [width, List.flatMap_append, List.length_append, width, width]

theorem width_reverse (cs : List Char) : width cs.reverse = width cs := by
  induction cs with
  | nil => rfl
  | cons c cs ih =>
    rw [List.reverse_cons, width_append, ih, width_cons, width_cons, width_nil]
    omega

theorem width_dropWhile_le (p : Char → Bool) (cs : List Char) :
    width (cs.dropWhile p) ≤ width cs := by
  have h := width_append (cs.takeWhile p) (cs.dropWhile p)
  rw [List.takeWhile_append_dropWhile] at h
  omega

theorem width_tail_le (cs : List Char) : width cs.tail ≤ width cs := by
  cases cs with
  | nil => exact Nat.le_refl _
  | cons c cs =>
    rw [List.tail_cons, width_cons]
    omega

theorem length_le_width (cs : List Char) : cs.length ≤ width cs := by
  induction cs with
  | nil => exact Nat.le_refl _
  | cons c cs ih =>
    have hc := c.utf8Size_pos
    rw [List.length_cons, width_cons]
    omega

theorem length_encode (s : String) : (encode s).length = width s.toList := rfl

end SaveTree.Utf8
