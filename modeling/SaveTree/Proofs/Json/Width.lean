/-
  How wide what is read can be.

  No reader of JSON gives back more text than it was given, and an escape is at least as wide as
  the character it stands for.
-/
import SaveTree.Json.Reader
import SaveTree.Proofs.Text.Utf8

namespace SaveTree.Json

open Utf8

variable {c : Char} {cs rest out : List Char} {s : String}

/-! ## Texts -/

theorem width_readHex {n : Nat} (h : readHex cs = .ok (n, rest)) : width rest + 4 ≤ width cs := by
  unfold readHex at h
  split at h
  · next hn =>
    cases h
    unfold hex4? at hn
    split at hn
    · next a b c d hd =>
      have hw := width_append (cs.take 4) (cs.drop 4)
      rw [List.take_append_drop, hd] at hw
      simp only [width_cons, width_nil] at hw
      have := a.utf8Size_pos
      have := b.utf8Size_pos
      have := c.utf8Size_pos
      have := d.utf8Size_pos
      omega
    · cases hn
  · split at h <;> cases h

theorem width_readEscapeChar (h : readEscapeChar c cs = .ok rest) : width rest ≤ width cs := by
  unfold readEscapeChar at h
  split at h
  · cases h
  · split at h <;> cases h
    rw [width_cons]
    omega

/-- Four digits are as wide as any character. -/
theorem width_readUnit (h : readUnit cs = .ok (c, rest)) :
    c.utf8Size + width rest ≤ width cs := by
  have hc := c.utf8Size_le_four
  unfold readUnit at h
  dsimp only [bind, Except.bind] at h
  split at h
  · cases h
  next high hhigh =>
  have hwidth := width_readHex hhigh
  split at h
  · cases h
  split at h
  · split at h
    · cases h
    next after₁ hr₁ =>
    have := width_readEscapeChar hr₁
    split at h
    · cases h
    next after₂ hr₂ =>
    have := width_readEscapeChar hr₂
    split at h
    · cases h
    next low hlow =>
    have := width_readHex hlow
    split at h
    · obtain ⟨-, rfl⟩ := Prod.mk.inj (Except.ok.inj h)
      omega
    · cases h
  · obtain ⟨-, rfl⟩ := Prod.mk.inj (Except.ok.inj h)
    omega

theorem utf8Size_letterEscape {e : Char} (h : letterEscape? e = some c) : c.utf8Size = 1 := by
  unfold letterEscape? at h
  split at h
  · next he =>
    cases h
    rcases he with rfl | rfl | rfl <;> rfl
  · split at h
    · cases h; rfl
    split at h
    · cases h; rfl
    split at h
    · cases h; rfl
    split at h
    · cases h; rfl
    split at h
    · cases h; rfl
    · cases h

theorem width_readChars (h : readChars out cs = .ok (s, rest)) :
    width s.toList + width rest ≤ width out + width cs := by
  fun_induction readChars out cs generalizing s rest with
  | case2 out after =>
    cases h
    rw [String.toList_ofList, width_reverse, width_cons]
    omega
  | case4 out text c after hunit _ ih =>
    have hwidth := width_readUnit hunit
    have hih := ih h
    simp only [width_cons] at hih ⊢
    omega
  | case6 out e text _ c hc _ ih =>
    have hwidth := utf8Size_letterEscape hc
    have hpos := e.utf8Size_pos
    have hih := ih h
    simp only [width_cons] at hih ⊢
    omega
  | case9 out c text _ _ _ ih =>
    have hih := ih h
    simp only [width_cons] at hih ⊢
    omega
  | _ => cases h

theorem width_readString (h : readString cs = .ok (s, rest)) :
    width s.toList + width rest ≤ width cs := by
  have hwidth := width_readChars h
  rwa [width_nil, Nat.zero_add] at hwidth

/-! ## Numbers -/

theorem width_skipDigits_le (cs : List Char) : width (skipDigits cs) ≤ width cs :=
  width_dropWhile_le _ cs

theorem width_absorb_le (limit n count : Nat) (cs : List Char) :
    width (absorb limit n count cs).2.2 ≤ width cs := by
  fun_induction absorb limit n count cs with
  | case1 => exact Nat.le_refl _
  | case2 n count c rest _ ih =>
    rw [width_cons]
    omega
  | case3 => exact Nat.le_refl _

variable {negative : Bool} {significand : Nat} {e : Int} {x : JsonNumber}

theorem width_makeFloat (h : makeFloat negative significand e cs = .ok (x, rest)) :
    width rest ≤ width cs := by
  unfold makeFloat at h
  split at h <;> cases h
  exact Nat.le_refl _

theorem width_readExponent (h : readExponent negative significand e cs = .ok (x, rest)) :
    width rest ≤ width cs := by
  unfold readExponent at h
  split at h
  next sign down after hsign =>
  have hafter : width after ≤ width cs := by
    split at hsign <;> cases hsign
    · rw [width_cons]
      omega
    · rw [width_cons]
      omega
    · exact Nat.le_refl _
  split at h
  · cases h
  next c text =>
  split at h
  · cases h
  have habsorb := width_absorb_le maxExponent 0 0 (c :: text)
  generalize absorb maxExponent 0 0 (c :: text) = absorbed at h habsorb
  obtain ⟨n, count, digits⟩ := absorbed
  dsimp only at h habsorb
  split at h
  · have := width_makeFloat h
    omega
  split at h
  · cases h
  · cases h
    have := width_skipDigits_le digits
    omega

theorem width_readExponent? (h : readExponent? negative significand e cs = .ok (x, rest)) :
    width rest ≤ width cs := by
  unfold readExponent? at h
  split at h
  · have := width_readExponent h
    rw [width_cons]
    omega
  · have := width_readExponent h
    rw [width_cons]
    omega
  · exact width_makeFloat h

theorem width_readFraction (h : readFraction negative significand e cs = .ok (x, rest)) :
    width rest ≤ width cs := by
  unfold readFraction at h
  have habsorb := width_absorb_le maxSignificand significand 0 cs
  generalize absorb maxSignificand significand 0 cs = absorbed at h habsorb
  obtain ⟨n, count, digits⟩ := absorbed
  dsimp only at h habsorb
  split at h
  · have := width_readExponent? h
    have := width_skipDigits_le digits
    omega
  split at h
  · split at h <;> cases h
  · have := width_readExponent? h
    omega

theorem width_readNumber (h : readNumber negative cs = .ok (x, rest)) :
    width rest ≤ width cs := by
  unfold readNumber at h
  split at h
  · cases h
  next c text =>
  split at h
  · cases h
  split at h
  · cases h
  have habsorb := width_absorb_le maxSignificand 0 0 (c :: text)
  generalize absorb maxSignificand 0 0 (c :: text) = absorbed at h habsorb
  obtain ⟨n, count, digits⟩ := absorbed
  dsimp only at h habsorb
  have hskip := width_skipDigits_le digits
  split at h
  · next hafter =>
    have := width_readFraction h
    rw [hafter, width_cons] at hskip
    omega
  · next hafter =>
    have := width_readExponent h
    rw [hafter, width_cons] at hskip
    omega
  · next hafter =>
    have := width_readExponent h
    rw [hafter, width_cons] at hskip
    omega
  · split at h
    · cases h
      omega
    · have := width_makeFloat h
      omega

/-! ## Arrays and objects -/

theorem width_skipBlanks_le (cs : List Char) : width (skipBlanks cs) ≤ width cs :=
  width_dropWhile_le _ cs

theorem width_nextItem {first : Bool} (h : nextItem first cs = .ok (some rest)) :
    width rest ≤ width cs := by
  have hskip := width_skipBlanks_le cs
  unfold nextItem at h
  split at h
  · cases h
  next c text hc =>
  rw [hc] at hskip
  split at h
  · cases h
  split at h
  · cases h
    exact hskip
  split at h
  · have htext := width_skipBlanks_le text
    rw [width_cons] at hskip
    split at h
    · cases h
    next d text' hd =>
    rw [hd] at htext
    split at h <;> cases h
    omega
  · cases h

theorem width_nextMember {first : Bool} (h : nextMember first cs = .ok (some rest)) :
    width rest ≤ width cs := by
  have hskip := width_skipBlanks_le cs
  unfold nextMember at h
  split at h
  · cases h
  next c text hc =>
  rw [hc, width_cons] at hskip
  split at h
  · cases h
  split at h
  · split at h <;> cases h
    omega
  split at h
  · have htext := width_skipBlanks_le text
    split at h
    · cases h
    next d text' hd =>
    rw [hd, width_cons] at htext
    split at h
    · cases h
      omega
    · split at h <;> cases h
  · cases h

theorem width_readColon (h : readColon cs = .ok rest) : width rest ≤ width cs := by
  have hskip := width_skipBlanks_le cs
  unfold readColon at h
  split at h
  · cases h
  next c text hc =>
  rw [hc, width_cons] at hskip
  split at h <;> cases h
  omega

theorem width_readWord {word : List Char} (h : readWord word cs = .ok rest) :
    width rest ≤ width cs := by
  induction word generalizing cs with
  | nil =>
    cases h
    exact Nat.le_refl _
  | cons w ws ih =>
    cases cs with
    | nil => cases h
    | cons c cs =>
      rw [readWord] at h
      split at h
      · have := ih h
        rw [width_cons]
        omega
      · cases h

end SaveTree.Json
