/-
  Printed texts and integers read back.

  An escape is read as the character it stands for, so a text is read back up to its closing
  quote. The digits of a number are read as long as they go on, so a number is read back where
  neither a digit, a point nor an exponent stands behind it.
-/
import SaveTree.Json.Reader
import SaveTree.Proofs.Json.Print
import SaveTree.Proofs.Path.Parse

namespace SaveTree.Json

open SaveTree.Path (Ends ends_cons dropWhile_append_of_ends takeWhile_append_of_ends)

variable {c : Char} {rest : List Char} {n : Nat}

/-! ## Texts -/

theorem hex4?_control : ∀ n < 0x20,
    hex4? ['0', '0', Nat.digitChar (n / 16), Nat.digitChar (n % 16)] = some n := by
  decide

theorem readUnit_control (h : c.toNat < 0x20) (rest : List Char) :
    readUnit ('0' :: '0' :: Nat.digitChar (c.toNat / 16) :: Nat.digitChar (c.toNat % 16) :: rest) =
      .ok (c, rest) := by
  have hhex : readHex ('0' :: '0' :: Nat.digitChar (c.toNat / 16) ::
      Nat.digitChar (c.toNat % 16) :: rest) = .ok (c.toNat, rest) := by
    unfold readHex
    simp only [List.take_succ_cons, List.take_zero, hex4?_control c.toNat h]
    rfl
  unfold readUnit
  rw [hhex]
  dsimp only [bind, Except.bind]
  rw [if_neg (by omega), if_neg (by omega), Char.ofNat_toNat]

theorem readChars_letter {e : Char} (he : e ≠ 'u') (h : letterEscape? e = some c)
    (out rest : List Char) :
    readChars out ('\\' :: e :: rest) = readChars (c :: out) rest := by
  rw [readChars.eq_def]
  simp [he, h]

theorem readChars_control (h : c.toNat < 0x20) (out rest : List Char) :
    readChars out (controlEscape c ++ rest) = readChars (c :: out) rest := by
  have hunit := readUnit_control h rest
  rw [controlEscape, List.cons_append, List.cons_append, readChars.eq_def]
  simp only [List.cons_append, List.nil_append, ↓reduceIte, Char.reduceEq]
  split
  · next hread =>
    rw [hunit] at hread
    cases hread
    rfl
  · next hread =>
    rw [hunit] at hread
    cases hread

theorem readChars_escape (c : Char) (out rest : List Char) :
    readChars out (escape c ++ rest) = readChars (c :: out) rest := by
  unfold escape
  -- the characters that have a letter, then those that have none and those kept as they are
  iterate 7
    split
    next h => exact readChars_letter (by decide) (by rw [h]; rfl) out rest
  split
  next h => exact readChars_control h out rest
  next hquote hslash _ _ _ _ _ hcontrol =>
    rw [List.singleton_append, readChars.eq_def]
    simp [hquote, hslash, hcontrol]

theorem readChars_quoted (cs out rest : List Char) :
    readChars out (cs.flatMap escape ++ '"' :: rest) =
      .ok (String.ofList (out.reverse ++ cs), rest) := by
  induction cs generalizing out with
  | nil =>
    rw [List.flatMap_nil, List.nil_append, readChars.eq_def]
    simp
  | cons c cs ih =>
    rw [List.flatMap_cons, List.append_assoc, readChars_escape, ih]
    simp

theorem quoted_append (s : String) (rest : List Char) :
    quoted s ++ rest = '"' :: (s.toList.flatMap escape ++ '"' :: rest) := by
  simp [quoted]

/-- A text is read back, its opening quote already read. -/
theorem readString_quoted (s : String) (rest : List Char) :
    readString (s.toList.flatMap escape ++ '"' :: rest) = .ok (s, rest) := by
  rw [readString, readChars_quoted, List.reverse_nil, List.nil_append, String.ofList_toList]

/-! ## Integers -/

theorem le_ofDigitChars (ds : List Char) (n : Nat) : n ≤ Nat.ofDigitChars 10 ds n := by
  induction ds generalizing n with
  | nil => simp
  | cons d ds ih =>
    rw [Nat.ofDigitChars_cons]
    exact Nat.le_trans (by omega) (ih _)

theorem absorb_digits {limit : Nat} {ds : List Char} (hds : ∀ d ∈ ds, d.isDigit = true)
    (hrest : Ends Char.isDigit rest) {n : Nat} (hn : Nat.ofDigitChars 10 ds n ≤ limit)
    (count : Nat) :
    absorb limit n count (ds ++ rest) =
      (Nat.ofDigitChars 10 ds n, count + ds.length, rest) := by
  induction ds generalizing n count with
  | nil =>
    rw [List.nil_append, Nat.ofDigitChars_nil]
    cases rest with
    | nil => rfl
    | cons c cs =>
      have hc := hrest c rfl
      rw [absorb, hc, if_neg (by simp)]
      rfl
  | cons d ds ih =>
    obtain ⟨hd, hds⟩ := List.forall_mem_cons.1 hds
    have hzero : '0'.toNat = 48 := rfl
    rw [Nat.ofDigitChars_cons, hzero] at hn ⊢
    have hstep : 10 * n + (d.toNat - 48) ≤ limit := Nat.le_trans (le_ofDigitChars ds _) hn
    rw [List.cons_append, absorb, if_pos ⟨hd, hstep⟩, ih hds hn, List.length_cons,
      Nat.add_right_comm, Nat.add_assoc]

/-- The digits of a number start with a zero only if there is no other. -/
theorem eq_nil_of_toDigits {ds : List Char} (h : Nat.toDigits 10 n = '0' :: ds) : ds = [] := by
  induction n using Nat.strongRecOn generalizing ds with
  | ind n ih =>
  rw [Nat.toDigits_eq_if (by decide)] at h
  split at h
  · exact (List.cons.inj h).2.symm
  next hn =>
  obtain ⟨c, cs, hcs⟩ := List.exists_cons_of_ne_nil (Nat.toDigits_ne_nil (n := n / 10) (b := 10))
  rw [hcs, List.cons_append] at h
  obtain ⟨rfl, -⟩ := List.cons.inj h
  obtain rfl := ih (n / 10) (by omega) hcs
  have hvalue := Nat.ofDigitChars_ten_toDigits (n := n / 10)
  rw [hcs] at hvalue
  have hzero : n / 10 = 0 := hvalue.symm
  omega

/-- The character goes on with a number behind its digits. -/
def continuesNumber (c : Char) : Bool := c.isDigit || c == '.' || c == 'e' || c == 'E'

theorem readNumber_toDigits (negative : Bool) (hn : n ≤ maxSignificand)
    (hrest : Ends continuesNumber rest) :
    readNumber negative (Nat.toDigits 10 n ++ rest) = .ok (makeInteger negative n, rest) := by
  have hends : Ends Char.isDigit rest := by
    intro c hc
    have := hrest c hc
    simp only [continuesNumber, Bool.or_eq_false_iff] at this
    exact this.1.1.1
  have hdigits : ∀ d ∈ Nat.toDigits 10 n, d.isDigit = true :=
    fun d hd => Nat.isDigit_of_mem_toDigits (by decide) (by decide) hd
  have habsorb : absorb maxSignificand 0 0 (Nat.toDigits 10 n ++ rest) =
      (n, (Nat.toDigits 10 n).length, rest) := by
    rw [absorb_digits hdigits hends (by rwa [Nat.ofDigitChars_ten_toDigits]),
      Nat.ofDigitChars_ten_toDigits, Nat.zero_add]
  have hnone : ∀ d ∈ ([] : List Char), d.isDigit = true := nofun
  have hskip : skipDigits rest = rest := dropWhile_append_of_ends hnone hends
  have htake : rest.takeWhile Char.isDigit = [] := takeWhile_append_of_ends hnone hends
  obtain ⟨d, ds, hds⟩ := List.exists_cons_of_ne_nil (Nat.toDigits_ne_nil (n := n) (b := 10))
  have hzero : ¬ (d = '0' ∧ startsWithDigit (ds ++ rest) = true) := by
    rintro ⟨rfl, hstarts⟩
    obtain rfl := eq_nil_of_toDigits hds
    cases rest with
    | nil => cases hstarts
    | cons c cs => exact absurd hstarts (by simp [startsWithDigit, hends c rfl])
  rw [hds] at habsorb hdigits ⊢
  unfold readNumber
  rw [List.cons_append] at habsorb ⊢
  dsimp only
  rw [hdigits d List.mem_cons_self, if_neg (by simp), if_neg hzero, habsorb]
  dsimp only
  rw [hskip, htake]
  split
  · exact absurd (hrest _ rfl) (by decide)
  · exact absurd (hrest _ rfl) (by decide)
  · exact absurd (hrest _ rfl) (by decide)
  · rfl

end SaveTree.Json
