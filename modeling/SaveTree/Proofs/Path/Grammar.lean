/-
  The text of a path, as a grammar.

  `Spells cs ks`: the characters are a path text and `ks` are its steps. A text that is not empty
  is a name with steps behind it, each a point and a name or an index in brackets. The grammar
  mentions no reader. All it has to know of the alphanumeric characters is that the point and the
  brackets are none.
-/
import SaveTree.Number.Power
import SaveTree.Path.Basic
import SaveTree.Proofs.Text.CharSet

namespace SaveTree.Path

/-- The character may stand in a name. -/
def NameChar (c : Char) : Prop := c ∈ CharSet.alphanumeric ∨ c = '_' ∨ c = '-'

/-- The characters are a name. -/
def Name (cs : List Char) : Prop := cs ≠ [] ∧ ∀ c ∈ cs, NameChar c

/-- The characters are the decimal digits of a number, leading zeros allowed. -/
inductive Numeral : List Char → Nat → Prop
  | last {d : Nat} (hd : d < 10) : Numeral [Nat.digitChar d] d
  | cons {d n : Nat} {cs : List Char} (hd : d < 10) (h : Numeral cs n) :
      Numeral (Nat.digitChar d :: cs) (d * 10 ^ cs.length + n)

/-- The characters are steps behind a first name. -/
inductive Steps : List Char → List PathKey → Prop
  | nil : Steps [] []
  | field {name cs : List Char} {ks : List PathKey} (hn : Name name) (h : Steps cs ks) :
      Steps ('.' :: (name ++ cs)) (.field (String.ofList name) :: ks)
  | index {digits cs : List Char} {n : Nat} {ks : List PathKey} (hd : Numeral digits n)
      (hn : n ≤ 2 ^ 64 - 1) (h : Steps cs ks) :
      Steps ('[' :: (digits ++ ']' :: cs)) (.index (UInt64.ofNat n) :: ks)

/-- The characters are a path text with these steps. -/
inductive Spells : List Char → List PathKey → Prop
  | root : Spells [] []
  | first {name cs : List Char} {ks : List PathKey} (hn : Name name) (h : Steps cs ks) :
      Spells (name ++ cs) (.field (String.ofList name) :: ks)

/-! ## Numerals -/

theorem exists_digitChar_iff (c : Char) :
    (∃ d, d < 10 ∧ c = Nat.digitChar d) ↔ c.isDigit = true := by
  constructor
  · rintro ⟨d, hd, rfl⟩
    rw [Nat.isDigit_digitChar, decide_eq_true_eq]
    exact hd
  · intro h
    obtain ⟨hl, hu⟩ := Char.isDigit_iff_toNat.1 h
    simp only [Char.reduceToNat] at hl hu
    have hd : c.toNat - 48 < 10 := by omega
    refine ⟨c.toNat - 48, hd, Char.toNat_inj.1 ?_⟩
    rw [Nat.toNat_digitChar_of_lt_ten hd]
    omega

theorem ofDigitChars_cons {d : Nat} (hd : d < 10) (cs : List Char) :
    Nat.ofDigitChars 10 (Nat.digitChar d :: cs) 0 =
      d * 10 ^ cs.length + Nat.ofDigitChars 10 cs 0 := by
  rw [Nat.ofDigitChars_cons_digitChar_of_lt_ten hd, Nat.ofDigitChars_eq_ofDigitChars_zero,
    Nat.mul_zero, Nat.zero_add, Nat.mul_comm]

/-- A numeral is a list of digits that is not empty; the number is what they are read as. -/
theorem numeral_iff {cs : List Char} {n : Nat} :
    Numeral cs n ↔ cs ≠ [] ∧ (∀ c ∈ cs, c.isDigit = true) ∧ Nat.ofDigitChars 10 cs 0 = n := by
  constructor
  · intro h
    induction h with
    | last hd =>
      refine ⟨nofun, ?_, ?_⟩
      · simpa using hd
      · rw [ofDigitChars_cons hd]
        simp
    | cons hd h ih =>
      obtain ⟨-, hc, hv⟩ := ih
      refine ⟨nofun, ?_, ?_⟩
      · simpa using ⟨hd, hc⟩
      · rw [ofDigitChars_cons hd, hv]
  · rintro ⟨hne, hc, rfl⟩
    induction cs with
    | nil => exact absurd rfl hne
    | cons c cs ih =>
      rw [List.forall_mem_cons, ← exists_digitChar_iff] at hc
      obtain ⟨⟨d, hd, rfl⟩, hc⟩ := hc
      rw [ofDigitChars_cons hd]
      by_cases hcs : cs = []
      · subst hcs
        simpa using Numeral.last hd
      · exact .cons hd (ih hcs hc)

/-- The digits a number is written with are a numeral of it. -/
theorem numeral_toDigits (n : Nat) : Numeral (Nat.toDigits 10 n) n :=
  numeral_iff.2 ⟨Nat.toDigits_ne_nil,
    fun _ hc => Nat.isDigit_of_mem_toDigits (by decide) (by decide) hc,
    Nat.ofDigitChars_ten_toDigits⟩

end SaveTree.Path
