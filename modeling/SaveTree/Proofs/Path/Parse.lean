/-
  Reading path text: the parser accepts exactly the grammar.

  A name or a run of digits is taken as long as it goes on, so each reader is described by the
  text it takes and by what may stand behind that text (`readName_eq_ok_iff`,
  `readIndex_eq_ok_iff`). Behind a name the grammar puts a point, a bracket or the end, none of
  which goes on with a name, so the longest name is the right one.
-/
import Mathlib.Data.List.TakeWhile
import SaveTree.Path.Parse
import SaveTree.Proofs.Path.Grammar

namespace SaveTree.Path

/-! ## Characters of names -/

theorem isNameChar_iff (c : Char) : isNameChar c = true ↔ NameChar c := by
  unfold isNameChar NameChar
  split
  · next h =>
    rw [CharSet.mem_alphanumeric_of_lt h]
    simp [or_assoc]
  · next h =>
    rw [CharSet.contains_iff CharSet.ordered_alphanumeric]
    have hu : c ≠ '_' := by
      rintro rfl
      exact h (by decide)
    have hh : c ≠ '-' := by
      rintro rfl
      exact h (by decide)
    simp [hu, hh]

instance (c : Char) : Decidable (NameChar c) := decidable_of_iff _ (isNameChar_iff c)

instance (cs : List Char) : Decidable (Name cs) :=
  have : Decidable (∀ c ∈ cs, NameChar c) := List.decidableBAll _ cs
  inferInstanceAs (Decidable (cs ≠ [] ∧ ∀ c ∈ cs, NameChar c))

/-- The text does not go on with a character of the class. -/
def Ends (p : Char → Bool) (cs : List Char) : Prop := ∀ c, cs.head? = some c → p c = false

section Ends

variable {p : Char → Bool} {c : Char} {xs cs : List Char}

theorem ends_cons (h : p c = false) : Ends p (c :: cs) := by
  intro d hd
  obtain rfl := Option.some.inj hd
  exact h

theorem ends_dropWhile (p : Char → Bool) (cs : List Char) : Ends p (cs.dropWhile p) := by
  intro c hc
  have h := List.head?_dropWhile_not p cs
  rw [hc] at h
  exact h

theorem ends_congr {ds : List Char} (h : Ends p cs) (hsame : ds.head? = cs.head?) : Ends p ds := by
  intro c hc
  rw [hsame] at hc
  exact h c hc

theorem ends_append (hx : Ends p xs) (hc : Ends p cs) : Ends p (xs ++ cs) := by
  cases xs with
  | nil => exact hc
  | cons x xs => exact hx

theorem takeWhile_eq_nil_iff_ends : cs.takeWhile p = [] ↔ Ends p cs := by
  cases cs with
  | nil => simp [Ends]
  | cons c cs => simp [Ends, List.takeWhile_cons]

theorem dropWhile_of_ends (h : Ends p cs) : cs.dropWhile p = cs := by
  cases cs with
  | nil => rfl
  | cons c cs => simp [h c rfl]

theorem takeWhile_append_of_ends (hx : ∀ x ∈ xs, p x = true) (hc : Ends p cs) :
    (xs ++ cs).takeWhile p = xs := by
  rw [List.takeWhile_append_of_pos hx, takeWhile_eq_nil_iff_ends.2 hc, List.append_nil]

theorem dropWhile_append_of_ends (hx : ∀ x ∈ xs, p x = true) (hc : Ends p cs) :
    (xs ++ cs).dropWhile p = cs := by
  rw [List.dropWhile_append_of_pos hx, dropWhile_of_ends hc]

end Ends

/-- Steps do not go on with a character of a name. -/
theorem Steps.ends {cs : List Char} {ks : List PathKey} (h : Steps cs ks) :
    Ends isNameChar cs := by
  cases h with
  | nil => exact nofun
  | field hn h => exact ends_cons (by decide)
  | index hd hn h => exact ends_cons (by decide)

/-! ## Names and indexes -/

theorem readName_eq_ok_iff {cs rest : List Char} {name : String} :
    readName cs = .ok (name, rest) ↔
      ∃ ns, Name ns ∧ name = String.ofList ns ∧ cs = ns ++ rest ∧ Ends isNameChar rest := by
  constructor
  · intro h
    unfold readName at h
    split at h
    · cases h
    · next hne =>
      cases h
      refine ⟨_, ⟨hne, fun c hc => ?_⟩, rfl, List.takeWhile_append_dropWhile.symm,
        ends_dropWhile _ _⟩
      exact (isNameChar_iff c).1 (List.mem_takeWhile_imp hc)
  · rintro ⟨ns, ⟨hne, hns⟩, rfl, rfl, hr⟩
    have hx : ∀ c ∈ ns, isNameChar c = true := fun c hc => (isNameChar_iff c).2 (hns c hc)
    unfold readName
    rw [takeWhile_append_of_ends hx hr, dropWhile_append_of_ends hx hr]
    obtain ⟨c, ns, rfl⟩ := List.exists_cons_of_ne_nil hne
    rfl

theorem readIndex_eq_ok_iff {cs rest : List Char} {i : UInt64} :
    readIndex cs = .ok (i, rest) ↔ ∃ ds n, Numeral ds n ∧ n ≤ 2 ^ 64 - 1 ∧
      i = UInt64.ofNat n ∧ cs = ds ++ ']' :: rest := by
  constructor
  · intro h
    unfold readIndex at h
    split at h
    · cases h
    · next hne =>
      dsimp only at h
      split at h
      · next hlt =>
        split at h
        · next hr =>
          cases h
          refine ⟨_, _, numeral_iff.2 ⟨hne, fun c hc => List.mem_takeWhile_imp hc, rfl⟩,
            Nat.le_sub_one_of_lt hlt, rfl, ?_⟩
          rw [← hr, List.takeWhile_append_dropWhile]
        · cases h
      · cases h
  · rintro ⟨ds, n, hd, hn, rfl, rfl⟩
    obtain ⟨hne, hds, rfl⟩ := numeral_iff.1 hd
    have hr : Ends Char.isDigit (']' :: rest) := ends_cons (by decide)
    unfold readIndex
    rw [takeWhile_append_of_ends hds hr, dropWhile_append_of_ends hds hr]
    obtain ⟨c, ds, rfl⟩ := List.exists_cons_of_ne_nil hne
    dsimp only
    rw [if_pos (by omega)]
    rfl

/-! ## Steps -/

@[simp] theorem keys_field (p : Path) (name : String) :
    (p.field name).keys = p.keys ++ [.field name] := keys_step p _

@[simp] theorem keys_index (p : Path) (i : UInt64) : (p.index i).keys = p.keys ++ [.index i] :=
  keys_step p _

theorem readSteps_field {cs rest : List Char} {name : String} (h : readName cs = .ok (name, rest))
    (p : Path) : readSteps p ('.' :: cs) = readSteps (p.field name) rest := by
  rw [readSteps, if_pos rfl]
  split
  · next h' =>
    cases h.symm.trans h'
    rfl
  · next h' => cases h.symm.trans h'

theorem readSteps_index {cs rest : List Char} {i : UInt64} (h : readIndex cs = .ok (i, rest))
    (p : Path) : readSteps p ('[' :: cs) = readSteps (p.index i) rest := by
  rw [readSteps, if_neg (by decide), if_pos rfl]
  split
  · next h' =>
    cases h.symm.trans h'
    rfl
  · next h' => cases h.symm.trans h'

/-- Behind the path `p` the reader takes the steps of the grammar and no others. -/
theorem readSteps_eq_ok_iff {p q : Path} {cs : List Char} :
    readSteps p cs = .ok q ↔ ∃ ks, Steps cs ks ∧ q.keys = p.keys ++ ks := by
  constructor
  · intro h
    fun_induction readSteps p cs with
    | case1 p =>
      cases h
      exact ⟨[], .nil, by simp⟩
    | case2 p cs name rest hr ih =>
      obtain ⟨ks, hks, hq⟩ := ih h
      obtain ⟨ns, hns, rfl, rfl, -⟩ := readName_eq_ok_iff.1 hr
      exact ⟨_, .field hns hks, by simpa using hq⟩
    | case3 => cases h
    | case4 p cs i rest hr _ ih =>
      obtain ⟨ks, hks, hq⟩ := ih h
      obtain ⟨ds, n, hd, hn, rfl, rfl⟩ := readIndex_eq_ok_iff.1 hr
      exact ⟨_, .index hd hn hks, by simpa using hq⟩
    | case5 => cases h
    | case6 => cases h
  · rintro ⟨ks, h, hq⟩
    induction h generalizing p with
    | nil =>
      rw [List.append_nil, keys_inj] at hq
      rw [readSteps, hq]
    | field hn h ih =>
      rw [readSteps_field (readName_eq_ok_iff.2 ⟨_, hn, rfl, rfl, h.ends⟩)]
      exact ih (by simpa using hq)
    | index hd hn h ih =>
      rw [readSteps_index (readIndex_eq_ok_iff.2 ⟨_, _, hd, hn, rfl, rfl⟩)]
      exact ih (by simpa using hq)

/-! ## Whole texts -/

theorem readAll_append {name : List Char} (hn : Name name) {cs : List Char}
    (hc : Ends isNameChar cs) :
    readAll (name ++ cs) = readSteps (root.field (String.ofList name)) cs := by
  have hr := readName_eq_ok_iff.2 ⟨name, hn, rfl, rfl, hc⟩
  unfold readAll
  split
  · next h => exact absurd (List.append_eq_nil_iff.1 h).1 hn.1
  · rw [hr]
    rfl

theorem readAll_eq_ok_iff {cs : List Char} {p : Path} :
    readAll cs = .ok p ↔ Spells cs p.keys := by
  constructor
  · intro h
    unfold readAll at h
    split at h
    · cases h
      exact .root
    · cases hn : readName cs with
      | error e => rw [hn] at h; cases h
      | ok r =>
        obtain ⟨name, rest⟩ := r
        rw [hn] at h
        obtain ⟨ns, hns, rfl, rfl, -⟩ := readName_eq_ok_iff.1 hn
        obtain ⟨ks, hks, hp⟩ := readSteps_eq_ok_iff.1 h
        rw [hp]
        exact .first hns hks
  · intro h
    generalize hks : p.keys = ks at h
    cases h with
    | root =>
      rw [← keys_root, keys_inj] at hks
      rw [hks, readAll]
    | first hn h =>
      rw [readAll_append hn h.ends]
      exact readSteps_eq_ok_iff.2 ⟨_, h, by simpa using hks⟩

theorem parse_eq_ok_iff {t : String} {p : Path} : parse t = .ok p ↔ Spells t.toList p.keys := by
  rw [← readAll_eq_ok_iff, parse]
  cases readAll t.toList with
  | ok q => simp
  | error stop => simp

/-- The texts that are read as a path are those of the grammar, and the steps are the ones the
text spells. -/
theorem parse_keys_eq_ok_iff (t : String) (ks : List PathKey) :
    (parse t).map keys = .ok ks ↔ Spells t.toList ks := by
  constructor
  · intro h
    cases hp : parse t with
    | error e => rw [hp] at h; cases h
    | ok p =>
      rw [hp] at h
      cases h
      exact parse_eq_ok_iff.1 hp
  · intro h
    have hp : parse t = .ok (ofKeys ks) := parse_eq_ok_iff.2 (by rwa [keys_ofKeys])
    rw [hp]
    exact congrArg Except.ok (keys_ofKeys ks)

end SaveTree.Path
