/-
  The text of a path is read back.

  The grammar spells the root, and the paths that start with a field and have proper names only
  (`plain_of_spells`). The text written for such a path is one that spells it (`spells_text`). Any
  other path is written as a text that is refused or denotes another path.
-/
import SaveTree.Proofs.Path.Parse

namespace SaveTree

namespace PathKey

/-- The characters of a later step. -/
def nextChars : PathKey → List Char
  | field name => '.' :: name.toList
  | index i => '[' :: (Nat.toDigits 10 i.toNat ++ [']'])

theorem toList_writeNext (out : String) (key : PathKey) :
    (writeNext out key).toList = out.toList ++ key.nextChars := by
  cases key with
  | field name => simp [writeNext, nextChars]
  | index i => simp [writeNext, writeIndex, nextChars, Nat.repr_eq_ofList_toDigits]

theorem toList_foldl_writeNext (out : String) (ks : List PathKey) :
    (ks.foldl writeNext out).toList = out.toList ++ ks.flatMap nextChars := by
  induction ks generalizing out with
  | nil => simp
  | cons key ks ih =>
    rw [List.foldl_cons, ih, toList_writeNext, List.flatMap_cons, List.append_assoc]

/-- The step is to an item, or to a field with a proper name. -/
def Proper : PathKey → Prop
  | field name => Path.Name name.toList
  | index _ => True

instance (key : PathKey) : Decidable key.Proper :=
  match key with
  | field name => inferInstanceAs (Decidable (Path.Name name.toList))
  | index _ => inferInstanceAs (Decidable True)

end PathKey

namespace Path

/-! ## Steps -/

theorem Steps.proper {cs : List Char} {ks : List PathKey} (h : Steps cs ks) :
    ∀ key ∈ ks, key.Proper := by
  induction h with
  | nil => exact nofun
  | @field name cs ks hn h ih =>
    refine List.forall_mem_cons.2 ⟨?_, ih⟩
    rwa [PathKey.Proper, String.toList_ofList]
  | index hd hn h ih => exact List.forall_mem_cons.2 ⟨trivial, ih⟩

theorem steps_flatMap {ks : List PathKey} (h : ∀ key ∈ ks, key.Proper) :
    Steps (ks.flatMap PathKey.nextChars) ks := by
  induction ks with
  | nil => exact .nil
  | cons key ks ih =>
    obtain ⟨hk, hks⟩ := List.forall_mem_cons.1 h
    have hs := ih hks
    cases key with
    | field name => simpa [PathKey.nextChars] using Steps.field hk hs
    | index i =>
      have hi : i.toNat ≤ 2 ^ 64 - 1 := Nat.le_sub_one_of_lt i.toNat_lt
      simpa [PathKey.nextChars] using Steps.index (numeral_toDigits i.toNat) hi hs

/-! ## Paths that have a text -/

/-- The path is the root, or starts with a field and has proper names only. -/
def Plain (p : Path) : Prop :=
  p = root ∨ (∃ name, p.keys.head? = some (.field name)) ∧ ∀ key ∈ p.keys, key.Proper

theorem plain_of_spells {cs : List Char} {p : Path} (h : Spells cs p.keys) : p.Plain := by
  generalize hks : p.keys = ks at h
  cases h with
  | root => exact Or.inl (keys_inj.1 hks)
  | @first name cs ks hn h =>
    refine Or.inr ⟨⟨_, by rw [hks]; rfl⟩, ?_⟩
    rw [hks, List.forall_mem_cons, PathKey.Proper, String.toList_ofList]
    exact ⟨hn, h.proper⟩

theorem toList_text {p : Path} {name : String} {ks : List PathKey}
    (h : p.keys = .field name :: ks) :
    p.text.toList = name.toList ++ ks.flatMap PathKey.nextChars := by
  rw [text, h]
  exact PathKey.toList_foldl_writeNext name ks

theorem spells_text {p : Path} (h : p.Plain) : Spells p.text.toList p.keys := by
  obtain rfl | ⟨⟨name, hn⟩, hp⟩ := h
  · exact .root
  · obtain ⟨ks, hks⟩ := List.head?_eq_some_iff.1 hn
    rw [hks, List.forall_mem_cons] at hp
    have hs := Spells.first hp.1 (steps_flatMap hp.2)
    rw [toList_text hks, hks]
    rwa [String.ofList_toList] at hs

theorem parse_text_iff {p : Path} : parse p.text = .ok p ↔ p.Plain :=
  parse_eq_ok_iff.trans ⟨plain_of_spells, spells_text⟩

theorem parse_text_of_parse {t : String} {p : Path} (h : parse t = .ok p) :
    parse p.text = .ok p :=
  parse_text_iff.2 (plain_of_spells (parse_eq_ok_iff.1 h))

/-- The text of a path denotes it exactly if the path is the root, or starts with a field and has
proper names only. All paths that were read are of this kind, so they are told apart by their
texts. -/
theorem text_round_trip (p : Path) :
    (parse p.text = .ok p ↔ p = root ∨
      (∃ name, p.keys.head? = some (.field name)) ∧ ∀ key ∈ p.keys, key.Proper) ∧
    (∀ t, parse t = .ok p → parse p.text = .ok p) ∧
    ∀ q s t, parse s = .ok p → parse t = .ok q → p.text = q.text → p = q := by
  refine ⟨parse_text_iff, fun t => parse_text_of_parse, fun q s t hp hq h => ?_⟩
  have hp' := parse_text_of_parse hp
  rw [h, parse_text_of_parse hq] at hp'
  exact (Except.ok.inj hp').symm

theorem text_round_trip_item :
    parse ((root.field "a-1").index 7).text = .ok ((root.field "a-1").index 7) ∧
    parse (root.field "a.b").text ≠ .ok (root.field "a.b") ∧
    parse (root.index 7).text ≠ .ok (root.index 7) := by
  refine ⟨(text_round_trip _).1.2 (Or.inr ⟨⟨_, rfl⟩, by decide⟩), fun h => ?_, fun h => ?_⟩
  · obtain h | ⟨-, hp⟩ := (text_round_trip _).1.1 h
    · cases h
    · exact absurd hp (by decide)
  · obtain h | ⟨⟨name, hf⟩, -⟩ := (text_round_trip _).1.1 h
    · cases h
    · cases hf

end Path

end SaveTree
