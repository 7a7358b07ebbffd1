/-
  Documents that are read.

  `Heritable` lists what a property of documents must pass on from the parts of a document to the
  document; what passes it on holds of all that is read (`parse_induction`). It knows of each part
  how it came about: a text is no longer than the document's own, a number is within its range,
  an array or an object has fewer entries than there were rounds, and names do not repeat.
-/
import SaveTree.Fields.Lemmas
import SaveTree.Json.Parse
import SaveTree.Proofs.Json.Number
import SaveTree.Proofs.Json.Width

namespace SaveTree.Json

open Utf8

/-! ## Arrays and objects -/

/-- A reader gives back no more text than it was given, and what it reads from a text of few
bytes has a property. -/
def Yields {α : Type} (n : Nat) (p : α → Prop) (r : Reader α) : Prop :=
  ∀ cs x rest, width cs ≤ n → r cs = .ok (x, rest) → width rest ≤ width cs ∧ p x

section Loops

variable {α : Type} {n : Nat} {p : α → Prop} {one : Reader α}

theorem yields_readItems (hone : Yields n p one) {array : Array α} (ha : ∀ x ∈ array, p x)
    (first : Bool) (fuel : Nat) :
    Yields n (fun xs : Array α => xs.size < array.size + fuel ∧ ∀ x ∈ xs, p x)
      (readItems one array first fuel) := by
  induction fuel generalizing array first with
  | zero =>
    intro cs xs rest _ h
    cases h
  | succ fuel ih =>
    intro cs xs rest hcs h
    rw [readItems] at h
    split at h
    · cases h
    · cases h
      have := width_skipBlanks_le cs
      have := width_tail_le (skipBlanks cs)
      exact ⟨by omega, by omega, ha⟩
    next text htext =>
    have hwidth := width_nextItem htext
    split at h
    · cases h
    next x after hx =>
    obtain ⟨hafter, hp⟩ := hone text x after (by omega) hx
    have hpush : ∀ y ∈ array.push x, p y := by
      intro y hy
      rcases Array.mem_push.1 hy with hy | rfl
      · exact ha y hy
      · exact hp
    obtain ⟨hrest, hsize, hxs⟩ := ih hpush false after xs rest (by omega) h
    rw [Array.size_push] at hsize
    exact ⟨by omega, by omega, hxs⟩

theorem yields_readMember (hone : Yields n p one) :
    Yields n (fun m : String × α => (Utf8.encode m.1).length ≤ n ∧ p m.2)
      (readMembers.readMember one) := by
  intro cs m rest hcs h
  unfold readMembers.readMember at h
  dsimp only [bind, Except.bind] at h
  split at h
  · cases h
  next named hname =>
  obtain ⟨name, after⟩ := named
  have hwidth := width_readString hname
  split at h
  · cases h
  next text hcolon =>
  have hcolonWidth : width text ≤ width after := width_readColon hcolon
  split at h
  · cases h
  next valued hvalue =>
  obtain ⟨x, after'⟩ := valued
  obtain ⟨hrest, hp⟩ := hone text x after' (by omega) hvalue
  cases h
  have hlength := length_encode name
  exact ⟨show width after' ≤ _ by omega, show (Utf8.encode name).length ≤ n by omega, hp⟩

theorem yields_readMembers (hone : Yields n p one) {array : Array (String × α)}
    (ha : ∀ m ∈ array, (Utf8.encode m.1).length ≤ n ∧ p m.2) (first : Bool) (fuel : Nat) :
    Yields n (fun ms : Array (String × α) => ms.size < array.size + fuel ∧
      ∀ m ∈ ms, (Utf8.encode m.1).length ≤ n ∧ p m.2) (readMembers one array first fuel) := by
  induction fuel generalizing array first with
  | zero =>
    intro cs ms rest _ h
    cases h
  | succ fuel ih =>
    intro cs ms rest hcs h
    rw [readMembers] at h
    split at h
    · cases h
    · cases h
      have := width_skipBlanks_le cs
      have := width_tail_le (skipBlanks cs)
      exact ⟨by omega, by omega, ha⟩
    next text htext =>
    have hwidth := width_nextMember htext
    split at h
    · cases h
    next m after hm =>
    obtain ⟨hafter, hp⟩ := yields_readMember hone text m after (by omega) hm
    have hpush : ∀ y ∈ array.push m, (Utf8.encode y.1).length ≤ n ∧ p y.2 := by
      intro y hy
      rcases Array.mem_push.1 hy with hy | rfl
      · exact ha y hy
      · exact hp
    obtain ⟨hrest, hsize, hms⟩ := ih hpush false after ms rest (by omega) h
    rw [Array.size_push] at hsize
    exact ⟨by omega, by omega, hms⟩

end Loops

/-! ## Values -/

/-- What a property of documents, by the number of arrays and objects they may open inside one
another, passes on from the parts of a document to the document: its texts have at most `n` bytes
and its arrays and objects fewer than `rounds` entries. -/
structure Heritable (n rounds : Nat) (P : Nat → Json → Prop) : Prop where
  null : ∀ levels, P levels .null
  bool : ∀ levels b, P levels (.bool b)
  number : ∀ levels x, x.Sound → P levels (.number x)
  string : ∀ levels s, (Utf8.encode s).length ≤ n → P levels (.string s)
  array : ∀ levels xs, xs.length < rounds → (∀ x ∈ xs, P levels x) → P (levels + 1) (.array xs)
  object : ∀ levels ms, (Fields.keys ms).Nodup → ms.length < rounds →
    (∀ m ∈ ms, (Utf8.encode m.1).length ≤ n ∧ P levels m.2) → P (levels + 1) (.object ms)

section Values

variable {n fuel levels : Nat} {P : Nat → Json → Prop}

/-- What is made of a value that is read keeps the reader within its text. -/
theorem Yields.map {α β : Type} {p : α → Prop} {q : β → Prop} {r : Reader α} (hr : Yields n p r)
    (make : α → β) (hmake : ∀ x, p x → q (make x)) :
    Yields n q (fun cs => do
      let (x, rest) ← r cs
      .ok (make x, rest)) := by
  intro cs y rest hcs h
  dsimp only [bind, Except.bind] at h
  split at h
  · cases h
  next read hread =>
  obtain ⟨x, after⟩ := read
  cases h
  obtain ⟨hwidth, hx⟩ := hr cs x after hcs hread
  exact ⟨hwidth, hmake x hx⟩

theorem yields_word {p : Json → Prop} {j : Json} (hj : p j) (word : List Char) :
    Yields n p (fun cs => do
      let rest ← readWord word cs
      .ok (j, rest)) := by
  intro cs y rest _ h
  dsimp only [bind, Except.bind] at h
  split at h
  · cases h
  next hword =>
  cases h
  exact ⟨width_readWord hword, hj⟩

theorem yields_readString : Yields n (fun s => (Utf8.encode s).length ≤ n) readString := by
  intro cs s rest hcs h
  have hwidth := width_readString h
  have hlength := length_encode s
  exact ⟨by omega, by omega⟩

theorem yields_readNumber (negative : Bool) : Yields n JsonNumber.Sound (readNumber negative) :=
  fun _ _ _ _ h => ⟨width_readNumber h, sound_readNumber h⟩

theorem Heritable.readObject (hP : Heritable n fuel P) {ms : Array (String × Json)}
    (h : ms.size < fuel ∧ ∀ m ∈ ms, (Utf8.encode m.1).length ≤ n ∧ P levels m.2) :
    P (levels + 1) (.object (Fields.ofPairs ms.toList)) := by
  obtain ⟨hsize, hms⟩ := h
  refine hP.object levels _ (Fields.nodup_keys_ofPairs _) ?_ fun m hm =>
    hms m (Array.mem_toList_iff.1 (Fields.mem_of_mem_ofPairs hm))
  exact Nat.lt_of_le_of_lt (Fields.length_ofPairs_le _) hsize

/-- A value is read in one round, and within arrays and objects in the rounds of one level less. -/
theorem yields_readValue_of (hP : Heritable n fuel P)
    (hless : ∀ less, levels = less + 1 → Yields n (P less) (readValue fuel less)) :
    Yields n (P levels) (readValue fuel levels) := by
  intro cs j rest hcs h
  have hskip := width_skipBlanks_le cs
  unfold readValue at h
  split at h
  · cases h
  next c text hc =>
  rw [hc, width_cons] at hskip
  -- each kind of value is left to a reader of what stands behind its first character
  have behind : ∀ r : Reader Json, Yields n (P levels) r → r text = .ok (j, rest) →
      width rest ≤ width cs ∧ P levels j := by
    intro r hr hread
    obtain ⟨hwidth, hj⟩ := hr text j rest (by omega) hread
    exact ⟨by omega, hj⟩
  split at h
  · exact behind _ (yields_word (hP.null levels) _) h
  split at h
  · exact behind _ (yields_word (hP.bool levels true) _) h
  split at h
  · exact behind _ (yields_word (hP.bool levels false) _) h
  split at h
  · exact behind _ (yields_readString.map .string (hP.string levels)) h
  split at h
  · exact behind _ ((yields_readNumber true).map .number (hP.number levels)) h
  split at h
  · have hnumber : Yields n (P levels) _ :=
      (yields_readNumber false).map .number (hP.number levels)
    obtain ⟨hwidth, hj⟩ := hnumber (c :: text) j rest (by rw [width_cons]; omega) h
    rw [width_cons] at hwidth
    exact ⟨by omega, hj⟩
  split at h
  · split at h
    · cases h
    next less =>
    have hitems := yields_readItems (hless less rfl) (Array.forall_mem_empty _) true fuel
    refine behind _ (hitems.map (fun xs => .array xs.toList) fun xs ⟨hsize, hxs⟩ => ?_) h
    rw [Array.size_empty, Nat.zero_add] at hsize
    exact hP.array less _ hsize fun x hx => hxs x (Array.mem_toList_iff.1 hx)
  split at h
  · split at h
    · cases h
    next less =>
    have hmembers := yields_readMembers (hless less rfl) (Array.forall_mem_empty _) true fuel
    refine behind _ (hmembers.map (fun ms => .object (Fields.ofPairs ms.toList))
      fun ms ⟨hsize, hms⟩ => ?_) h
    rw [Array.size_empty, Nat.zero_add] at hsize
    exact hP.readObject ⟨hsize, hms⟩
  · cases h

theorem yields_readValue (hP : Heritable n fuel P) (levels : Nat) :
    Yields n (P levels) (readValue fuel levels) := by
  induction levels with
  | zero => exact yields_readValue_of hP nofun
  | succ levels ih =>
    refine yields_readValue_of hP fun less hless => ?_
    cases hless
    exact ih

end Values

/-! ## Whole texts -/

section Texts

variable {text : String} {j : Json}

/-- What passes on from the parts of a document to the document holds of a document that is read
from a text, whose bytes bound its texts and whose characters bound its entries. -/
theorem parse_induction {P : Nat → Json → Prop}
    (hP : Heritable (Utf8.encode text).length (text.toList.length + 1) P)
    (h : parse text = .ok j) : P maxNesting j := by
  unfold parse at h
  split at h
  · next document hdocument =>
    cases h
    unfold readDocument at hdocument
    dsimp only [bind, Except.bind] at hdocument
    split at hdocument
    · cases hdocument
    next r hr =>
    obtain ⟨value, rest⟩ := r
    split at hdocument <;> cases hdocument
    exact (yields_readValue hP maxNesting text.toList _ rest (Nat.le_of_eq (length_encode text).symm)
      hr).2
  · cases h

/-- A document that is read has distinct names in each object and numbers within their range. -/
theorem sound_of_parse (h : parse text = .ok j) : j.Sound :=
  parse_induction (P := fun _ => Sound)
    { null := fun _ => .null
      bool := fun _ b => .bool b
      number := fun _ _ hx => .number hx
      string := fun _ s _ => .string s
      array := fun _ _ _ hxs => .array hxs
      object := fun _ _ hn _ hms => .object hn fun m hm => (hms m hm).2 } h

/-- No text in the document has more bytes than a number. -/
inductive Fits (n : Nat) : Json → Prop
  | null : Fits n .null
  | bool (b : Bool) : Fits n (.bool b)
  | number (x : JsonNumber) : Fits n (.number x)
  | string {s : String} (h : (Utf8.encode s).length ≤ n) : Fits n (.string s)
  | array {xs : List Json} (h : ∀ x ∈ xs, Fits n x) : Fits n (.array xs)
  | object {ms : List (String × Json)} (hn : ∀ m ∈ ms, (Utf8.encode m.1).length ≤ n)
      (h : ∀ m ∈ ms, Fits n m.2) : Fits n (.object ms)

/-- No text in a document has more bytes than the text the document was read from. -/
theorem fits_of_parse (h : parse text = .ok j) : Fits (Utf8.encode text).length j :=
  parse_induction (P := fun _ => Fits (Utf8.encode text).length)
    { null := fun _ => .null
      bool := fun _ b => .bool b
      number := fun _ x _ => .number x
      string := fun _ _ hs => .string hs
      array := fun _ _ _ hxs => .array hxs
      object := fun _ _ _ _ hms =>
        .object (fun m hm => (hms m hm).1) fun m hm => (hms m hm).2 } h

end Texts

end SaveTree.Json
