/-
  Texts of objects put together.

  `Spells` says which texts are texts of a document, in any layout and with any escapes: those that
  are read as it. A name in quotes, a colon and a text of a value make a member; members with
  commas between them and braces around them make an object, in which a repeated name stands at its
  first place with its last value (`spells_object`).
-/
import SaveTree.Proofs.Json.Framing

namespace SaveTree.Json

open SaveTree.Path (Ends ends_cons)

variable {levels : Nat} {cs : List Char} {j : Json}

/-- The characters are a text of the document, with blanks around it or not, that opens at most
`levels` arrays and objects inside one another. -/
def Spells (levels : Nat) (cs : List Char) (j : Json) : Prop :=
  ∃ blanks, Blank blanks ∧ readValue (cs.length + 1) levels cs = .ok (j, blanks)

/-- The characters are a member: a name in quotes, a colon and a text of the value, with blanks
around each of them or not. -/
inductive SpellsMember (levels : Nat) : List Char → String × Json → Prop
  | intro {before quote between value : List Char} {name : String} {j : Json}
      (hbefore : Blank before) (hname : readString quote = .ok (name, []))
      (hbetween : Blank between) (hvalue : Spells levels value j) :
      SpellsMember levels (before ++ '"' :: (quote ++ (between ++ ':' :: value))) (name, j)

/-- The members of an object with a comma between each two, in braces. -/
def objectChars (members : List (List Char)) (gap : List Char) : List Char :=
  '\x7b' :: (List.intercalate [','] members ++ (gap ++ ['\x7d']))

/-! ## Texts of values -/

theorem spells_maxNesting_iff {text : String} :
    Spells maxNesting text.toList j ↔ parse text = .ok j := by
  unfold parse readDocument
  constructor
  · rintro ⟨blanks, hblanks, hread⟩
    rw [hread]
    dsimp only [bind, Except.bind]
    rw [readEnd_blank hblanks]
  · intro h
    split at h
    · next document hdocument =>
      cases h
      obtain ⟨⟨value, blanks⟩, hread, hend⟩ := bind_eq_ok_iff.1 hdocument
      obtain ⟨⟨⟩, hblanks, hvalue⟩ := bind_eq_ok_iff.1 hend
      cases hvalue
      refine ⟨blanks, ?_, hread⟩
      unfold readEnd at hblanks
      split at hblanks
      · next hnil => exact List.dropWhile_eq_nil_iff.1 hnil
      · cases hblanks
    · cases h

/-- A document that comes back from its printed text has this text. -/
theorem spells_chars (hj : j.Exact) (hlevels : j.nesting ≤ levels) (layout : Layout) (depth : Nat)
    {blanks : List Char} (hblanks : Blank blanks) :
    Spells levels (blanks ++ chars layout depth j) j := by
  have hfuel : (chars layout depth j).length < (blanks ++ chars layout depth j).length + 1 := by
    rw [List.length_append]
    omega
  have hback := readsBack_readValue hj depth levels hfuel blanks [] hblanks nofun
  rw [List.append_nil] at hback
  exact ⟨[], List.forall_mem_nil _, hback.1 hlevels⟩

theorem Spells.read {rounds : Nat} {more : List Char} (h : Spells levels cs j)
    (hrounds : cs.length < rounds) (hmore : Ends continuesNumber more) :
    ∃ blanks, Blank blanks ∧ readValue rounds levels (cs ++ more) = .ok (j, blanks ++ more) := by
  obtain ⟨blanks, hblanks, hread⟩ := h
  exact ⟨blanks, hblanks, readValue_append hrounds levels more _ _ _ hread fun _ => hmore⟩

/-! ## Texts of members -/

/-- A printed member is a text of the member. -/
theorem spellsMember_member {m : String × Json} (hm : m.2.Exact) (hlevels : m.2.nesting ≤ levels)
    (layout : Layout) (depth : Nat) :
    SpellsMember levels (member layout (chars layout depth) m) m := by
  have hnone : Blank [] := List.forall_mem_nil _
  obtain ⟨gap, hgap, hcolon⟩ : ∃ gap, Blank gap ∧ colonChars layout = ':' :: gap := by
    cases layout with
    | compact => exact ⟨[], hnone, rfl⟩
    | pretty => exact ⟨[' '], List.forall_mem_singleton.2 rfl, rfl⟩
  have hmember := SpellsMember.intro hnone (readString_quoted m.1 []) hnone
    (spells_chars hm hlevels layout depth hgap)
  rw [member, quoted, hcolon]
  simpa using hmember

theorem intercalate_cons (sep : List Char) (t : List Char) (ts : List (List Char)) :
    sep.intercalate (t :: ts) = t ++ ts.flatMap (sep ++ ·) := by
  induction ts generalizing t with
  | nil => simp
  | cons u ts ih => simp [List.intercalate_cons_cons, ih]

theorem nextMember_comma {blanks gap : List Char} (hblanks : Blank blanks) (hgap : Blank gap)
    (cs : List Char) : nextMember false (blanks ++ ',' :: (gap ++ '"' :: cs)) = .ok (some cs) := by
  unfold nextMember
  rw [skipBlanks_append hblanks (by decide)]
  dsimp only
  rw [if_neg (by decide), if_neg (by decide), if_pos rfl, skipBlanks_append hgap (by decide)]
  dsimp only
  rw [if_pos rfl]

theorem readColon_cons {gap : List Char} (hgap : Blank gap) (cs : List Char) :
    readColon (gap ++ ':' :: cs) = .ok cs := by
  unfold readColon
  rw [skipBlanks_append hgap (by decide)]
  dsimp only
  rw [if_pos rfl]

/-- A member is read up to the blanks behind it, the quote of its name already read. -/
theorem SpellsMember.read {m : String × Json} {rounds : Nat} (h : SpellsMember levels cs m)
    (hrounds : cs.length < rounds) :
    ∃ before text, Blank before ∧ cs = before ++ '"' :: text ∧
      ∀ more, Ends continuesNumber more → ∃ blanks, Blank blanks ∧
        readMembers.readMember (readValue rounds levels) (text ++ more) =
          .ok (m, blanks ++ more) := by
  obtain @⟨before, quote, between, value, name, j, hbefore, hname, hbetween, hvalue⟩ := h
  refine ⟨before, _, hbefore, rfl, fun more hmore => ?_⟩
  simp only [List.length_append, List.length_cons] at hrounds
  have hlength : value.length < rounds := by omega
  obtain ⟨blanks, hblanks, hread⟩ := hvalue.read hlength hmore
  refine ⟨blanks, hblanks, ?_⟩
  unfold readMembers.readMember
  rw [List.append_assoc, readString_append hname, List.nil_append, List.append_assoc]
  dsimp only [bind, Except.bind]
  rw [List.cons_append, readColon_cons hbetween]
  dsimp only
  rw [hread]

section Members

variable {texts : List (List Char)} {ms : List (String × Json)} {rounds : Nat}

theorem ends_members (texts : List (List Char)) {gap : List Char} (hgap : Blank gap)
    (rest : List Char) :
    Ends continuesNumber (texts.flatMap ([','] ++ ·) ++ (gap ++ '\x7d' :: rest)) := by
  cases texts with
  | nil =>
    rw [List.flatMap_nil, List.nil_append]
    exact ends_blank hgap (ends_cons (by decide))
  | cons t texts => exact ends_cons (by decide)

/-- Members behind the first, with blanks before their commas, up to the closing brace. -/
theorem readMembers_texts (h : List.Forall₂ (SpellsMember levels) texts ms)
    (hrounds : ∀ t ∈ texts, t.length < rounds) {blanks gap : List Char} (hblanks : Blank blanks)
    (hgap : Blank gap) (rest : List Char) (out : Array (String × Json)) {fuel : Nat}
    (hfuel : texts.length < fuel) :
    readMembers (readValue rounds levels) out false fuel
        (blanks ++ (texts.flatMap ([','] ++ ·) ++ (gap ++ '\x7d' :: rest))) =
      .ok (out ++ ms.toArray, rest) := by
  obtain ⟨fuel, rfl⟩ := Nat.exists_eq_add_one_of_ne_zero (Nat.ne_zero_of_lt hfuel)
  induction h generalizing blanks out fuel with
  | nil =>
    have hall : Blank (blanks ++ gap) := by
      intro c hc
      rcases List.mem_append.1 hc with hc | hc
      · exact hblanks c hc
      · exact hgap c hc
    rw [List.flatMap_nil, List.nil_append, ← List.append_assoc,
      readMembers_end (nextMember_end hall false rest), skipBlanks_append hall (by decide)]
    simp
  | @cons t m texts ms ht hts ih =>
    obtain ⟨htfuel, htsfuel⟩ := List.forall_mem_cons.1 hrounds
    rw [List.length_cons] at hfuel
    obtain ⟨fuel, rfl⟩ := Nat.exists_eq_add_one_of_ne_zero (n := fuel) (by omega)
    obtain ⟨before, text, hbefore, rfl, hread⟩ := ht.read htfuel
    obtain ⟨behind, hbehind, hmember⟩ := hread _ (ends_members texts hgap rest)
    have hnext : nextMember false (blanks ++ ((before ++ '"' :: text) :: texts).flatMap
        ([','] ++ ·) ++ (gap ++ '\x7d' :: rest)) =
        .ok (some (text ++ (texts.flatMap ([','] ++ ·) ++ (gap ++ '\x7d' :: rest)))) := by
      simpa using nextMember_comma hblanks hbefore
        (text ++ (texts.flatMap ([','] ++ ·) ++ (gap ++ '\x7d' :: rest)))
    rw [← List.append_assoc, readMembers_member hnext, hmember]
    dsimp only [bind, Except.bind]
    rw [ih htsfuel hbehind (out.push m) fuel (by omega)]
    simp

/-- The members of an object up to its closing brace. -/
theorem readMembers_intercalate (h : List.Forall₂ (SpellsMember levels) texts ms)
    (hrounds : ∀ t ∈ texts, t.length < rounds) {gap : List Char} (hgap : Blank gap)
    (rest : List Char) {fuel : Nat} (hfuel : texts.length < fuel) :
    readMembers (readValue rounds levels) #[] true fuel
        (List.intercalate [','] texts ++ (gap ++ '\x7d' :: rest)) = .ok (ms.toArray, rest) := by
  obtain ⟨fuel, rfl⟩ := Nat.exists_eq_add_one_of_ne_zero (Nat.ne_zero_of_lt hfuel)
  cases h with
  | nil =>
    rw [List.intercalate_nil, List.nil_append, readMembers_end (nextMember_end hgap true rest),
      skipBlanks_append hgap (by decide)]
    rfl
  | @cons t m texts ms ht hts =>
    obtain ⟨htfuel, htsfuel⟩ := List.forall_mem_cons.1 hrounds
    rw [List.length_cons] at hfuel
    obtain ⟨before, text, hbefore, rfl, hread⟩ := ht.read htfuel
    obtain ⟨behind, hbehind, hmember⟩ := hread _ (ends_members texts hgap rest)
    have hnext : nextMember true (List.intercalate [','] ((before ++ '"' :: text) :: texts) ++
        (gap ++ '\x7d' :: rest)) =
        .ok (some (text ++ (texts.flatMap ([','] ++ ·) ++ (gap ++ '\x7d' :: rest)))) := by
      rw [intercalate_cons]
      simpa using nextMember_member hbefore true
        (text ++ (texts.flatMap ([','] ++ ·) ++ (gap ++ '\x7d' :: rest)))
    rw [readMembers_member hnext, hmember]
    dsimp only [bind, Except.bind]
    rw [readMembers_texts hts htsfuel hbehind hgap rest _ (by omega)]
    simp

theorem length_lt_flatMap {t : List Char} (ht : t ∈ texts) :
    t.length < (texts.flatMap ([','] ++ ·)).length := by
  induction texts with
  | nil => cases ht
  | cons u texts ih =>
    rw [List.flatMap_cons, List.length_append, List.length_append]
    rcases List.mem_cons.1 ht with rfl | ht
    · simp only [List.length_singleton]
      omega
    · have := ih ht
      omega

theorem length_le_flatMap (texts : List (List Char)) :
    texts.length ≤ (texts.flatMap ([','] ++ ·)).length := by
  induction texts with
  | nil => exact Nat.le_refl _
  | cons t texts ih =>
    rw [List.flatMap_cons, List.length_append, List.length_append, List.length_cons,
      List.length_singleton]
    omega

theorem length_flatMap_le_intercalate (texts : List (List Char)) :
    (texts.flatMap ([','] ++ ·)).length ≤ (List.intercalate [','] texts).length + 1 := by
  cases texts with
  | nil => exact Nat.zero_le _
  | cons t texts =>
    rw [intercalate_cons, List.flatMap_cons, List.length_append, List.length_append,
      List.length_append, List.length_singleton]
    omega

/-- Texts of members in braces are a text of the object that setting them one after the other
builds. -/
theorem spells_object (h : List.Forall₂ (SpellsMember levels) texts ms)
    {before gap after : List Char} (hbefore : Blank before) (hgap : Blank gap)
    (hafter : Blank after) :
    Spells (levels + 1) (before ++ (objectChars texts gap ++ after))
      (.object (Fields.ofPairs ms)) := by
  refine ⟨after, hafter, ?_⟩
  have hlength := length_flatMap_le_intercalate texts
  have hcount := length_le_flatMap texts
  have hshape : objectChars texts gap ++ after =
      '\x7b' :: (List.intercalate [','] texts ++ (gap ++ '\x7d' :: after)) := by
    simp [objectChars]
  rw [hshape, readValue_object hbefore]
  generalize htotal : (before ++ '\x7b' ::
    (List.intercalate [','] texts ++ (gap ++ '\x7d' :: after))).length + 1 = total
  simp only [List.length_append, List.length_cons] at htotal
  have hrounds : ∀ t ∈ texts, t.length < total := by
    intro t ht
    have := length_lt_flatMap ht
    omega
  have hfuel : texts.length < total := by omega
  rw [readMembers_intercalate h hrounds hgap after hfuel]
  rfl

end Members

end SaveTree.Json
