/-
  Where a path text stops being one.

  `Misspells cs fault rest` tells beside the grammar how a text breaks off: complete steps are
  followed by something that is none, and `rest` is what the reader has left. A reader that stops
  has looked at no more than the first character it leaves, an index that is too large apart, so
  the text before that is the longest that can still become a path.
-/
import Mathlib.Order.Bounds.Defs
import SaveTree.Proofs.Path.Parse

namespace SaveTree.Path

/-! ## How texts break off -/

/-- The characters behind an opening bracket are no index. What is left starts with the character
that is wrong, or with the first digit of a number that is too large. -/
inductive NoIndex : List Char → PathFault → List Char → Prop
  | noDigits {cs : List Char} (h : Ends Char.isDigit cs) : NoIndex cs (.indexExpected cs.head?) cs
  | unclosed {digits cs : List Char} {n : Nat} (hd : Numeral digits n) (hn : n ≤ 2 ^ 64 - 1)
      (h : Ends Char.isDigit cs) (hb : cs.head? ≠ some ']') :
      NoIndex (digits ++ cs) (.bracketExpected cs.head?) cs
  | tooLarge {digits cs : List Char} {n : Nat} (hd : Numeral digits n) (hn : 2 ^ 64 - 1 < n)
      (h : Ends Char.isDigit cs) :
      NoIndex (digits ++ cs) (.indexTooLarge (String.ofList digits)) (digits ++ cs)

/-- The characters behind a first name are steps up to one that is none. -/
inductive BadSteps : List Char → PathFault → List Char → Prop
  | stray {c : Char} {cs : List Char} (hp : c ≠ '.') (hb : c ≠ '[') :
      BadSteps (c :: cs) (.strayCharacter c) (c :: cs)
  | noName {cs : List Char} (h : Ends isNameChar cs) :
      BadSteps ('.' :: cs) (.nameExpected cs.head?) cs
  | noIndex {cs rest : List Char} {fault : PathFault} (h : NoIndex cs fault rest) :
      BadSteps ('[' :: cs) fault rest
  | field {name cs rest : List Char} {fault : PathFault} (hn : Name name)
      (hc : Ends isNameChar cs) (h : BadSteps cs fault rest) :
      BadSteps ('.' :: (name ++ cs)) fault rest
  | index {digits cs rest : List Char} {n : Nat} {fault : PathFault} (hd : Numeral digits n)
      (hn : n ≤ 2 ^ 64 - 1) (h : BadSteps cs fault rest) :
      BadSteps ('[' :: (digits ++ ']' :: cs)) fault rest

/-- The characters are no path text: they do not start with a name, or have bad steps behind it. -/
inductive Misspells : List Char → PathFault → List Char → Prop
  | noName {cs : List Char} (hne : cs ≠ []) (h : Ends isNameChar cs) :
      Misspells cs (.nameExpected cs.head?) cs
  | steps {name cs rest : List Char} {fault : PathFault} (hn : Name name)
      (hc : Ends isNameChar cs) (h : BadSteps cs fault rest) : Misspells (name ++ cs) fault rest

variable {cs rest : List Char} {fault : PathFault} {stop : Stop} {p : Path}

/-! ## The readers stop there -/

theorem readName_eq_error_iff :
    readName cs = .error stop ↔ Ends isNameChar cs ∧ stop = ⟨.nameExpected cs.head?, cs⟩ := by
  constructor
  · intro h
    unfold readName at h
    split at h
    · next hnone =>
      have hc := takeWhile_eq_nil_iff_ends.1 hnone
      rw [dropWhile_of_ends hc] at h
      cases h
      exact ⟨hc, rfl⟩
    · cases h
  · rintro ⟨hc, rfl⟩
    unfold readName
    rw [takeWhile_eq_nil_iff_ends.2 hc, dropWhile_of_ends hc]

theorem readIndex_eq_error_iff :
    readIndex cs = .error stop ↔ NoIndex cs stop.fault stop.rest := by
  constructor
  · intro h
    unfold readIndex at h
    split at h
    · next hnone =>
      have hc := takeWhile_eq_nil_iff_ends.1 hnone
      rw [dropWhile_of_ends hc] at h
      cases h
      exact .noDigits hc
    · next hne =>
      have hsplit : cs.takeWhile Char.isDigit ++ cs.dropWhile Char.isDigit = cs :=
        List.takeWhile_append_dropWhile
      have hends := ends_dropWhile Char.isDigit cs
      have hd : Numeral (cs.takeWhile Char.isDigit)
          (Nat.ofDigitChars 10 (cs.takeWhile Char.isDigit) 0) :=
        numeral_iff.2 ⟨hne, fun c hc => List.mem_takeWhile_imp hc, rfl⟩
      dsimp only at h
      split at h
      · next hlt =>
        split at h
        · cases h
        · next hb =>
          cases h
          have hclosed : (cs.dropWhile Char.isDigit).head? ≠ some ']' := by
            intro hc
            obtain ⟨after, hafter⟩ := List.head?_eq_some_iff.1 hc
            exact hb after hafter
          have hopen := NoIndex.unclosed hd (Nat.le_sub_one_of_lt hlt) hends hclosed
          rwa [hsplit] at hopen
      · next hge =>
        cases h
        have hlarge := NoIndex.tooLarge hd (by omega) hends
        rwa [hsplit] at hlarge
  · obtain ⟨fault, rest⟩ := stop
    intro h
    dsimp only at h
    unfold readIndex
    cases h with
    | noDigits h => rw [takeWhile_eq_nil_iff_ends.2 h, dropWhile_of_ends h]
    | unclosed hd hn h hb =>
      obtain ⟨hne, hds, rfl⟩ := numeral_iff.1 hd
      rw [takeWhile_append_of_ends hds h, dropWhile_append_of_ends hds h]
      obtain ⟨c, ds, rfl⟩ := List.exists_cons_of_ne_nil hne
      dsimp only
      rw [if_pos (by omega)]
      split
      · exact absurd rfl hb
      · rfl
    | tooLarge hd hn h =>
      obtain ⟨hne, hds, rfl⟩ := numeral_iff.1 hd
      rw [takeWhile_append_of_ends hds h]
      obtain ⟨c, ds, rfl⟩ := List.exists_cons_of_ne_nil hne
      dsimp only
      rw [if_neg (by omega)]

theorem readSteps_of_name_error (h : readName cs = .error stop) (p : Path) :
    readSteps p ('.' :: cs) = .error stop := by
  rw [readSteps, if_pos rfl]
  split
  · next h' => cases h.symm.trans h'
  · next h' =>
    cases h.symm.trans h'
    rfl

theorem readSteps_of_index_error (h : readIndex cs = .error stop) (p : Path) :
    readSteps p ('[' :: cs) = .error stop := by
  rw [readSteps, if_neg (by decide), if_pos rfl]
  split
  · next h' => cases h.symm.trans h'
  · next h' =>
    cases h.symm.trans h'
    rfl

theorem readSteps_eq_error_iff :
    readSteps p cs = .error stop ↔ BadSteps cs stop.fault stop.rest := by
  constructor
  · intro h
    fun_induction readSteps p cs with
    | case1 p => cases h
    | case2 p cs name rest hr ih =>
      obtain ⟨ns, hns, -, rfl, hc⟩ := readName_eq_ok_iff.1 hr
      exact .field hns hc (ih h)
    | case3 p cs stop' hr =>
      cases h
      obtain ⟨hc, rfl⟩ := readName_eq_error_iff.1 hr
      exact .noName hc
    | case4 p cs i rest hr _ ih =>
      obtain ⟨ds, n, hd, hn, -, rfl⟩ := readIndex_eq_ok_iff.1 hr
      exact .index hd hn (ih h)
    | case5 p cs stop' hr _ =>
      cases h
      exact .noIndex (readIndex_eq_error_iff.1 hr)
    | case6 p c cs hp hb =>
      cases h
      exact .stray hp hb
  · obtain ⟨fault, rest⟩ := stop
    intro h
    dsimp only at h
    induction h generalizing p with
    | stray hp hb => rw [readSteps, if_neg hp, if_neg hb]
    | noName h => exact readSteps_of_name_error (readName_eq_error_iff.2 ⟨h, rfl⟩) p
    | noIndex h => exact readSteps_of_index_error (readIndex_eq_error_iff.2 h) p
    | field hn hc h ih =>
      rw [readSteps_field (readName_eq_ok_iff.2 ⟨_, hn, rfl, rfl, hc⟩)]
      exact ih
    | index hd hn h ih =>
      rw [readSteps_index (readIndex_eq_ok_iff.2 ⟨_, _, hd, hn, rfl, rfl⟩)]
      exact ih

theorem readAll_eq_error_iff :
    readAll cs = .error stop ↔ Misspells cs stop.fault stop.rest := by
  constructor
  · intro h
    unfold readAll at h
    split at h
    · cases h
    · next hne =>
      cases hr : readName cs with
      | error stop' =>
        rw [hr] at h
        cases h
        obtain ⟨hc, rfl⟩ := readName_eq_error_iff.1 hr
        exact .noName hne hc
      | ok found =>
        obtain ⟨name, after⟩ := found
        rw [hr] at h
        obtain ⟨ns, hns, rfl, rfl, hc⟩ := readName_eq_ok_iff.1 hr
        exact .steps hns hc (readSteps_eq_error_iff.1 h)
  · obtain ⟨fault, rest⟩ := stop
    intro h
    dsimp only at h
    cases h with
    | noName hne h =>
      have hr := readName_eq_error_iff.2 ⟨h, rfl⟩
      obtain ⟨c, cs, rfl⟩ := List.exists_cons_of_ne_nil hne
      rw [readAll, hr]
      · rfl
      · exact hne
    | steps hn hc h =>
      rw [readAll_append hn hc]
      exact readSteps_eq_error_iff.2 h

/-! ## What is used of a text -/

/-- The fault is no index that is too large. -/
def InRange (fault : PathFault) : Prop := ∀ digits, fault ≠ .indexTooLarge digits

/-- The reader has used characters that can be completed. The fault is decided by them and the
first character behind them, if it is no index that is too large. -/
def Stops (complete : List Char → Prop) (breaks : List Char → PathFault → List Char → Prop)
    (cs : List Char) (fault : PathFault) (rest : List Char) : Prop :=
  ∃ used, cs = used ++ rest ∧ (∃ more, complete (used ++ more)) ∧
    (InRange fault → ∀ other, other.head? = rest.head? → breaks (used ++ other) fault other)

theorem ends_append_congr {q : Char → Bool} {used other : List Char} (h : Ends q (used ++ rest))
    (hsame : other.head? = rest.head?) : Ends q (used ++ other) :=
  ends_congr h (by rw [List.head?_append, hsame, List.head?_append])

theorem NoIndex.stops (h : NoIndex cs fault rest) :
    Stops (fun cs => ∃ n, Numeral cs n ∧ n ≤ 2 ^ 64 - 1) NoIndex cs fault rest := by
  have hzero : ∃ n, Numeral ['0'] n ∧ n ≤ 2 ^ 64 - 1 := ⟨0, numeral_toDigits 0, by decide⟩
  cases h with
  | noDigits h =>
    refine ⟨[], rfl, ⟨['0'], hzero⟩, fun _ other hsame => ?_⟩
    rw [← hsame]
    exact .noDigits (ends_congr h hsame)
  | @unclosed digits _ n hd hn h hb =>
    have hself : Numeral (digits ++ []) n := (List.append_nil digits).symm ▸ hd
    refine ⟨digits, rfl, ⟨[], n, hself, hn⟩, fun _ other hsame => ?_⟩
    rw [← hsame] at hb ⊢
    exact .unclosed hd hn (ends_congr h hsame) hb
  | tooLarge hd hn h => exact ⟨[], rfl, ⟨['0'], hzero⟩, fun hr => absurd rfl (hr _)⟩

theorem BadSteps.stops (h : BadSteps cs fault rest) :
    Stops (fun cs => ∃ ks, Steps cs ks) BadSteps cs fault rest := by
  induction h with
  | stray hp hb =>
    refine ⟨[], rfl, ⟨[], [], .nil⟩, fun _ other hsame => ?_⟩
    obtain ⟨after, rfl⟩ := List.head?_eq_some_iff.1 hsame
    exact .stray hp hb
  | noName h =>
    have hname : Name ['a'] := by decide
    refine ⟨['.'], rfl, ⟨['a'], [.field "a"], .field hname .nil⟩, fun _ other hsame => ?_⟩
    rw [← hsame]
    exact .noName (ends_congr h hsame)
  | noIndex h =>
    obtain ⟨used, rfl, ⟨more, n, hd, hn⟩, hbreaks⟩ := h.stops
    have hclosed := Steps.index hd hn .nil
    refine ⟨'[' :: used, rfl, ⟨more ++ [']'], [.index (UInt64.ofNat n)], ?_⟩,
      fun hr other hsame => ?_⟩
    · simpa using hclosed
    · exact .noIndex (hbreaks hr other hsame)
  | @field name _ _ _ hn hc h ih =>
    obtain ⟨used, rfl, ⟨more, ks, hks⟩, hbreaks⟩ := ih
    refine ⟨'.' :: (name ++ used), by simp, ⟨more, .field (String.ofList name) :: ks, ?_⟩,
      fun hr other hsame => ?_⟩
    · simpa using Steps.field hn hks
    · simpa using BadSteps.field hn (ends_append_congr hc hsame) (hbreaks hr other hsame)
  | @index digits _ _ n _ hd hn h ih =>
    obtain ⟨used, rfl, ⟨more, ks, hks⟩, hbreaks⟩ := ih
    refine ⟨'[' :: (digits ++ ']' :: used), by simp, ⟨more, .index (UInt64.ofNat n) :: ks, ?_⟩,
      fun hr other hsame => ?_⟩
    · simpa using Steps.index hd hn hks
    · simpa using BadSteps.index hd hn (hbreaks hr other hsame)

theorem Misspells.stops (h : Misspells cs fault rest) :
    Stops (fun cs => ∃ ks, Spells cs ks) Misspells cs fault rest := by
  cases h with
  | noName hne h =>
    refine ⟨[], rfl, ⟨[], [], .root⟩, fun _ other hsame => ?_⟩
    have hother : other ≠ [] := by
      rintro rfl
      exact hne (List.head?_eq_none_iff.1 hsame.symm)
    rw [← hsame]
    exact .noName hother (ends_congr h hsame)
  | @steps name _ _ _ hn hc h =>
    obtain ⟨used, rfl, ⟨more, ks, hks⟩, hbreaks⟩ := h.stops
    refine ⟨name ++ used, by simp, ⟨more, .field (String.ofList name) :: ks, ?_⟩,
      fun hr other hsame => ?_⟩
    · simpa using Spells.first hn hks
    · simpa using Misspells.steps hn (ends_append_congr hc hsame) (hbreaks hr other hsame)

/-! ## Indexes that are too large -/

/-- Behind a path that is not the root stands an index that is too large, with its digits at
`position`. -/
def Oversized (cs : List Char) (position : Nat) : Prop :=
  ∃ before ks digits n after, before ≠ [] ∧ Spells before ks ∧ Numeral digits n ∧
    2 ^ 64 - 1 < n ∧ Ends Char.isDigit after ∧ cs = before ++ '[' :: (digits ++ after) ∧
    position = before.length + 1

theorem NoIndex.oversized {digits : String} (h : NoIndex cs (.indexTooLarge digits) rest) :
    ∃ n after, Numeral digits.toList n ∧ 2 ^ 64 - 1 < n ∧ Ends Char.isDigit after ∧
      rest = digits.toList ++ after ∧ cs = rest := by
  cases h with
  | @tooLarge ds after n hd hn h =>
    rw [String.toList_ofList]
    exact ⟨n, after, hd, hn, h, rfl, rfl⟩

theorem BadSteps.oversized {digits : String} (h : BadSteps cs (.indexTooLarge digits) rest) :
    ∃ before ks n after, Steps before ks ∧ Numeral digits.toList n ∧ 2 ^ 64 - 1 < n ∧
      Ends Char.isDigit after ∧ rest = digits.toList ++ after ∧ cs = before ++ '[' :: rest := by
  generalize hf : PathFault.indexTooLarge digits = fault at h
  induction h with
  | stray hp hb => cases hf
  | noName h => cases hf
  | noIndex h =>
    subst hf
    obtain ⟨n, after, hd, hn, ha, hrest, rfl⟩ := h.oversized
    exact ⟨[], [], n, after, .nil, hd, hn, ha, hrest, rfl⟩
  | field hn hc h ih =>
    obtain ⟨before, ks, n, after, hks, hd, hlarge, ha, hrest, rfl⟩ := ih hf
    exact ⟨_, _, n, after, .field hn hks, hd, hlarge, ha, hrest, by simp⟩
  | index hd' hn h ih =>
    obtain ⟨before, ks, n, after, hks, hd, hlarge, ha, hrest, rfl⟩ := ih hf
    exact ⟨_, _, n, after, .index hd' hn hks, hd, hlarge, ha, hrest, by simp⟩

theorem Misspells.oversized {digits : String} (h : Misspells cs (.indexTooLarge digits) rest) :
    Oversized cs (cs.length - rest.length) := by
  cases h with
  | @steps name _ _ _ hn hc h =>
    obtain ⟨before, ks, n, after, hks, hd, hlarge, ha, rfl, rfl⟩ := h.oversized
    refine ⟨name ++ before, _, _, n, after, ?_, .first hn hks, hd, hlarge, ha, by simp, ?_⟩
    · exact List.append_ne_nil_of_left_ne_nil hn.1 before
    · simp only [List.length_append, List.length_cons]
      omega

theorem Steps.ends_bracket {before : List Char} {ks : List PathKey} (h : Steps before ks)
    (after : List Char) : Ends isNameChar (before ++ '[' :: after) :=
  ends_append h.ends (ends_cons (by decide))

theorem badSteps_tooLarge {before digits after : List Char} {ks : List PathKey} {n : Nat}
    (h : Steps before ks) (hd : Numeral digits n) (hn : 2 ^ 64 - 1 < n)
    (ha : Ends Char.isDigit after) :
    BadSteps (before ++ '[' :: (digits ++ after)) (.indexTooLarge (String.ofList digits))
      (digits ++ after) := by
  induction h with
  | nil => exact .noIndex (.tooLarge hd hn ha)
  | field hname h ih => simpa using BadSteps.field hname (h.ends_bracket _) ih
  | index hd' hn' h ih => simpa using BadSteps.index hd' hn' ih

theorem Oversized.misspells {n : Nat} (h : Oversized cs n) :
    ∃ digits rest, Misspells cs (.indexTooLarge digits) rest ∧ n = cs.length - rest.length := by
  obtain ⟨before, ks, digits, number, after, hne, hks, hd, hlarge, ha, rfl, rfl⟩ := h
  refine ⟨String.ofList digits, digits ++ after, ?_, ?_⟩
  · cases hks with
    | root => exact absurd rfl hne
    | first hn hs =>
      simpa using Misspells.steps hn (hs.ends_bracket _) (badSteps_tooLarge hs hd hlarge ha)
  · simp only [List.length_append, List.length_cons]
    omega

/-! ## The position of a fault -/

/-- The characters start a text that is read as a path. -/
def Extensible (cs : List Char) : Prop := ∃ more p, parse (String.ofList (cs ++ more)) = .ok p

theorem extensible_iff : Extensible cs ↔ ∃ more ks, Spells (cs ++ more) ks := by
  constructor
  · rintro ⟨more, p, hp⟩
    rw [parse_eq_ok_iff, String.toList_ofList] at hp
    exact ⟨more, p.keys, hp⟩
  · rintro ⟨more, ks, hks⟩
    refine ⟨more, ofKeys ks, parse_eq_ok_iff.2 ?_⟩
    rwa [String.toList_ofList, keys_ofKeys]

theorem Misspells.not_spells (h : Misspells cs fault rest) (ks : List PathKey) :
    ¬ Spells cs ks := by
  intro hks
  have hok : readAll cs = .ok (ofKeys ks) := readAll_eq_ok_iff.2 (by rwa [keys_ofKeys])
  have herror : readAll cs = .error ⟨fault, rest⟩ := readAll_eq_error_iff.2 h
  cases hok.symm.trans herror

theorem Misspells.unique {fault' : PathFault} {rest' : List Char} (h : Misspells cs fault rest)
    (h' : Misspells cs fault' rest') : fault = fault' ∧ rest = rest' := by
  have hstop : readAll cs = .error ⟨fault, rest⟩ := readAll_eq_error_iff.2 h
  have hstop' : readAll cs = .error ⟨fault', rest'⟩ := readAll_eq_error_iff.2 h'
  cases hstop.symm.trans hstop'
  exact ⟨rfl, rfl⟩

theorem Misspells.inRange_iff (h : Misspells cs fault rest) :
    InRange fault ↔ ∀ n, ¬ Oversized cs n := by
  constructor
  · intro hr n hn
    obtain ⟨digits, rest', h', -⟩ := hn.misspells
    exact hr digits (h.unique h').1
  · rintro hno digits rfl
    exact hno _ h.oversized

/-- The text before a fault in range is the longest that can be completed. -/
theorem isGreatest_of_stops {used : List Char} (hmore : Extensible used)
    (hbreaks : ∀ other, other.head? = rest.head? → Misspells (used ++ other) fault other) :
    IsGreatest {n | n ≤ (used ++ rest).length ∧ Extensible ((used ++ rest).take n)}
      used.length := by
  refine ⟨⟨by simp, by rwa [List.take_left]⟩, ?_⟩
  rintro n ⟨hn, hext⟩
  by_contra hlt
  obtain ⟨k, rfl⟩ : ∃ k, n = used.length + (k + 1) := ⟨n - used.length - 1, by omega⟩
  cases rest with
  | nil =>
    rw [List.append_nil] at hn
    omega
  | cons c rest =>
    -- a longer start goes on with the character that the text breaks off at
    rw [List.take_length_add_append, List.take_succ_cons, extensible_iff] at hext
    obtain ⟨more, ks, hks⟩ := hext
    rw [List.append_assoc, List.cons_append] at hks
    exact (hbreaks (c :: (rest.take k ++ more)) rfl).not_spells ks hks

theorem parse_eq_error_iff {t : String} {e : Error} :
    parse t = .error e ↔ ∃ fault rest, Misspells t.toList fault rest ∧
      e = .pathFormat (t.toList.length - rest.length) fault := by
  unfold parse
  constructor
  · intro h
    dsimp only at h
    split at h
    · cases h
    · next stop hstop =>
      cases h
      exact ⟨stop.fault, stop.rest, readAll_eq_error_iff.1 hstop, rfl⟩
  · rintro ⟨fault, rest, hm, rfl⟩
    have hstop : readAll t.toList = .error ⟨fault, rest⟩ := readAll_eq_error_iff.2 hm
    simp only [hstop]

/-- What a text that is no path is reported with: the position of the first digit of an index
that is too large, and else the length of the longest start that can be completed. -/
theorem position_of_parse_error {t : String} {e : Error} (h : parse t = .error e) :
    ∃ position fault, e = .pathFormat position fault ∧
      ((∀ n, ¬ Oversized t.toList n) → InRange fault ∧
        IsGreatest {n | n ≤ t.toList.length ∧ Extensible (t.toList.take n)} position) ∧
      ∀ n, Oversized t.toList n →
        ¬ InRange fault ∧ position = n ∧ Extensible (t.toList.take n) := by
  obtain ⟨fault, rest, hm, rfl⟩ := parse_eq_error_iff.1 h
  refine ⟨_, fault, rfl, ?_⟩
  obtain ⟨used, hused, hmore, hbreaks⟩ := hm.stops
  have hposition : t.toList.length - rest.length = used.length := by
    rw [hused, List.length_append, Nat.add_sub_cancel]
  rw [hposition]
  refine ⟨fun hno => ?_, fun n hn => ?_⟩
  · have hr := hm.inRange_iff.2 hno
    rw [hused]
    exact ⟨hr, isGreatest_of_stops (extensible_iff.2 hmore) (hbreaks hr)⟩
  · obtain ⟨digits, rest', h', rfl⟩ := hn.misspells
    obtain ⟨rfl, rfl⟩ := hm.unique h'
    rw [hposition, hused, List.take_left]
    exact ⟨fun hr => hr digits rfl, rfl, extensible_iff.2 hmore⟩

/-- A name, which need not be ASCII, and an index that is not closed. -/
theorem misspells_unclosed :
    Misspells "ä[1x]".toList (.bracketExpected (some 'x')) ['x', ']'] := by
  have hname : Name ['ä'] := by decide +kernel
  have hindex : NoIndex (['1'] ++ ['x', ']']) (.bracketExpected (some 'x')) ['x', ']'] :=
    .unclosed (numeral_toDigits 1) (by decide) (ends_cons (by decide)) (by decide)
  exact .steps hname (ends_cons (by decide)) (.noIndex hindex)

/-- A name and the least index that is too large. -/
theorem misspells_tooLarge :
    Misspells "a[18446744073709551616]".toList (.indexTooLarge "18446744073709551616")
      "18446744073709551616]".toList := by
  have hname : Name ['a'] := by decide
  have htext : Nat.toDigits 10 (2 ^ 64) = "18446744073709551616".toList := by decide
  have hdigits := htext ▸ numeral_toDigits (2 ^ 64)
  have hindex : NoIndex ("18446744073709551616".toList ++ [']'])
      (.indexTooLarge "18446744073709551616") ("18446744073709551616".toList ++ [']']) :=
    .tooLarge hdigits (by decide) (ends_cons (by decide))
  exact .steps hname (ends_cons (by decide)) (.noIndex hindex)

theorem position_of_parse_error_unclosed_tooLarge :
    (∃ e, parse "ä[1x]" = .error e ∧
      IsGreatest {n | n ≤ "ä[1x]".toList.length ∧ Extensible ("ä[1x]".toList.take n)} 3) ∧
    ∃ digits, parse "a[18446744073709551616]" = .error (.pathFormat 2 (.indexTooLarge digits)) ∧
      Extensible "a[".toList := by
  constructor
  · have h := parse_eq_error_iff.2 ⟨_, _, misspells_unclosed, rfl⟩
    obtain ⟨position, fault, he, hrange, hlarge⟩ := position_of_parse_error h
    cases he
    exact ⟨_, h, (hrange fun n hn => (hlarge n hn).1 nofun).2⟩
  · have h := parse_eq_error_iff.2 ⟨_, _, misspells_tooLarge, rfl⟩
    obtain ⟨position, fault, -, -, hlarge⟩ := position_of_parse_error h
    exact ⟨_, h, (hlarge 2 misspells_tooLarge.oversized).2.2⟩

end SaveTree.Path
