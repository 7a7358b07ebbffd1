/-
  Printed documents read back.

  The reader goes down one level for each array and object, so a document comes back exactly if it
  nests no deeper than the levels there are; otherwise the reader stops and says so. `Reads` states
  both outcomes at once and passes through a reader's steps, so each loop is followed once.
-/
import SaveTree.Fields.Lemmas
import SaveTree.Json.Parse
import SaveTree.Proofs.Json.Document
import SaveTree.Proofs.Json.Token

namespace SaveTree.Json

open SaveTree.Path (Ends ends_cons dropWhile_append_of_ends)

variable {c : Char} {cs rest : List Char} {layout : Layout}

/-! ## Readers that stop at a depth -/

/-- What is read comes out, with the text behind it, if a condition holds; otherwise the reader
stops because the nesting is too deep. -/
def Reads {α : Type} (fits : Prop) (r : Except Stop (α × List Char)) (x : α)
    (rest : List Char) : Prop :=
  (fits → r = .ok (x, rest)) ∧ (¬ fits → ∃ stop, r = .error stop ∧ stop.fault = .tooDeep)

section Reads

variable {α β : Type} {fits fits' : Prop} {x : α} {y : β} {rest' : List Char}

theorem Reads.congr {r : Except Stop (α × List Char)} (h : Reads fits r x rest)
    (hfits : fits ↔ fits') : Reads fits' r x rest := by
  rw [Reads, ← hfits]
  exact h

/-- What is read last is too deep, or what was read before it. -/
theorem Reads.bind {r : Except Stop (α × List Char)} {f : α × List Char → Except Stop (β × List Char)}
    (hr : Reads fits r x rest) (hf : Reads fits' (f (x, rest)) y rest') :
    Reads (fits ∧ fits') (r >>= f) y rest' := by
  constructor
  · rintro ⟨h, h'⟩
    rw [hr.1 h]
    exact hf.1 h'
  · intro h
    by_cases hfits : fits
    · rw [hr.1 hfits]
      exact hf.2 fun h' => h ⟨hfits, h'⟩
    · obtain ⟨stop, hstop, hfault⟩ := hr.2 hfits
      rw [hstop]
      exact ⟨stop, rfl, hfault⟩

theorem reads_ok (x : α) (rest : List Char) : Reads True (.ok (x, rest)) x rest :=
  ⟨fun _ => rfl, fun h => absurd trivial h⟩

theorem Reads.map {r : Except Stop (α × List Char)} (hr : Reads fits r x rest) (make : α → β) :
    Reads fits (do
      let (x, rest) ← r
      .ok (make x, rest)) (make x) rest :=
  (hr.bind (reads_ok (make x) rest)).congr (iff_of_eq (and_true fits))

end Reads

/-! ### Gaps -/

/-- The characters are blanks. -/
def Blank (cs : List Char) : Prop := ∀ c ∈ cs, isBlank c = true

theorem blank_gap (layout : Layout) (depth : Nat) : Blank (gap layout depth) := by
  cases layout with
  | compact => exact List.forall_mem_nil _
  | pretty =>
    refine List.forall_mem_cons.2 ⟨by decide, fun c hc => ?_⟩
    rw [List.eq_of_mem_replicate hc]
    decide

theorem skipBlanks_append {gap : List Char} (hgap : Blank gap) (hc : isBlank c = false)
    (cs : List Char) : skipBlanks (gap ++ c :: cs) = c :: cs :=
  dropWhile_append_of_ends hgap (ends_cons hc)

theorem skipBlanks_cons (hc : isBlank c = false) (cs : List Char) :
    skipBlanks (c :: cs) = c :: cs := by
  have hnone : Blank [] := List.forall_mem_nil _
  exact skipBlanks_append hnone hc cs

theorem nextItem_end {gap : List Char} (hgap : Blank gap) (first : Bool) (rest : List Char) :
    nextItem first (gap ++ ']' :: rest) = .ok none := by
  unfold nextItem
  rw [skipBlanks_append hgap (by decide)]
  dsimp only
  rw [if_pos rfl]

theorem nextItem_item {gap : List Char} (hgap : Blank gap) (first : Bool) (hc : isBlank c = false)
    (hend : c ≠ ']') (cs : List Char) :
    nextItem first ((if first then [] else [',']) ++ (gap ++ c :: cs)) = .ok (some (c :: cs)) := by
  cases first with
  | true =>
    unfold nextItem
    rw [if_pos rfl, List.nil_append, skipBlanks_append hgap hc]
    dsimp only
    rw [if_neg hend, if_pos rfl]
  | false =>
    unfold nextItem
    rw [if_neg (by decide), List.singleton_append, skipBlanks_cons (by decide)]
    dsimp only
    rw [if_neg (by decide), if_neg (by decide), if_pos rfl, skipBlanks_append hgap hc]
    dsimp only
    rw [if_neg hend]

theorem nextMember_end {gap : List Char} (hgap : Blank gap) (first : Bool) (rest : List Char) :
    nextMember first (gap ++ '\x7d' :: rest) = .ok none := by
  unfold nextMember
  rw [skipBlanks_append hgap (by decide)]
  dsimp only
  rw [if_pos rfl]

theorem nextMember_member {gap : List Char} (hgap : Blank gap) (first : Bool) (cs : List Char) :
    nextMember first ((if first then [] else [',']) ++ (gap ++ '"' :: cs)) = .ok (some cs) := by
  cases first with
  | true =>
    unfold nextMember
    rw [if_pos rfl, List.nil_append, skipBlanks_append hgap (by decide)]
    dsimp only
    rw [if_neg (by decide), if_pos rfl, if_pos rfl]
  | false =>
    unfold nextMember
    rw [if_neg (by decide), List.singleton_append, skipBlanks_cons (by decide)]
    dsimp only
    rw [if_neg (by decide), if_neg (by decide), if_pos rfl, skipBlanks_append hgap (by decide)]
    dsimp only
    rw [if_pos rfl]

/-! ### Lists of entries -/

/-- A value is read back wherever its text does not go on as a number, blanks before it or not. -/
def ReadsBack {α : Type} (one : Reader α) (spell : α → List Char) (fits : α → Prop) (x : α) :
    Prop :=
  ∀ blanks rest, Blank blanks → Ends continuesNumber rest →
    Reads (fits x) (one (blanks ++ (spell x ++ rest))) x rest

/-- The text starts with a character that is no blank and closes no list. -/
def Starts (cs : List Char) : Prop := ∃ c tail, cs = c :: tail ∧ isBlank c = false ∧ c ≠ ']'

theorem ends_blank {gap : List Char} (hgap : Blank gap) (hrest : Ends continuesNumber rest) :
    Ends continuesNumber (gap ++ rest) := by
  cases gap with
  | nil => exact hrest
  | cons c cs =>
    obtain ⟨hc, -⟩ := List.forall_mem_cons.1 hgap
    refine ends_cons ?_
    simp only [isBlank, Bool.or_eq_true, decide_eq_true_eq] at hc
    rcases hc with ((rfl | rfl) | rfl) | rfl <;> decide

section Loops

variable {α : Type} {one : Reader α} {spell : α → List Char} {fits : α → Prop}
  {gap close : List Char}

theorem ends_listed (gap : List Char) (spell : α → List Char) (xs : List α) (hclose : Blank close)
    (hc : continuesNumber c = false) :
    Ends continuesNumber (listed gap spell false xs ++ (close ++ c :: rest)) := by
  cases xs with
  | nil =>
    rw [listed, List.nil_append]
    exact ends_blank hclose (ends_cons hc)
  | cons x xs => exact ends_cons (by decide)

theorem readItems_end {out : Array α} {first : Bool} {fuel : Nat}
    (h : nextItem first cs = .ok none) :
    readItems one out first (fuel + 1) cs = .ok (out, (skipBlanks cs).tail) := by
  rw [readItems, h]

theorem readItems_item {out : Array α} {first : Bool} {fuel : Nat} {text : List Char}
    (h : nextItem first cs = .ok (some text)) : readItems one out first (fuel + 1) cs = (do
      let (x, rest) ← one text
      readItems one (out.push x) false fuel rest) := by
  rw [readItems, h]
  dsimp only [bind]
  cases one text <;> rfl

theorem readMembers_end {out : Array (String × α)} {first : Bool} {fuel : Nat}
    (h : nextMember first cs = .ok none) :
    readMembers one out first (fuel + 1) cs = .ok (out, (skipBlanks cs).tail) := by
  rw [readMembers, h]

theorem readMembers_member {out : Array (String × α)} {first : Bool} {fuel : Nat}
    {text : List Char} (h : nextMember first cs = .ok (some text)) :
    readMembers one out first (fuel + 1) cs = (do
      let (m, rest) ← readMembers.readMember one text
      readMembers one (out.push m) false fuel rest) := by
  rw [readMembers, h]
  dsimp only [bind]
  cases readMembers.readMember one text <;> rfl

/-- The items of an array are read back, unless one of them is too deep. -/
theorem reads_readItems (hgap : Blank gap) (hclose : Blank close) {xs : List α}
    (hxs : ∀ x ∈ xs, Starts (spell x) ∧ ReadsBack one spell fits x) (rest : List Char)
    (out : Array α) (first : Bool) {fuel : Nat} (hfuel : xs.length < fuel) :
    Reads (∀ x ∈ xs, fits x)
      (readItems one out first fuel (listed gap spell first xs ++ (close ++ ']' :: rest)))
      (out ++ xs.toArray) rest := by
  obtain ⟨fuel, rfl⟩ := Nat.exists_eq_add_one_of_ne_zero (Nat.ne_zero_of_lt hfuel)
  induction xs generalizing out first fuel with
  | nil =>
    rw [listed, List.nil_append, readItems_end (nextItem_end hclose first rest),
      skipBlanks_append hclose (by decide)]
    refine (reads_ok _ _).congr ?_
    simp
  | cons x xs ih =>
    obtain ⟨⟨⟨c, tail, hspell, hblank, hend⟩, hback⟩, hxs⟩ := List.forall_mem_cons.1 hxs
    rw [List.length_cons] at hfuel
    obtain ⟨fuel, rfl⟩ := Nat.exists_eq_add_one_of_ne_zero (n := fuel) (by omega)
    have hends : Ends continuesNumber (listed gap spell false xs ++ (close ++ ']' :: rest)) :=
      ends_listed gap spell xs hclose (by decide)
    have hone := hback [] _ (List.forall_mem_nil _) hends
    have hmore := ih hxs (out.push x) false fuel (by omega)
    have hnext : nextItem first (listed gap spell first (x :: xs) ++ (close ++ ']' :: rest)) =
        .ok (some (spell x ++ (listed gap spell false xs ++ (close ++ ']' :: rest)))) := by
      rw [listed, hspell]
      simpa using nextItem_item hgap first hblank hend
        (tail ++ (listed gap spell false xs ++ (close ++ ']' :: rest)))
    rw [readItems_item hnext]
    have hboth := hone.bind (f := fun r => readItems one (out.push r.1) false (fuel + 1) r.2) hmore
    have hpush : out.push x ++ xs.toArray = out ++ (x :: xs).toArray := by simp
    rw [hpush] at hboth
    exact hboth.congr List.forall_mem_cons.symm

/-- The characters of a member behind the quote of its name. -/
def memberTail (layout : Layout) (spell : α → List Char) (m : String × α) : List Char :=
  m.1.toList.flatMap escape ++ '"' :: (colonChars layout ++ spell m.2)

theorem member_eq (layout : Layout) (spell : α → List Char) (m : String × α) :
    member layout spell m = '"' :: memberTail layout spell m := by
  simp [member, memberTail, quoted]

theorem readColon_colonChars (layout : Layout) (cs : List Char) :
    ∃ blanks, Blank blanks ∧ readColon (colonChars layout ++ cs) = .ok (blanks ++ cs) := by
  cases layout with
  | compact => exact ⟨[], List.forall_mem_nil _, rfl⟩
  | pretty => exact ⟨[' '], List.forall_mem_singleton.2 rfl, rfl⟩

theorem reads_readMember (layout : Layout) {m : String × α} (hback : ReadsBack one spell fits m.2)
    (hrest : Ends continuesNumber rest) :
    Reads (fits m.2) (readMembers.readMember one (memberTail layout spell m ++ rest)) m rest := by
  obtain ⟨blanks, hblanks, hcolon⟩ := readColon_colonChars layout (spell m.2 ++ rest)
  have hvalue := (hback blanks rest hblanks hrest).map (Prod.mk m.1)
  have htext : memberTail layout spell m ++ rest =
      m.1.toList.flatMap escape ++ '"' :: (colonChars layout ++ (spell m.2 ++ rest)) := by
    simp [memberTail]
  rw [readMembers.readMember, htext, readString_quoted]
  dsimp only [bind, Except.bind]
  rw [hcolon]
  exact hvalue

/-- The members of an object are read back, unless one of them is too deep. -/
theorem reads_readMembers (layout : Layout) (hgap : Blank gap) (hclose : Blank close) {ms : List (String × α)}
    (hms : ∀ m ∈ ms, ReadsBack one spell fits m.2) (rest : List Char)
    (out : Array (String × α)) (first : Bool) {fuel : Nat} (hfuel : ms.length < fuel) :
    Reads (∀ m ∈ ms, fits m.2)
      (readMembers one out first fuel
        (listed gap (member layout spell) first ms ++ (close ++ '\x7d' :: rest)))
      (out ++ ms.toArray) rest := by
  obtain ⟨fuel, rfl⟩ := Nat.exists_eq_add_one_of_ne_zero (Nat.ne_zero_of_lt hfuel)
  induction ms generalizing out first fuel with
  | nil =>
    rw [listed, List.nil_append, readMembers_end (nextMember_end hclose first rest),
      skipBlanks_append hclose (by decide)]
    refine (reads_ok _ _).congr ?_
    simp
  | cons m ms ih =>
    obtain ⟨hback, hms⟩ := List.forall_mem_cons.1 hms
    rw [List.length_cons] at hfuel
    obtain ⟨fuel, rfl⟩ := Nat.exists_eq_add_one_of_ne_zero (n := fuel) (by omega)
    have hends : Ends continuesNumber
        (listed gap (member layout spell) false ms ++ (close ++ '\x7d' :: rest)) :=
      ends_listed gap (member layout spell) ms hclose (by decide)
    have hone := reads_readMember layout hback hends
    have hmore := ih hms (out.push m) false fuel (by omega)
    have hnext : nextMember first
        (listed gap (member layout spell) first (m :: ms) ++ (close ++ '\x7d' :: rest)) =
        .ok (some (memberTail layout spell m ++
          (listed gap (member layout spell) false ms ++ (close ++ '\x7d' :: rest)))) := by
      rw [listed, member_eq]
      simpa using nextMember_member hgap first (memberTail layout spell m ++
        (listed gap (member layout spell) false ms ++ (close ++ '\x7d' :: rest)))
    rw [readMembers_member hnext]
    have hboth := hone.bind (f := fun r => readMembers one (out.push r.1) false (fuel + 1) r.2)
      hmore
    have hpush : out.push m ++ ms.toArray = out ++ (m :: ms).toArray := by simp
    rw [hpush] at hboth
    exact hboth.congr (List.forall_mem_cons (p := fun m : String × α => fits m.2)).symm

end Loops

/-! ### Documents -/

/-- The names of each object differ, and each number is an integer of 64 bits, with or without a
sign. -/
inductive Exact : Json → Prop
  | null : Exact .null
  | bool (b : Bool) : Exact (.bool b)
  | integer {n : Int} (hlow : -2 ^ 63 ≤ n) (hhigh : n < 2 ^ 64) : Exact (.number (.integer n))
  | string (s : String) : Exact (.string s)
  | array {xs : List Json} (h : ∀ x ∈ xs, Exact x) : Exact (.array xs)
  | object {ms : List (String × Json)} (hn : (Fields.keys ms).Nodup)
      (h : ∀ m ∈ ms, Exact m.2) : Exact (.object ms)

section Entries

variable {α : Type} {spell : α → List Char} {x : α} {xs : List α}

theorem length_spell_le (spell : α → List Char) (between : List Char) (first : Bool) (hx : x ∈ xs) :
    (spell x).length ≤ (listed between spell first xs).length := by
  induction xs generalizing first with
  | nil => cases hx
  | cons y ys ih =>
    simp only [listed, List.length_append]
    rcases List.mem_cons.1 hx with rfl | hx
    · omega
    · have := ih false hx
      omega

theorem length_le_listed (between : List Char) (first : Bool) (hxs : ∀ x ∈ xs, spell x ≠ []) :
    xs.length ≤ (listed between spell first xs).length := by
  induction xs generalizing first with
  | nil => exact Nat.zero_le _
  | cons x xs ih =>
    obtain ⟨hx, hxs⟩ := List.forall_mem_cons.1 hxs
    have := List.length_pos_iff.2 hx
    have := ih false hxs
    simp only [listed, List.length_append, List.length_cons]
    omega

end Entries

/-! ### Values -/

section Values

variable {fuel levels depth : Nat} {j : Json} {blanks : List Char}

theorem makeInteger_natAbs {n : Int} (hlow : -2 ^ 63 ≤ n) :
    makeInteger (decide (n < 0)) n.natAbs = .integer n := by
  unfold makeInteger
  by_cases hn : n < 0
  · have hbounds : 0 < n.natAbs ∧ n.natAbs ≤ 2 ^ 63 := ⟨by omega, by omega⟩
    have hvalue : -(n.natAbs : Int) = n := by omega
    rw [decide_eq_true hn, if_neg (by decide), if_pos hbounds, hvalue]
  · have hvalue : (n.natAbs : Int) = n := by omega
    rw [decide_eq_false hn, if_pos (by decide), hvalue]

theorem exists_toDigits_eq_cons (n : Nat) :
    ∃ d ds, Nat.toDigits 10 n = d :: ds ∧ d.isDigit = true := by
  obtain ⟨d, ds, hds⟩ := List.exists_cons_of_ne_nil (Nat.toDigits_ne_nil (n := n) (b := 10))
  have hmem : d ∈ Nat.toDigits 10 n := by
    rw [hds]
    exact List.mem_cons_self
  exact ⟨d, ds, hds, Nat.isDigit_of_mem_toDigits (by decide) (by decide) hmem⟩

theorem starts_of_isDigit {d : Char} (hd : d.isDigit = true) (ds : List Char) :
    Starts (d :: ds) := by
  refine ⟨d, ds, rfl, ?_, ?_⟩
  · simp only [isBlank, Bool.or_eq_false_iff, decide_eq_false_iff_not]
    refine ⟨⟨⟨?_, ?_⟩, ?_⟩, ?_⟩ <;> (rintro rfl; cases hd)
  · rintro rfl
    cases hd

theorem starts_chars (layout : Layout) (depth : Nat) (hj : j.Exact) :
    Starts (chars layout depth j) := by
  have hstarts : ∀ (c : Char) (cs : List Char), isBlank c = false → c ≠ ']' → Starts (c :: cs) :=
    fun c cs hc hend => ⟨c, cs, rfl, hc, hend⟩
  cases hj with
  | null => exact hstarts _ _ (by decide) (by decide)
  | bool b => cases b <;> exact hstarts _ _ (by decide) (by decide)
  | @integer n _ _ =>
    rw [chars, JsonNumber.text, JsonNumber.integerText]
    split
    · exact hstarts _ _ (by decide) (by decide)
    · obtain ⟨d, ds, hds, hd⟩ := exists_toDigits_eq_cons n.natAbs
      rw [hds]
      exact starts_of_isDigit hd ds
  | string s => exact hstarts _ _ (by decide) (by decide)
  | array h =>
    rw [chars_array]
    exact hstarts _ _ (by decide) (by decide)
  | object hn h =>
    rw [chars_object]
    exact hstarts _ _ (by decide) (by decide)

/-- What holds no array and no object is read back at any level. -/
theorem readsBack_leaf (hn : j.nesting = 0)
    (h : ∀ blanks rest, Blank blanks → Ends continuesNumber rest →
      readValue fuel levels (blanks ++ (chars layout depth j ++ rest)) = .ok (j, rest)) :
    ReadsBack (readValue fuel levels) (chars layout depth) (fun j => j.nesting ≤ levels) j := by
  intro blanks rest hblanks hrest
  rw [h blanks rest hblanks hrest]
  exact (reads_ok j rest).congr (iff_of_true trivial (Nat.le_trans (Nat.le_of_eq hn)
    (Nat.zero_le levels)))

theorem readValue_integer {n : Int} (hlow : -2 ^ 63 ≤ n) (hhigh : n < 2 ^ 64)
    (hblanks : Blank blanks) (hrest : Ends continuesNumber rest) :
    readValue fuel levels (blanks ++ (JsonNumber.integerText n ++ rest)) =
      .ok (.number (.integer n), rest) := by
  have hlimit : n.natAbs ≤ maxSignificand := by
    have : maxSignificand = 2 ^ 64 - 1 := rfl
    omega
  have hnumber := readNumber_toDigits (decide (n < 0)) hlimit hrest
  rw [makeInteger_natAbs hlow] at hnumber
  unfold JsonNumber.integerText
  split
  · next hn =>
    rw [decide_eq_true hn] at hnumber
    rw [List.cons_append, readValue, skipBlanks_append hblanks (by decide)]
    dsimp only
    rw [if_neg (by decide), if_neg (by decide), if_neg (by decide), if_neg (by decide),
      if_pos rfl, hnumber]
    rfl
  · next hn =>
    rw [decide_eq_false hn] at hnumber
    obtain ⟨d, ds, hds, hd⟩ := exists_toDigits_eq_cons n.natAbs
    obtain ⟨c, tail, hcons, hblank, -⟩ := starts_of_isDigit hd ds
    obtain ⟨rfl, rfl⟩ := List.cons.inj hcons
    have hne : ∀ c : Char, c.isDigit = false → d ≠ c := by
      rintro c hc rfl
      rw [hd] at hc
      cases hc
    rw [hds] at hnumber ⊢
    rw [List.cons_append] at hnumber ⊢
    rw [readValue, skipBlanks_append hblanks hblank]
    dsimp only
    rw [if_neg (hne _ rfl), if_neg (hne _ rfl), if_neg (hne _ rfl), if_neg (hne _ rfl),
      if_neg (hne _ rfl), if_pos hd, hnumber]
    rfl

theorem readValue_string (s : String) (hblanks : Blank blanks) (rest : List Char) :
    readValue fuel levels (blanks ++ (quoted s ++ rest)) = .ok (.string s, rest) := by
  rw [quoted_append, readValue, skipBlanks_append hblanks (by decide)]
  dsimp only
  rw [if_neg (by decide), if_neg (by decide), if_neg (by decide), if_pos rfl, readString_quoted]
  rfl

/-- No array and no object is read at the lowest level. -/
theorem readValue_zero (hc : c = '[' ∨ c = '\x7b') (hblanks : Blank blanks) (cs : List Char) :
    readValue fuel 0 (blanks ++ c :: cs) = stopBefore .tooDeep (c :: cs) := by
  rcases hc with rfl | rfl <;>
  · rw [readValue, skipBlanks_append hblanks (by decide)]
    rfl

theorem readValue_array (hblanks : Blank blanks) (cs : List Char) :
    readValue fuel (levels + 1) (blanks ++ '[' :: cs) = (do
      let (xs, rest) ← readItems (readValue fuel levels) #[] true fuel cs
      .ok (.array xs.toList, rest)) := by
  rw [readValue, skipBlanks_append hblanks (by decide)]
  rfl

theorem readValue_object (hblanks : Blank blanks) (cs : List Char) :
    readValue fuel (levels + 1) (blanks ++ '\x7b' :: cs) = (do
      let (ms, rest) ← readMembers (readValue fuel levels) #[] true fuel cs
      .ok (.object (Fields.ofPairs ms.toList), rest)) := by
  rw [readValue, skipBlanks_append hblanks (by decide)]
  rfl

theorem blank_closingGap {α : Type} (layout : Layout) (depth : Nat) (xs : List α) :
    Blank (closingGap layout depth xs) := by
  cases xs with
  | nil => exact List.forall_mem_nil _
  | cons x xs => exact blank_gap layout depth

theorem readsBack_array {xs : List Json} (hxs : ∀ x ∈ xs, x.Exact)
    (ih : ∀ x ∈ xs, ∀ depth levels, (chars layout depth x).length < fuel →
      ReadsBack (readValue fuel levels) (chars layout depth) (fun j => j.nesting ≤ levels) x)
    (depth levels : Nat) (hfuel : (chars layout depth (.array xs)).length < fuel) :
    ReadsBack (readValue fuel levels) (chars layout depth) (fun j => j.nesting ≤ levels)
      (.array xs) := by
  intro blanks rest hblanks hrest
  have hne : ∀ x ∈ xs, chars layout (depth + 1) x ≠ [] := by
    intro x hx
    obtain ⟨c, cs, hcs, -⟩ := starts_chars layout (depth + 1) (hxs x hx)
    rw [hcs]
    exact List.cons_ne_nil c cs
  rw [chars_array] at hfuel ⊢
  simp only [List.length_cons, List.length_append] at hfuel
  rw [List.cons_append]
  cases levels with
  | zero =>
    rw [readValue_zero (.inl rfl) hblanks]
    exact ⟨fun h => absurd h (Nat.not_succ_le_zero _), fun _ => ⟨_, rfl, rfl⟩⟩
  | succ levels =>
    rw [readValue_array hblanks]
    have hlength := length_le_listed (gap layout (depth + 1)) true hne
    have hback : ∀ x ∈ xs, Starts (chars layout (depth + 1) x) ∧
        ReadsBack (readValue fuel levels) (chars layout (depth + 1))
          (fun j => j.nesting ≤ levels) x := by
      intro x hx
      have := length_spell_le (chars layout (depth + 1)) (gap layout (depth + 1)) true hx
      exact ⟨starts_chars layout (depth + 1) (hxs x hx), ih x hx (depth + 1) levels (by omega)⟩
    have hrounds : xs.length < fuel := by omega
    have hitems := reads_readItems (blank_gap layout (depth + 1))
      (blank_closingGap layout depth xs) hback rest #[] true hrounds
    have harray := (hitems.map fun xs => Json.array xs.toList).congr nesting_array_le_iff.symm
    simpa using harray

theorem readsBack_object {ms : List (String × Json)} (hn : (Fields.keys ms).Nodup)
    (ih : ∀ m ∈ ms, ∀ depth levels, (chars layout depth m.2).length < fuel →
      ReadsBack (readValue fuel levels) (chars layout depth) (fun j => j.nesting ≤ levels) m.2)
    (depth levels : Nat) (hfuel : (chars layout depth (.object ms)).length < fuel) :
    ReadsBack (readValue fuel levels) (chars layout depth) (fun j => j.nesting ≤ levels)
      (.object ms) := by
  intro blanks rest hblanks hrest
  have hne : ∀ m ∈ ms, member layout (chars layout (depth + 1)) m ≠ [] := by
    intro m _
    rw [member_eq]
    exact List.cons_ne_nil _ _
  rw [chars_object] at hfuel ⊢
  simp only [List.length_cons, List.length_append] at hfuel
  rw [List.cons_append]
  cases levels with
  | zero =>
    rw [readValue_zero (.inr rfl) hblanks]
    exact ⟨fun h => absurd h (Nat.not_succ_le_zero _), fun _ => ⟨_, rfl, rfl⟩⟩
  | succ levels =>
    rw [readValue_object hblanks]
    have hlength := length_le_listed (gap layout (depth + 1)) true hne
    have hback : ∀ m ∈ ms, ReadsBack (readValue fuel levels) (chars layout (depth + 1))
        (fun j => j.nesting ≤ levels) m.2 := by
      intro m hm
      have hmember := length_spell_le (member layout (chars layout (depth + 1)))
        (gap layout (depth + 1)) true hm
      simp only [member, List.length_append] at hmember
      exact ih m hm (depth + 1) levels (by omega)
    have hrounds : ms.length < fuel := by omega
    have hmembers := reads_readMembers layout (blank_gap layout (depth + 1))
      (blank_closingGap layout depth ms) hback rest #[] true hrounds
    have hobject := (hmembers.map fun ms => Json.object (Fields.ofPairs ms.toList)).congr
      nesting_object_le_iff.symm
    simpa [Fields.ofPairs_of_nodup hn] using hobject

/-- A document is read back unless it nests deeper than the levels that are left. -/
theorem readsBack_readValue (hj : j.Exact) (depth levels : Nat)
    (hfuel : (chars layout depth j).length < fuel) :
    ReadsBack (readValue fuel levels) (chars layout depth) (fun j => j.nesting ≤ levels) j := by
  induction hj generalizing depth levels with
  | null =>
    refine readsBack_leaf rfl fun blanks rest hblanks _ => ?_
    rw [chars, List.cons_append, readValue, skipBlanks_append hblanks (by decide)]
    rfl
  | bool b =>
    refine readsBack_leaf rfl fun blanks rest hblanks _ => ?_
    cases b <;>
    · rw [chars, List.cons_append, readValue, skipBlanks_append hblanks (by decide)]
      rfl
  | integer hlow hhigh =>
    exact readsBack_leaf rfl fun _ _ hblanks hrest => readValue_integer hlow hhigh hblanks hrest
  | string s => exact readsBack_leaf rfl fun _ rest hblanks _ => readValue_string s hblanks rest
  | array h ih =>
    exact readsBack_array h (fun x hx depth levels => ih x hx depth levels) depth levels hfuel
  | object hn h ih =>
    exact readsBack_object hn (fun m hm depth levels => ih m hm depth levels) depth levels hfuel

end Values

/-! ## Whole texts -/

theorem readEnd_blank {blanks : List Char} (h : Blank blanks) : readEnd blanks = .ok () := by
  have hskip : skipBlanks blanks = [] := List.dropWhile_eq_nil_iff.2 h
  unfold readEnd
  rw [hskip]

/-- A printed document is read back from its text, with blanks behind it or not, if it nests no
deeper than the reader goes; otherwise its nesting is what the reader complains about. -/
theorem parse_of_toList {text : String} {j : Json} {blanks : List Char} (hj : j.Exact)
    (hblanks : Blank blanks) (htext : text.toList = chars layout 0 j ++ blanks) :
    (j.nesting ≤ maxNesting → parse text = .ok j) ∧
    (maxNesting < j.nesting → ∃ e, parse text = .error (.json e) ∧ e.fault = .tooDeep) := by
  have hnone : Ends continuesNumber [] := nofun
  have hends : Ends continuesNumber blanks := List.append_nil blanks ▸ ends_blank hblanks hnone
  have hfuel : (chars layout 0 j).length < text.toList.length + 1 := by
    rw [htext, List.length_append]
    omega
  have hback := readsBack_readValue hj 0 maxNesting hfuel [] blanks (List.forall_mem_nil _) hends
  rw [List.nil_append, ← htext] at hback
  constructor
  · intro hn
    unfold parse readDocument
    rw [hback.1 hn]
    dsimp only [bind, Except.bind]
    rw [readEnd_blank hblanks]
  · intro hn
    obtain ⟨stop, hstop, hfault⟩ := hback.2 (Nat.not_le.2 hn)
    unfold parse readDocument
    rw [hstop]
    exact ⟨_, rfl, hfault⟩

theorem toList_write_empty (layout : Layout) (j : Json) :
    (write layout 0 "" j).toList = chars layout 0 j := by
  rw [toList_write, String.toList_empty, List.nil_append]

end SaveTree.Json
