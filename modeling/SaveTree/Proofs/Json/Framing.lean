/-
  JSON text with more text behind it.

  A reader that succeeds has not looked past the place it stopped at, so it reads the same when more
  text follows and gives back that text behind what it left. Numbers are the exception: one that
  stands at the very end of its text goes on if a digit, a point or an exponent follows (`Apart`
  rules that out). More rounds for its loops change nothing either. So the text of a value may stand
  inside a larger text (`readValue_append`).
-/
import SaveTree.Json.Parse
import SaveTree.Proofs.Json.ReadBack

namespace SaveTree.Json

open SaveTree.Path (Ends dropWhile_of_ends takeWhile_eq_nil_iff_ends)

variable {c : Char} {cs rest : List Char}

/-! ## Texts -/

theorem readWord_append {word : List Char} (h : readWord word cs = .ok rest) (more : List Char) :
    readWord word (cs ++ more) = .ok (rest ++ more) := by
  fun_induction readWord word cs with
  | case1 cs =>
    cases h
    rw [readWord]
  | case2 => cases h
  | case3 w ws cs ih =>
    rw [List.cons_append, readWord, if_pos rfl]
    exact ih h
  | case4 => cases h

theorem length_of_hex4? {ds : List Char} {n : Nat} (h : hex4? ds = some n) : ds.length = 4 := by
  unfold hex4? at h
  split at h
  · rfl
  · cases h

theorem readHex_append {n : Nat} (h : readHex cs = .ok (n, rest)) (more : List Char) :
    readHex (cs ++ more) = .ok (n, rest ++ more) := by
  unfold readHex at h
  split at h
  · next m hm =>
    cases h
    have hlength : 4 ≤ cs.length := by
      have := length_of_hex4? hm
      rw [List.length_take] at this
      omega
    unfold readHex
    rw [List.take_append_of_le_length hlength, List.drop_append_of_le_length hlength, hm]
  · split at h <;> cases h

theorem readEscapeChar_append (h : readEscapeChar c cs = .ok rest) (more : List Char) :
    readEscapeChar c (cs ++ more) = .ok (rest ++ more) := by
  unfold readEscapeChar at h
  split at h
  · cases h
  · split at h <;> cases h
    next hc => rw [List.cons_append, readEscapeChar, if_pos hc]

theorem readUnit_append (h : readUnit cs = .ok (c, rest)) (more : List Char) :
    readUnit (cs ++ more) = .ok (c, rest ++ more) := by
  unfold readUnit at h ⊢
  obtain ⟨⟨high, after⟩, hhigh, h⟩ := bind_eq_ok_iff.1 h
  rw [readHex_append hhigh more]
  dsimp only [bind, Except.bind] at h ⊢
  split at h
  · cases h
  next hlone =>
  rw [if_neg hlone]
  split at h
  · next hpair =>
    rw [if_pos hpair]
    obtain ⟨after₁, h₁, h⟩ := bind_eq_ok_iff.1 h
    obtain ⟨after₂, h₂, h⟩ := bind_eq_ok_iff.1 h
    obtain ⟨⟨low, after₃⟩, hlow, h⟩ := bind_eq_ok_iff.1 h
    rw [readEscapeChar_append h₁ more]
    dsimp only
    rw [readEscapeChar_append h₂ more]
    dsimp only
    rw [readHex_append hlow more]
    dsimp only at h ⊢
    split at h
    · next hlow =>
      obtain ⟨rfl, rfl⟩ := Prod.mk.inj (Except.ok.inj h)
      rw [if_pos hlow]
    · cases h
  · next hpair =>
    obtain ⟨rfl, rfl⟩ := Prod.mk.inj (Except.ok.inj h)
    rw [if_neg hpair]

theorem readChars_append {out : List Char} {s : String} (h : readChars out cs = .ok (s, rest))
    (more : List Char) : readChars out (cs ++ more) = .ok (s, rest ++ more) := by
  fun_induction readChars out cs with
  | case2 out after =>
    cases h
    rw [List.cons_append, readChars.eq_def]
    simp
  | case4 out text c after hunit _ ih =>
    have hmore := readUnit_append hunit more
    rw [List.cons_append, List.cons_append, readChars.eq_def]
    simp only [Char.reduceEq, if_false, if_true]
    split
    · next hread =>
      rw [hmore] at hread
      cases hread
      exact ih h
    · next hread =>
      rw [hmore] at hread
      cases hread
  | case6 out e text he c hc _ ih =>
    rw [List.cons_append, List.cons_append, readChars.eq_def]
    simp only [Char.reduceEq, if_false, if_true, if_neg he, hc]
    exact ih h
  | case9 out c text hquote hslash hcontrol ih =>
    rw [List.cons_append, readChars.eq_def]
    simp only [if_neg hquote, if_neg hslash, if_neg hcontrol]
    exact ih h
  | _ => cases h

theorem readString_append {s : String} (h : readString cs = .ok (s, rest)) (more : List Char) :
    readString (cs ++ more) = .ok (s, rest ++ more) :=
  readChars_append h more

/-! ## Numbers -/

/-- No number at the end of what has been read goes on into the text that follows. -/
def Apart (rest more : List Char) : Prop := rest = [] → Ends continuesNumber more

section Numbers

variable {more : List Char} {negative : Bool} {significand : Nat} {e : Int} {x : JsonNumber}

theorem apart_of_ne_nil (h : rest ≠ []) (more : List Char) : Apart rest more :=
  fun hrest => absurd hrest h

theorem Apart.digit (h : Apart rest more) (hrest : rest = []) : Ends Char.isDigit more := by
  intro c hc
  have hcontinues := h hrest c hc
  simp only [continuesNumber, Bool.or_eq_false_iff] at hcontinues
  exact hcontinues.1.1.1

theorem absorb_append (limit n count : Nat)
    (h : (absorb limit n count cs).2.2 = [] → Ends Char.isDigit more) :
    absorb limit n count (cs ++ more) = ((absorb limit n count cs).1,
      (absorb limit n count cs).2.1, (absorb limit n count cs).2.2 ++ more) := by
  fun_induction absorb limit n count cs with
  | case1 n count =>
    rw [List.nil_append]
    cases more with
    | nil => rw [absorb]
    | cons c more =>
      have hc : c.isDigit = false := h rfl c rfl
      rw [absorb, hc, if_neg (by simp)]
  | case2 n count c rest hc ih =>
    rw [List.cons_append, absorb, if_pos hc]
    exact ih h
  | case3 n count c rest hc => rw [List.cons_append, absorb, if_neg hc]

theorem startsWithDigit_append (h : rest = [] → Ends Char.isDigit more) :
    startsWithDigit (rest ++ more) = startsWithDigit rest := by
  cases rest with
  | nil =>
    cases more with
    | nil => rfl
    | cons c more => exact h rfl c rfl
  | cons c rest => rfl

theorem skipDigits_append (h : skipDigits cs = [] → Ends Char.isDigit more) :
    skipDigits (cs ++ more) = skipDigits cs ++ more := by
  unfold skipDigits at h ⊢
  rw [List.dropWhile_append]
  split
  · next hnil =>
    rw [List.isEmpty_iff] at hnil
    rw [hnil, List.nil_append, dropWhile_of_ends (h hnil)]
  · rfl

theorem takeWhile_isDigit_append (h : skipDigits cs = [] → Ends Char.isDigit more) :
    (cs ++ more).takeWhile Char.isDigit = cs.takeWhile Char.isDigit := by
  have hsplit : cs.takeWhile Char.isDigit ++ skipDigits cs = cs :=
    List.takeWhile_append_dropWhile
  have hlength := congrArg List.length hsplit
  rw [List.length_append] at hlength
  rw [List.takeWhile_append]
  split
  · next hall =>
    have hnil : skipDigits cs = [] := List.eq_nil_of_length_eq_zero (by omega)
    rw [takeWhile_eq_nil_iff_ends.2 (h hnil), List.append_nil]
    rwa [hnil, List.append_nil, eq_comm] at hsplit
  · rfl

theorem rest_of_makeFloat (h : makeFloat negative significand e cs = .ok (x, rest)) :
    rest = cs := by
  unfold makeFloat at h
  split at h <;> cases h
  rfl

theorem makeFloat_append (h : makeFloat negative significand e cs = .ok (x, rest))
    (more : List Char) : makeFloat negative significand e (cs ++ more) = .ok (x, rest ++ more) := by
  unfold makeFloat at h ⊢
  split at h
  · cases h
    rfl
  · cases h

/-- The rest of a number from the digits of its exponent on. -/
def exponentDigits (negative : Bool) (significand : Nat) (e : Int) (down : Bool) :
    Reader JsonNumber := fun cs =>
  match cs with
  | [] => stopAt .endInValue []
  | c :: _ =>
    if !c.isDigit then
      stopBefore .invalidNumber cs
    else
      let (n, _, rest) := absorb maxExponent 0 0 cs
      if !startsWithDigit rest then
        makeFloat negative significand (if down then e - n else e + n) rest
      else if significand ≠ 0 ∧ !down then
        stopAt .numberOutOfRange rest.tail
      else
        .ok (.float (Binary.ofMagnitude negative 0), skipDigits rest)

theorem readExponent_cons (negative : Bool) (significand : Nat) (e : Int) (c : Char)
    (cs : List Char) : readExponent negative significand e (c :: cs) =
      if c = '+' then exponentDigits negative significand e false cs
      else if c = '-' then exponentDigits negative significand e true cs
      else exponentDigits negative significand e false (c :: cs) := by
  by_cases hplus : c = '+'
  · subst hplus
    rfl
  by_cases hminus : c = '-'
  · subst hminus
    rfl
  rw [if_neg hplus, if_neg hminus]
  unfold readExponent
  split
  next sign down after hsign =>
  split at hsign
  · next heq => exact absurd (List.cons.inj heq).1 hplus
  · next heq => exact absurd (List.cons.inj heq).1 hminus
  · cases hsign
    rfl

theorem exponentDigits_append {down : Bool}
    (h : exponentDigits negative significand e down cs = .ok (x, rest)) (hapart : Apart rest more) :
    exponentDigits negative significand e down (cs ++ more) = .ok (x, rest ++ more) := by
  cases cs with
  | nil => cases h
  | cons c cs =>
    unfold exponentDigits at h ⊢
    rw [List.cons_append]
    dsimp only at h ⊢
    split at h
    · cases h
    next hdigit =>
    rw [if_neg hdigit, ← List.cons_append]
    generalize hread : absorb maxExponent 0 0 (c :: cs) = read at h
    obtain ⟨n, count, after⟩ := read
    -- what the absorbed digits left is empty only if nothing is left in the end
    have hafter : after = [] → Ends Char.isDigit more := by
      intro hnil
      refine hapart.digit ?_
      subst hnil
      exact rest_of_makeFloat h
    rw [absorb_append maxExponent 0 0 (by rw [hread]; exact hafter), hread]
    dsimp only at h ⊢
    rw [startsWithDigit_append hafter]
    split at h
    · next hends =>
      rw [if_pos hends]
      exact makeFloat_append h more
    next hends =>
    rw [if_neg hends]
    split at h
    · cases h
    next hrange =>
    rw [if_neg hrange]
    cases h
    rw [skipDigits_append hapart.digit]

theorem readExponent_append (h : readExponent negative significand e cs = .ok (x, rest))
    (hapart : Apart rest more) :
    readExponent negative significand e (cs ++ more) = .ok (x, rest ++ more) := by
  cases cs with
  | nil => cases h
  | cons c cs =>
    rw [readExponent_cons] at h
    rw [List.cons_append, readExponent_cons]
    split at h
    · next hplus =>
      rw [if_pos hplus]
      exact exponentDigits_append h hapart
    next hplus =>
    rw [if_neg hplus]
    split at h
    · next hminus =>
      rw [if_pos hminus]
      exact exponentDigits_append h hapart
    next hminus =>
    rw [if_neg hminus]
    exact exponentDigits_append h hapart

theorem readExponent?_append (h : readExponent? negative significand e cs = .ok (x, rest))
    (hapart : Apart rest more) :
    readExponent? negative significand e (cs ++ more) = .ok (x, rest ++ more) := by
  cases cs with
  | nil =>
    have hrest : rest = [] := rest_of_makeFloat h
    have hends := hapart hrest
    unfold readExponent?
    rw [List.nil_append]
    split
    · exact absurd (hends 'e' rfl) (by decide)
    · exact absurd (hends 'E' rfl) (by decide)
    · exact makeFloat_append h more
  | cons c cs =>
    unfold readExponent? at h ⊢
    rw [List.cons_append]
    split at h
    · next heq =>
      cases heq
      exact readExponent_append h hapart
    · next heq =>
      cases heq
      exact readExponent_append h hapart
    · next hsmall hlarge =>
      split
      · next heq =>
        cases heq
        exact absurd rfl (hsmall cs)
      · next heq =>
        cases heq
        exact absurd rfl (hlarge cs)
      · exact makeFloat_append h more

theorem readFraction_append (h : readFraction negative significand e cs = .ok (x, rest))
    (hapart : Apart rest more) :
    readFraction negative significand e (cs ++ more) = .ok (x, rest ++ more) := by
  unfold readFraction at h ⊢
  generalize hread : absorb maxSignificand significand 0 cs = read at h
  obtain ⟨n, count, after⟩ := read
  dsimp only at h
  have hnext : ∀ ds, ds = [] → readExponent? negative n (e - count) ds = .ok (x, rest) →
      Ends Char.isDigit more := by
    rintro ds rfl hds
    exact hapart.digit (rest_of_makeFloat hds)
  have hafter : after = [] → Ends Char.isDigit more := by
    intro hnil
    subst hnil
    split at h
    · next hstarts => cases hstarts
    split at h
    · cases h
    · exact hnext [] rfl h
  rw [absorb_append maxSignificand significand 0 (by rw [hread]; exact hafter), hread]
  dsimp only
  rw [startsWithDigit_append hafter]
  split at h
  · next hstarts =>
    rw [if_pos hstarts, skipDigits_append fun hnil => hnext _ hnil h]
    exact readExponent?_append h hapart
  next hstarts =>
  rw [if_neg hstarts]
  split at h
  · cases h
  next hcount =>
  rw [if_neg hcount]
  exact readExponent?_append h hapart

/-- The rest of a number behind its leading digits, the last `dropped` of them left out of `n`. -/
def numberEnd (negative : Bool) (n dropped : Nat) : Reader JsonNumber := fun cs =>
  match cs with
  | '.' :: rest => readFraction negative n dropped rest
  | 'e' :: rest => readExponent negative n dropped rest
  | 'E' :: rest => readExponent negative n dropped rest
  | cs =>
    if dropped = 0 then .ok (makeInteger negative n, cs) else makeFloat negative n dropped cs

theorem readNumber_cons (negative : Bool) (c : Char) (after : List Char) :
    readNumber negative (c :: after) =
      if !c.isDigit then stopBefore .invalidNumber (c :: after)
      else if c = '0' ∧ startsWithDigit after then stopBefore .invalidNumber after
      else
        let read := absorb maxSignificand 0 0 (c :: after)
        numberEnd negative read.1 (read.2.2.takeWhile Char.isDigit).length
          (skipDigits read.2.2) := rfl

theorem rest_of_numberEnd_nil {n dropped : Nat}
    (h : numberEnd negative n dropped [] = .ok (x, rest)) : rest = [] := by
  unfold numberEnd at h
  dsimp only at h
  split at h
  · cases h
    rfl
  · exact rest_of_makeFloat h

theorem numberEnd_append {n dropped : Nat} (h : numberEnd negative n dropped cs = .ok (x, rest))
    (hapart : Apart rest more) :
    numberEnd negative n dropped (cs ++ more) = .ok (x, rest ++ more) := by
  have hplain : ∀ {ds}, (if dropped = 0 then .ok (makeInteger negative n, ds)
      else makeFloat negative n dropped ds) = .ok (x, rest) →
      (if dropped = 0 then .ok (makeInteger negative n, ds ++ more)
      else makeFloat negative n dropped (ds ++ more)) = .ok (x, rest ++ more) := by
    intro ds hds
    split at hds
    · next hzero =>
      cases hds
      rw [if_pos hzero]
    · next hzero =>
      rw [if_neg hzero]
      exact makeFloat_append hds more
  cases cs with
  | nil =>
    have hends := hapart (rest_of_numberEnd_nil h)
    unfold numberEnd
    rw [List.nil_append]
    split
    · exact absurd (hends '.' rfl) (by decide)
    · exact absurd (hends 'e' rfl) (by decide)
    · exact absurd (hends 'E' rfl) (by decide)
    · exact hplain h
  | cons c cs =>
    unfold numberEnd at h ⊢
    rw [List.cons_append]
    split at h
    · next heq =>
      cases heq
      exact readFraction_append h hapart
    · next heq =>
      cases heq
      exact readExponent_append h hapart
    · next heq =>
      cases heq
      exact readExponent_append h hapart
    · next hpoint hsmall hlarge =>
      split
      · next heq =>
        cases heq
        exact absurd rfl (hpoint cs)
      · next heq =>
        cases heq
        exact absurd rfl (hsmall cs)
      · next heq =>
        cases heq
        exact absurd rfl (hlarge cs)
      · exact hplain h

theorem skipDigits_absorb (limit n count : Nat) (cs : List Char) :
    skipDigits (absorb limit n count cs).2.2 = skipDigits cs := by
  fun_induction absorb limit n count cs with
  | case1 => rfl
  | case2 n count c rest hc ih => rw [ih, skipDigits, skipDigits, List.dropWhile_cons_of_pos hc.1]
  | case3 => rfl

theorem readNumber_append (h : readNumber negative cs = .ok (x, rest)) (hapart : Apart rest more) :
    readNumber negative (cs ++ more) = .ok (x, rest ++ more) := by
  cases cs with
  | nil => cases h
  | cons c after =>
    rw [readNumber_cons] at h
    rw [List.cons_append, readNumber_cons, ← List.cons_append]
    split at h
    · cases h
    next hdigit =>
    rw [if_neg hdigit]
    split at h
    · cases h
    next hzero =>
    dsimp only at h ⊢
    have hnil : skipDigits (c :: after) = [] → Ends Char.isDigit more := by
      intro hnil
      rw [skipDigits_absorb, hnil] at h
      exact hapart.digit (rest_of_numberEnd_nil h)
    have hafter : after = [] → Ends Char.isDigit more := by
      rintro rfl
      refine hnil (List.dropWhile_cons_of_pos ?_)
      simpa using hdigit
    have hskip : skipDigits (absorb maxSignificand 0 0 (c :: after)).2.2 = [] →
        Ends Char.isDigit more := by
      rw [skipDigits_absorb]
      exact hnil
    rw [startsWithDigit_append hafter, if_neg hzero, absorb_append maxSignificand 0 0 fun hrest =>
      hskip (by rw [hrest]; rfl)]
    dsimp only
    rw [takeWhile_isDigit_append hskip, skipDigits_append hskip]
    exact numberEnd_append h hapart

end Numbers

/-! ## Arrays and objects -/

theorem skipBlanks_append_of_cons {after : List Char} (h : skipBlanks cs = c :: after)
    (more : List Char) : skipBlanks (cs ++ more) = c :: (after ++ more) := by
  unfold skipBlanks at h ⊢
  rw [List.dropWhile_append, h]
  rfl

theorem nextItem_append {first : Bool} {text : Option (List Char)}
    (h : nextItem first cs = .ok text) (more : List Char) :
    nextItem first (cs ++ more) = .ok (text.map (· ++ more)) := by
  unfold nextItem at h
  split at h
  · cases h
  next c after hskip =>
  unfold nextItem
  rw [skipBlanks_append_of_cons hskip more]
  dsimp only
  split at h
  · next hend =>
    cases h
    rw [if_pos hend]
    rfl
  next hend =>
  rw [if_neg hend]
  split at h
  · next hfirst =>
    cases h
    rw [if_pos hfirst]
    rfl
  next hfirst =>
  rw [if_neg hfirst]
  split at h
  · next hcomma =>
    rw [if_pos hcomma]
    split at h
    · cases h
    next d behind hskip' =>
    rw [skipBlanks_append_of_cons hskip' more]
    dsimp only
    split at h
    · cases h
    next hclose =>
    cases h
    rw [if_neg hclose]
    rfl
  · cases h

theorem nextMember_append {first : Bool} {text : Option (List Char)}
    (h : nextMember first cs = .ok text) (more : List Char) :
    nextMember first (cs ++ more) = .ok (text.map (· ++ more)) := by
  unfold nextMember at h
  split at h
  · cases h
  next c after hskip =>
  unfold nextMember
  rw [skipBlanks_append_of_cons hskip more]
  dsimp only
  split at h
  · next hend =>
    cases h
    rw [if_pos hend]
    rfl
  next hend =>
  rw [if_neg hend]
  split at h
  · next hfirst =>
    rw [if_pos hfirst]
    split at h
    · next hquote =>
      cases h
      rw [if_pos hquote]
      rfl
    · cases h
  next hfirst =>
  rw [if_neg hfirst]
  split at h
  · next hcomma =>
    rw [if_pos hcomma]
    split at h
    · cases h
    next d behind hskip' =>
    rw [skipBlanks_append_of_cons hskip' more]
    dsimp only
    split at h
    · next hquote =>
      cases h
      rw [if_pos hquote]
      rfl
    · split at h <;> cases h
  · cases h

theorem readColon_append (h : readColon cs = .ok rest) (more : List Char) :
    readColon (cs ++ more) = .ok (rest ++ more) := by
  unfold readColon at h
  split at h
  · cases h
  next c after hskip =>
  unfold readColon
  rw [skipBlanks_append_of_cons hskip more]
  dsimp only
  split at h
  · next hcolon =>
    cases h
    rw [if_pos hcolon]
  · cases h

/-- The blanks before the bracket that closes a list are not all of the text. -/
theorem tail_skipBlanks_append (h : skipBlanks cs ≠ []) (more : List Char) :
    (skipBlanks (cs ++ more)).tail = (skipBlanks cs).tail ++ more := by
  obtain ⟨c, after, hskip⟩ := List.exists_cons_of_ne_nil h
  rw [skipBlanks_append_of_cons hskip more, hskip]
  rfl

theorem skipBlanks_ne_nil_of_nextItem {first : Bool} {text : Option (List Char)}
    (h : nextItem first cs = .ok text) : skipBlanks cs ≠ [] := by
  intro hnil
  unfold nextItem at h
  rw [hnil] at h
  cases h

theorem skipBlanks_ne_nil_of_nextMember {first : Bool} {text : Option (List Char)}
    (h : nextMember first cs = .ok text) : skipBlanks cs ≠ [] := by
  intro hnil
  unfold nextMember at h
  rw [hnil] at h
  cases h

section Loops

variable {α : Type} {one wider : Reader α} {more : List Char} {fuel rounds : Nat}

/-- What one reader reads another reads too, with more text behind it. -/
def Continues (one wider : Reader α) (more : List Char) : Prop :=
  ∀ cs x rest, one cs = .ok (x, rest) → Apart rest more → wider (cs ++ more) = .ok (x, rest ++ more)

theorem readItems_append (hone : Continues one wider more) {out xs : Array α} {first : Bool}
    (hrounds : fuel ≤ rounds) (h : readItems one out first fuel cs = .ok (xs, rest)) :
    readItems wider out first rounds (cs ++ more) = .ok (xs, rest ++ more) := by
  induction fuel generalizing rounds out first cs with
  | zero => cases h
  | succ fuel ih =>
    obtain ⟨rounds, rfl⟩ := Nat.exists_eq_add_one_of_ne_zero (n := rounds) (by omega)
    rw [readItems] at h
    split at h
    · cases h
    · next hnext =>
      cases h
      rw [readItems_end (nextItem_append hnext more),
        tail_skipBlanks_append (skipBlanks_ne_nil_of_nextItem hnext)]
    · next text hnext =>
      split at h
      · cases h
      next x after hx =>
      -- an array goes on behind each of its items
      have hafter : after ≠ [] := by
        rintro rfl
        cases fuel <;> cases h
      rw [readItems_item (nextItem_append hnext more), hone _ _ _ hx (apart_of_ne_nil hafter more)]
      exact ih (by omega) h

theorem readMember_append (hone : Continues one wider more) :
    Continues (readMembers.readMember one) (readMembers.readMember wider) more := by
  intro cs m rest h hapart
  unfold readMembers.readMember at h ⊢
  obtain ⟨⟨name, after⟩, hname, h⟩ := bind_eq_ok_iff.1 h
  obtain ⟨text, hcolon, h⟩ := bind_eq_ok_iff.1 h
  obtain ⟨⟨x, behind⟩, hx, h⟩ := bind_eq_ok_iff.1 h
  cases h
  rw [readString_append hname more]
  dsimp only [bind, Except.bind]
  rw [readColon_append hcolon more]
  dsimp only
  rw [hone _ _ _ hx hapart]

theorem readMembers_append (hone : Continues one wider more) {out ms : Array (String × α)}
    {first : Bool} (hrounds : fuel ≤ rounds)
    (h : readMembers one out first fuel cs = .ok (ms, rest)) :
    readMembers wider out first rounds (cs ++ more) = .ok (ms, rest ++ more) := by
  induction fuel generalizing rounds out first cs with
  | zero => cases h
  | succ fuel ih =>
    obtain ⟨rounds, rfl⟩ := Nat.exists_eq_add_one_of_ne_zero (n := rounds) (by omega)
    rw [readMembers] at h
    split at h
    · cases h
    · next hnext =>
      cases h
      rw [readMembers_end (nextMember_append hnext more),
        tail_skipBlanks_append (skipBlanks_ne_nil_of_nextMember hnext)]
    · next text hnext =>
      split at h
      · cases h
      next m after hm =>
      -- an object goes on behind each of its members
      have hafter : after ≠ [] := by
        rintro rfl
        cases fuel <;> cases h
      rw [readMembers_member (nextMember_append hnext more),
        readMember_append hone _ _ _ hm (apart_of_ne_nil hafter more)]
      exact ih (by omega) h

end Loops

/-! ## Values -/

section Values

variable {fuel rounds levels : Nat} {more : List Char}

theorem Continues.map {α β : Type} {one wider : Reader α} (h : Continues one wider more)
    (make : α → β) :
    Continues (fun cs => do
      let (x, rest) ← one cs
      .ok (make x, rest)) (fun cs => do
      let (x, rest) ← wider cs
      .ok (make x, rest)) more := by
  intro cs y rest hread hapart
  dsimp only at hread ⊢
  obtain ⟨⟨x, after⟩, hx, hread⟩ := bind_eq_ok_iff.1 hread
  cases hread
  rw [h _ _ _ hx hapart]
  rfl

theorem continues_word (j : Json) (word : List Char) :
    Continues (fun cs => do
      let rest ← readWord word cs
      .ok (j, rest)) (fun cs => do
      let rest ← readWord word cs
      .ok (j, rest)) more := by
  intro cs y rest hread _
  dsimp only at hread ⊢
  obtain ⟨after, hafter, hread⟩ := bind_eq_ok_iff.1 hread
  cases hread
  rw [readWord_append hafter more]
  rfl

theorem readValue_append_of (hrounds : fuel ≤ rounds)
    (hless : ∀ less, levels = less + 1 →
      Continues (readValue fuel less) (readValue rounds less) more) :
    Continues (readValue fuel levels) (readValue rounds levels) more := by
  intro cs j rest h hapart
  unfold readValue at h
  split at h
  · cases h
  next c after hskip =>
  unfold readValue
  rw [skipBlanks_append_of_cons hskip more]
  dsimp only
  split at h
  · next hc =>
    rw [if_pos hc]
    exact continues_word .null _ _ _ _ h hapart
  next hc =>
  rw [if_neg hc]
  split at h
  · next hc =>
    rw [if_pos hc]
    exact continues_word (.bool true) _ _ _ _ h hapart
  next hc =>
  rw [if_neg hc]
  split at h
  · next hc =>
    rw [if_pos hc]
    exact continues_word (.bool false) _ _ _ _ h hapart
  next hc =>
  rw [if_neg hc]
  split at h
  · next hc =>
    rw [if_pos hc]
    have hstring : Continues readString readString more :=
      fun _ _ _ hread _ => readString_append hread more
    exact hstring.map Json.string _ _ _ h hapart
  next hc =>
  rw [if_neg hc]
  have hnumber (negative : Bool) : Continues (readNumber negative) (readNumber negative) more :=
    fun _ _ _ => readNumber_append
  split at h
  · next hc =>
    rw [if_pos hc]
    exact (hnumber true).map Json.number _ _ _ h hapart
  next hc =>
  rw [if_neg hc]
  split at h
  · next hc =>
    rw [if_pos hc]
    exact (hnumber false).map Json.number _ _ _ h hapart
  next hc =>
  rw [if_neg hc]
  split at h
  · next hc =>
    rw [if_pos hc]
    split at h
    · cases h
    next less =>
    have hitems : Continues (readItems (readValue fuel less) #[] true fuel)
        (readItems (readValue rounds less) #[] true rounds) more :=
      fun _ _ _ hread _ => readItems_append (hless less rfl) hrounds hread
    exact hitems.map (fun xs => Json.array xs.toList) after j rest h hapart
  next hc =>
  rw [if_neg hc]
  split at h
  · next hc =>
    rw [if_pos hc]
    split at h
    · cases h
    next less =>
    have hmembers : Continues (readMembers (readValue fuel less) #[] true fuel)
        (readMembers (readValue rounds less) #[] true rounds) more :=
      fun _ _ _ hread _ => readMembers_append (hless less rfl) hrounds hread
    exact hmembers.map (fun ms => Json.object (Fields.ofPairs ms.toList)) after j rest h hapart
  · cases h

/-- A value is read the same in more rounds and with more text behind it, unless it is a number
that goes on there. -/
theorem readValue_append (hrounds : fuel ≤ rounds) (levels : Nat) (more : List Char) :
    Continues (readValue fuel levels) (readValue rounds levels) more := by
  induction levels with
  | zero => exact readValue_append_of hrounds nofun
  | succ levels ih =>
    refine readValue_append_of hrounds fun less hless => ?_
    cases hless
    exact ih

end Values

end SaveTree.Json
