/-
  Where the value of an entry is due.

  `Awaits depth bytes below rest`: of bytes that are to be a value, `rest` are left behind the
  headers of some lists and objects and behind the entries that come before in them. What stands
  in `rest` plays no part in that (`Awaits.replace`), and an error that the reader of values makes
  there is its error for all the bytes (`hands_of_awaits`).
-/
import SaveTree.Proofs.Wire.Decode

namespace SaveTree.Wire

/-- Of bytes to be read as a value below `depth` lists and objects, `rest` are left where the value
of an entry is due that lies below `depth'` of them: the header of each list or object around it
announces more entries than come before. -/
inductive Awaits : (depth : Nat) → Bytes → (depth' : Nat) → (rest : Bytes) → Prop
  | here (depth : Nat) (bytes : Bytes) : Awaits depth bytes depth bytes
  | item {depth depth' n : Nat} {header body bytes rest : Bytes} {xs : List State}
      (hd : depth < 512) (hh : HeaderForm.array.Announces header n)
      (hb : Items (depth + 1) body xs) (hn : xs.length < n)
      (h : Awaits (depth + 1) bytes depth' rest) :
      Awaits depth (header ++ (body ++ bytes)) depth' rest
  | field {depth depth' n : Nat} {header body key bytes rest : Bytes}
      {ms : List (String × State)} {name : String} (hd : depth < 512)
      (hh : HeaderForm.map.Announces header n) (hb : Members (depth + 1) body ms)
      (hn : ms.length < n) (hk : TextForm key name) (h : Awaits (depth + 1) bytes depth' rest) :
      Awaits depth (header ++ (body ++ (key ++ bytes))) depth' rest

/-- The bytes behind the place where the value is due may be any. -/
theorem Awaits.replace {depth depth' : Nat} {bytes rest : Bytes}
    (h : Awaits depth bytes depth' rest) :
    ∃ before, bytes = before ++ rest ∧ ∀ other, Awaits depth (before ++ other) depth' other := by
  induction h with
  | here depth bytes => exact ⟨[], rfl, fun other => .here depth other⟩
  | @item depth depth' n header body bytes rest xs hd hh hb hn h ih =>
    obtain ⟨before, rfl, hother⟩ := ih
    refine ⟨header ++ (body ++ before), by simp only [List.append_assoc], fun other => ?_⟩
    have hitem := Awaits.item hd hh hb hn (hother other)
    simpa only [List.append_assoc] using hitem
  | @field depth depth' n header body key bytes rest ms name hd hh hb hn hk h ih =>
    obtain ⟨before, rfl, hother⟩ := ih
    refine ⟨header ++ (body ++ (key ++ before)), by simp only [List.append_assoc], fun other => ?_⟩
    have hfield := Awaits.field hd hh hb hn hk (hother other)
    simpa only [List.append_assoc] using hfield

theorem Awaits.depth_le {depth depth' : Nat} {bytes rest : Bytes}
    (h : Awaits depth bytes depth' rest) (hdepth : depth ≤ maxNesting) : depth' ≤ maxNesting := by
  induction h with
  | here => exact hdepth
  | item hd _ _ _ _ ih => exact ih hd
  | field hd _ _ _ _ _ ih => exact ih hd

/-! ## Errors are handed on -/

/-- On these bytes the reader comes to the rest of them, where it hands over to the next reader:
an error of that one is its own. -/
def Hands {α β : Type} (read : Reader α) (bytes : Bytes) (next : Reader β) (rest : Bytes) : Prop :=
  ∃ before, bytes = before ++ rest ∧ ∀ offset e,
    next ⟨offset + before.length, rest⟩ = .error e → read ⟨offset, bytes⟩ = .error e

section Readers

variable {α β γ : Type} {read : Reader α} {P : Bytes → α → Prop} {bytes rest : Bytes}

theorem Hands.refl (read : Reader α) (bytes : Bytes) : Hands read bytes read bytes :=
  ⟨[], rfl, fun _ _ he => he⟩

theorem Hands.trans {next : Reader β} {last : Reader γ} {tail : Bytes}
    (h : Hands read bytes next rest) (hnext : Hands next rest last tail) :
    Hands read bytes last tail := by
  obtain ⟨before, rfl, he⟩ := h
  obtain ⟨between, rfl, hnext⟩ := hnext
  refine ⟨before ++ between, (List.append_assoc ..).symm, fun offset e hlast => ?_⟩
  rw [List.length_append, ← Nat.add_assoc] at hlast
  exact he offset e (hnext _ e hlast)

theorem Hands.map {next : Reader β} (h : Hands read bytes next rest) (make : α → γ) :
    Hands (fun i => read i >>= fun r => .ok (make r.1, r.2)) bytes next rest := by
  obtain ⟨before, hbytes, he⟩ := h
  refine ⟨before, hbytes, fun offset e hnext => ?_⟩
  dsimp only
  rw [he offset e hnext]
  rfl

/-- A reader of many values fails with one of them, behind those that it has read. -/
theorem readMany_eq_error_iff {n : Nat} {out : Array α} {i : Input} {e : Error} :
    readMany read out n i = .error e ↔
      ∃ k < n, ∃ xs j, readMany read out k i = .ok (xs, j) ∧ read j = .error e := by
  induction n generalizing out i with
  | zero => exact ⟨nofun, fun ⟨k, hk, _⟩ => absurd hk (Nat.not_lt_zero k)⟩
  | succ n ih =>
    rw [readMany]
    cases hi : read i with
    | error f =>
      refine ⟨fun h => ?_, fun h => ?_⟩
      · cases h
        exact ⟨0, Nat.succ_pos n, out, i, rfl, hi⟩
      · obtain ⟨_ | k, -, xs, j, hread, he⟩ := h
        · cases hread
          rw [hi] at he
          cases he
          rfl
        · rw [readMany, hi] at hread
          cases hread
    | ok r =>
      refine ih.trans ⟨fun h => ?_, fun h => ?_⟩
      · obtain ⟨k, hk, xs, j, hread, he⟩ := h
        refine ⟨k + 1, Nat.succ_lt_succ hk, xs, j, ?_, he⟩
        rw [readMany, hi]
        exact hread
      · obtain ⟨_ | k, hk, xs, j, hread, he⟩ := h
        · cases hread
          rw [hi] at he
          cases he
        · rw [readMany, hi] at hread
          exact ⟨k, Nat.lt_of_succ_lt_succ hk, xs, j, hread, he⟩

/-- Entries that have been read do not help if the next one fails. -/
theorem hands_readMany {n : Nat} {body : Bytes} {xs : List α} (h : Accepts read P)
    (hbody : Joined P body xs) (hn : xs.length < n) :
    Hands (readMany read #[] n) (body ++ rest) read rest := by
  refine ⟨body, rfl, fun offset e he => ?_⟩
  have hread := (accepts_readMany h #[] xs.length).read_append ⟨xs, hbody, rfl, rfl⟩ offset rest
  exact readMany_eq_error_iff.2 ⟨xs.length, hn, _, _, hread, he⟩

theorem hands_readField {key : Bytes} {name : String} (hkey : TextForm key name) :
    Hands (readField read) (key ++ rest) read rest := by
  refine ⟨key, rfl, fun offset e he => ?_⟩
  unfold readField
  rw [accepts_readKey.read_append hkey offset rest]
  show (read _ >>= _) = _
  rw [he]
  rfl

end Readers

/-! ## Lists and objects -/

/-- Behind the header of a list or object its entries are read. -/
theorem hands_headed {form : HeaderForm} {n : Nat} {header : Bytes} (levels : Nat) (rest : Bytes)
    (marker : Count → Marker) (entries : Reader State → Nat → Reader State)
    (hleads : ∀ lead c, form.Marks lead c → Marker.ofByte lead = marker c)
    (hopen : ∀ value start c, readBehind (some value) start (marker c) =
      fun i => readCount start c i >>= fun (n, i) => entries value n i)
    (hh : form.Announces header n) :
    Hands (readValue (levels + 1)) (header ++ rest) (entries (readValue levels) n) rest := by
  obtain ⟨lead, c, tail, hl, hc, rfl⟩ := announces_iff.1 hh
  refine ⟨lead :: tail, rfl, fun offset e he => ?_⟩
  show readBehind (some (readValue levels)) offset (Marker.ofByte lead)
    ⟨offset + 1, tail ++ rest⟩ = _
  rw [hleads lead c hl, hopen]
  dsimp only
  rw [(accepts_readCount offset c).read_append hc (offset + 1) rest]
  rw [List.length_cons, Nat.add_comm tail.length, ← Nat.add_assoc] at he
  exact he

variable {levels n : Nat} {header rest : Bytes}

theorem hands_list (hh : HeaderForm.array.Announces header n) :
    Hands (readValue (levels + 1)) (header ++ rest) (readMany (readValue levels) #[] n) rest := by
  have hentries := hands_headed levels rest .array
    (fun value n i => readMany value #[] n i >>= fun r => .ok (State.list r.1.toList, r.2))
    (fun _ c hl => ofByte_eq_of_leads (m := .array c) hl) (fun _ _ _ => rfl) hh
  have hitems := Hands.refl (readMany (readValue levels) #[] n) rest
  exact hentries.trans (hitems.map fun xs => State.list xs.toList)

theorem hands_object (hh : HeaderForm.map.Announces header n) :
    Hands (readValue (levels + 1)) (header ++ rest)
      (readMany (readField (readValue levels)) #[] n) rest := by
  have hentries := hands_headed levels rest .map
    (fun value n i => readMany (readField value) #[] n i >>=
      fun r => .ok (State.object (Fields.ofPairs r.1.toList), r.2))
    (fun _ c hl => ofByte_eq_of_leads (m := .map c) hl) (fun _ _ _ => rfl) hh
  have hfields := Hands.refl (readMany (readField (readValue levels)) #[] n) rest
  exact hentries.trans (hfields.map fun fs => State.object (Fields.ofPairs fs.toList))

/-- Where a list or object may still be opened there is a level for its entries, and the reader of
that level reads values one deeper. -/
theorem level_below {depth : Nat} (hd : depth < maxNesting) :
    maxNesting - depth = maxNesting - (depth + 1) + 1 ∧
      Accepts (readValue (maxNesting - (depth + 1))) (Value (depth + 1)) :=
  ⟨by omega, accepts_readValue _ _ (Nat.sub_add_cancel hd)⟩

/-- An error where a value is due is the error of the whole. -/
theorem hands_of_awaits {depth depth' : Nat} {bytes : Bytes} (h : Awaits depth bytes depth' rest) :
    Hands (readValue (maxNesting - depth)) bytes (readValue (maxNesting - depth')) rest := by
  induction h with
  | here depth bytes => exact .refl _ bytes
  | @item depth _ _ _ _ _ _ _ hd hh hb hn _ ih =>
    obtain ⟨hlevels, hvalue⟩ := level_below hd
    rw [hlevels]
    exact (hands_list hh).trans ((hands_readMany hvalue (items_iff_joined.1 hb) hn).trans ih)
  | @field depth _ _ _ _ _ _ _ _ _ hd hh hb hn hk _ ih =>
    obtain ⟨hlevels, hvalue⟩ := level_below hd
    have hfield := accepts_readField hvalue
    rw [hlevels]
    exact (hands_object hh).trans ((hands_readMany hfield (members_iff_joined.1 hb) hn).trans
      ((hands_readField hk).trans ih))

end SaveTree.Wire
