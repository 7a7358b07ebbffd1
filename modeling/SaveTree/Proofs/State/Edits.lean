/-
  Runs of edits on an object.

  A call sets a name, to a given node or to a new empty container, or removes it. The calls alone
  tell what a run of them leaves: a name is there if the last call about it was a set, or if it was
  there from the start and never removed, and it has the value of that last set. The names stand in
  the order of the first set after their last removal (`since?`), the names of the start counting as
  set in their order. One call shows in the fields as it shows in the calls (`perform_snd`,
  `since?_append_singleton`); the run is an induction from its end.
-/
import Mathlib.Data.List.Induction
import SaveTree.State.View
import SaveTree.Fields.Lemmas

namespace SaveTree

/-- A call that changes the fields of an object. -/
inductive Edit where
  | set (name : String) (value : State)
  | setNewList (name : String)
  | setNewObject (name : String)
  | remove (name : String)

namespace Edit

/-- The name that a call is about. -/
def name : Edit → String
  | set n _ => n
  | setNewList n => n
  | setNewObject n => n
  | remove n => n

/-- What a call leaves under its name. -/
def value? : Edit → Option State
  | set _ v => some v
  | setNewList _ => some (.list [])
  | setNewObject _ => some (.object [])
  | remove _ => none

/-- The call sets the name `n`. -/
def Sets (n : String) (e : Edit) : Prop := e.name = n ∧ e.value?.isSome

/-- The call removes the name `n`. -/
def Removes (n : String) (e : Edit) : Prop := e.name = n ∧ e.value?.isNone

instance (n : String) : DecidablePred (Sets n) := fun _ => inferInstanceAs (Decidable (_ ∧ _))

instance (n : String) : DecidablePred (Removes n) := fun _ => inferInstanceAs (Decidable (_ ∧ _))

/-- The answer to a call on the fields of an object, and the fields after it. A name set to a new
container is answered with that container. -/
def perform (fs : Fields State) : Edit → Option State × Fields State
  | set n v => fs.exchange n v
  | setNewList n => (some (.list []), fs.setEntry n (.list []))
  | setNewObject n => (some (.object []), fs.setEntry n (.object []))
  | remove n => fs.remove n

/-- The fields after calls one after the other. -/
def performAll (fs : Fields State) (calls : List Edit) : Fields State :=
  calls.foldl (fun fs e => (e.perform fs).2) fs

/-- The calls that set pairs of a name and a value, in their order. -/
def opening (pairs : List (String × State)) : List Edit := pairs.map fun p => set p.1 p.2

/-- The last call about the name `n`. -/
def last? (n : String) (calls : List Edit) : Option Edit :=
  (calls.filter fun e => e.name = n).getLast?

/-- The last call that sets the name `n`. -/
def lastSet? (n : String) (calls : List Edit) : Option Edit :=
  (calls.filter fun e => Sets n e).getLast?

/-- What calls on the fields `fs` leave under the name `n`: what the last call about it leaves, or
what was there if there is none. -/
def left? (fs : Fields State) (calls : List Edit) (n : String) : Option State :=
  match last? n calls with
  | some e => e.value?
  | none => fs.get? n

/-- The position of the first call that sets the name `n` and has no removal of `n` behind it: of
its first set after its last removal. -/
def since? (n : String) : List Edit → Option Nat
  | [] => none
  | e :: rest =>
    if Sets n e ∧ ∀ d ∈ rest, ¬ Removes n d then some 0 else (since? n rest).map (· + 1)

/-- The name `a` has been there for longer than the name `b`. -/
def Precedes (calls : List Edit) (a b : String) : Prop :=
  ∃ i j, since? a calls = some i ∧ since? b calls = some j ∧ i < j

/-! ## One call -/

theorem perform_snd (fs : Fields State) (e : Edit) :
    (e.perform fs).2 = match e.value? with
      | some v => fs.set e.name v
      | none => fs.erase e.name := by
  cases e with
  | set n v => exact congrArg Prod.snd (Fields.exchange_eq fs n v)
  | setNewList n => exact Fields.setEntry_eq_set fs n _
  | setNewObject n => exact Fields.setEntry_eq_set fs n _
  | remove n => exact congrArg Prod.snd (Fields.remove_eq fs n)

theorem nodup_keys_perform {fs : Fields State} (h : fs.keys.Nodup) (e : Edit) :
    (e.perform fs).2.keys.Nodup := by
  rw [perform_snd]
  split
  · exact Fields.nodup_keys_set h _ _
  · exact Fields.nodup_keys_erase h _

theorem get?_perform {fs : Fields State} (h : fs.keys.Nodup) (e : Edit) (n : String) :
    (e.perform fs).2.get? n = if e.name = n then e.value? else fs.get? n := by
  rw [perform_snd]
  split
  · next v hv => rw [Fields.get?_set, hv]
  · next hv => rw [Fields.get?_erase h, hv]

theorem sets_or_removes {e : Edit} {n : String} (h : e.name = n) : Sets n e ∨ Removes n e := by
  cases hv : e.value? with
  | some v => exact Or.inl ⟨h, by rw [hv]; rfl⟩
  | none => exact Or.inr ⟨h, by rw [hv]; rfl⟩

theorem Sets.not_removes {e : Edit} {n : String} (h : Sets n e) : ¬ Removes n e := by
  intro hr
  obtain ⟨v, hv⟩ := Option.isSome_iff_exists.1 h.2
  have hn := hr.2
  rw [hv] at hn
  cases hn

/-! ## When a name was set -/

theorem since?_cons (n : String) (e : Edit) (rest : List Edit) :
    since? n (e :: rest) =
      if Sets n e ∧ ∀ d ∈ rest, ¬ Removes n d then some 0 else (since? n rest).map (· + 1) := rfl

theorem since?_lt {n : String} {calls : List Edit} {i : Nat} (h : since? n calls = some i) :
    i < calls.length := by
  induction calls generalizing i with
  | nil => cases h
  | cons e rest ih =>
    rw [since?_cons] at h
    split at h
    · cases h
      exact Nat.succ_pos _
    · obtain ⟨j, hj, rfl⟩ := Option.map_eq_some_iff.1 h
      exact Nat.succ_lt_succ (ih hj)

/-- A name removed at the end has not been set since. A set at the end counts from the call that
put the name there, or from itself. -/
theorem since?_append_singleton (n : String) (calls : List Edit) (e : Edit) :
    since? n (calls ++ [e]) =
      if Removes n e then none
      else if Sets n e then some ((since? n calls).getD calls.length)
      else since? n calls := by
  induction calls with
  | nil =>
    rw [List.nil_append, since?_cons]
    by_cases hs : Sets n e
    · simp [hs, hs.not_removes, since?]
    · simp [hs, since?]
  | cons d rest ih =>
    rw [List.cons_append, since?_cons, since?_cons, ih]
    by_cases hr : Removes n e
    · simp [hr]
    · have hall : (∀ c ∈ rest ++ [e], ¬ Removes n c) ↔ ∀ c ∈ rest, ¬ Removes n c := by
        simp [or_imp, forall_and, hr]
      simp only [if_neg hr, hall]
      by_cases hd : Sets n d ∧ ∀ c ∈ rest, ¬ Removes n c
      · simp only [if_pos hd]
        split <;> rfl
      · by_cases hs : Sets n e
        · simp only [if_neg hd, if_pos hs]
          cases since? n rest <;> rfl
        · simp only [if_neg hd, if_neg hs]

theorem since?_append_of_ne {n : String} {e : Edit} (h : e.name ≠ n) (calls : List Edit) :
    since? n (calls ++ [e]) = since? n calls := by
  rw [since?_append_singleton, if_neg fun hr => h hr.1, if_neg fun hs => h hs.1]

/-! ## A run of calls -/

theorem performAll_append (fs : Fields State) (calls more : List Edit) :
    performAll fs (calls ++ more) = performAll (performAll fs calls) more :=
  List.foldl_append

theorem performAll_singleton (fs : Fields State) (e : Edit) :
    performAll fs [e] = (e.perform fs).2 := rfl

theorem nodup_keys_performAll {fs : Fields State} (h : fs.keys.Nodup) (calls : List Edit) :
    (performAll fs calls).keys.Nodup := by
  induction calls using List.reverseRecOn with
  | nil => exact h
  | append_singleton calls e ih =>
    rw [performAll_append]
    exact nodup_keys_perform ih e

theorem performAll_opening (fs pairs : Fields State) : performAll fs (opening pairs) =
    pairs.foldl (fun fs (name, value) => fs.set name value) fs := by
  have hstep : (fun (fs : Fields State) (p : String × State) => ((set p.1 p.2).perform fs).2) =
      fun fs (name, value) => fs.set name value := by
    funext fs p
    exact perform_snd fs (set p.1 p.2)
  rw [performAll, opening, List.foldl_map, hstep]

/-- Setting the names of an object one after the other builds it. -/
theorem performAll_opening_of_nodup {fs : Fields State} (h : fs.keys.Nodup) :
    performAll [] (opening fs) = fs := by
  rw [performAll_opening]
  exact Fields.foldl_set_of_nodup [] fs h

theorem last?_append_singleton (n : String) (calls : List Edit) (e : Edit) :
    last? n (calls ++ [e]) = if e.name = n then some e else last? n calls := by
  unfold last?
  rw [List.filter_append]
  by_cases h : e.name = n <;> simp [h]

theorem lastSet?_append_singleton (n : String) (calls : List Edit) (e : Edit) :
    lastSet? n (calls ++ [e]) = if Sets n e then some e else lastSet? n calls := by
  unfold lastSet?
  rw [List.filter_append]
  by_cases h : Sets n e <;> simp [h]

theorem left?_append_singleton (fs : Fields State) (calls : List Edit) (e : Edit) (n : String) :
    left? fs (calls ++ [e]) n = if e.name = n then e.value? else left? fs calls n := by
  rw [left?, left?, last?_append_singleton]
  by_cases h : e.name = n <;> simp [h]

theorem get?_performAll {fs : Fields State} (h : fs.keys.Nodup) (calls : List Edit) (n : String) :
    (performAll fs calls).get? n = left? fs calls n := by
  induction calls using List.reverseRecOn with
  | nil => rfl
  | append_singleton calls e ih =>
    rw [performAll_append, performAll_singleton, get?_perform (nodup_keys_performAll h calls),
      left?_append_singleton, ih]

/-! ## What the last calls left -/

theorem isSome_left?_iff (fs : Fields State) (calls : List Edit) (n : String) :
    (left? fs calls n).isSome ↔ (n ∈ fs.keys ∧ ∀ e ∈ calls, ¬ Removes n e) ∨
      ∃ e, last? n calls = some e ∧ Sets n e := by
  induction calls using List.reverseRecOn with
  | nil => simp [left?, last?, Fields.mem_keys_iff]
  | append_singleton calls e ih =>
    rw [left?_append_singleton, last?_append_singleton]
    by_cases hn : e.name = n
    · rcases sets_or_removes hn with hs | hr
      · simp [hn, hs, hs.2]
      · have hnone : ¬ Sets n e := fun hs => hs.not_removes hr
        simp [hn, hr, hnone, Option.isNone_iff_eq_none.1 hr.2]
    · have hr : ¬ Removes n e := fun hr => hn hr.1
      simp [hn, ih, hr, or_imp, forall_and]

/-- What is left under a name comes from the last call that set it. -/
theorem left?_eq_of_isSome {fs : Fields State} {calls : List Edit} {n : String}
    (h : (left? fs calls n).isSome) : left? fs calls n = match lastSet? n calls with
      | some e => e.value?
      | none => fs.get? n := by
  induction calls using List.reverseRecOn with
  | nil => rfl
  | append_singleton calls e ih =>
    rw [left?_append_singleton] at h ⊢
    rw [lastSet?_append_singleton]
    by_cases hn : e.name = n
    · rw [if_pos hn] at h ⊢
      rw [if_pos ⟨hn, h⟩]
    · rw [if_neg hn] at h ⊢
      rw [if_neg fun hs => hn hs.1]
      exact ih h

/-! ## The order -/

/-- The names are those that stand since some call, in the order of these calls. -/
structure Stands (calls : List Edit) (names : List String) : Prop where
  mem_iff : ∀ n, n ∈ names ↔ (since? n calls).isSome
  ordered : names.Pairwise (Precedes calls)

theorem Precedes.congr {calls more : List Edit} {a b : String} (h : Precedes calls a b)
    (ha : since? a more = since? a calls) (hb : since? b more = since? b calls) :
    Precedes more a b := by
  obtain ⟨i, j, hi, hj, hij⟩ := h
  exact ⟨i, j, ha.trans hi, hb.trans hj, hij⟩

theorem since?_append_set {e : Edit} (h : Sets e.name e) (calls : List Edit) :
    since? e.name (calls ++ [e]) = some ((since? e.name calls).getD calls.length) := by
  rw [since?_append_singleton, if_neg h.not_removes, if_pos h]

theorem since?_append_remove {e : Edit} (h : Removes e.name e) (calls : List Edit) :
    since? e.name (calls ++ [e]) = none := by
  rw [since?_append_singleton, if_pos h]

namespace Stands

variable {calls : List Edit} {names : List String} {e : Edit}

/-- A name set again stands where it stood. -/
theorem again (h : Stands calls names) (he : Sets e.name e) (hmem : e.name ∈ names) :
    Stands (calls ++ [e]) names := by
  have hsame : ∀ n ∈ names, since? n (calls ++ [e]) = since? n calls := by
    intro n _
    by_cases hn : e.name = n
    · obtain ⟨i, hi⟩ := Option.isSome_iff_exists.1 ((h.mem_iff e.name).1 hmem)
      rw [← hn, since?_append_set he, hi]
      rfl
    · exact since?_append_of_ne hn calls
  refine ⟨fun n => ?_, h.ordered.imp_of_mem fun ha hb hab => hab.congr (hsame _ ha) (hsame _ hb)⟩
  by_cases hn : e.name = n
  · simp [← hn, hmem, since?_append_set he]
  · rw [since?_append_of_ne hn, h.mem_iff]

/-- A new name stands behind all others. -/
theorem append (h : Stands calls names) (he : Sets e.name e) (hmem : e.name ∉ names) :
    Stands (calls ++ [e]) (names ++ [e.name]) := by
  have hsince : since? e.name (calls ++ [e]) = some calls.length := by
    rw [h.mem_iff] at hmem
    rw [since?_append_set he, Option.not_isSome_iff_eq_none.1 hmem]
    rfl
  have hother : ∀ n ∈ names, since? n (calls ++ [e]) = since? n calls := fun n hn =>
    since?_append_of_ne (fun heq => hmem (heq ▸ hn)) calls
  refine ⟨fun n => ?_, List.pairwise_append.2 ⟨?_, List.pairwise_singleton _ _, ?_⟩⟩
  · rw [List.mem_append, List.mem_singleton]
    by_cases hn : e.name = n
    · simp [← hn, hsince]
    · rw [since?_append_of_ne hn, h.mem_iff, or_iff_left fun hn' => hn hn'.symm]
  · exact h.ordered.imp_of_mem fun ha hb hab => hab.congr (hother _ ha) (hother _ hb)
  · intro a ha b hb
    rw [List.mem_singleton.1 hb]
    obtain ⟨i, hi⟩ := Option.isSome_iff_exists.1 ((h.mem_iff a).1 ha)
    exact ⟨i, calls.length, (hother a ha).trans hi, hsince, since?_lt hi⟩

/-- The names around a removed one close up. -/
theorem erase (h : Stands calls names) (he : Removes e.name e) (hnames : names.Nodup) :
    Stands (calls ++ [e]) (names.erase e.name) := by
  have hother : ∀ n ∈ names.erase e.name, since? n (calls ++ [e]) = since? n calls :=
    fun n hn => since?_append_of_ne (hnames.mem_erase_iff.1 hn).1.symm calls
  refine ⟨fun n => ?_, ?_⟩
  · rw [hnames.mem_erase_iff]
    by_cases hn : e.name = n
    · simp [← hn, since?_append_remove he]
    · rw [since?_append_of_ne hn, h.mem_iff, and_iff_right fun hn' => hn hn'.symm]
  · exact (h.ordered.sublist List.erase_sublist).imp_of_mem fun ha hb hab =>
      hab.congr (hother _ ha) (hother _ hb)

theorem perform {fs : Fields State} (h : Stands calls fs.keys) (hfs : fs.keys.Nodup) :
    Stands (calls ++ [e]) (e.perform fs).2.keys := by
  rw [perform_snd]
  rcases sets_or_removes (rfl : e.name = e.name) with he | he
  · obtain ⟨v, hv⟩ := Option.isSome_iff_exists.1 he.2
    simp only [hv, Fields.keys_set]
    split
    · next hmem => exact h.again he hmem
    · next hmem => exact h.append he hmem
  · simp only [Option.isNone_iff_eq_none.1 he.2, Fields.keys_erase]
    exact h.erase he hfs

end Stands

theorem stands_performAll (calls : List Edit) : Stands calls (performAll [] calls).keys := by
  induction calls using List.reverseRecOn with
  | nil => exact ⟨by simp [performAll, since?], List.Pairwise.nil⟩
  | append_singleton calls e ih =>
    rw [performAll_append]
    exact ih.perform (@nodup_keys_performAll [] List.nodup_nil calls)

/-! ## Every reader after a run -/

/-- After any calls on an object a name is present if it was there from the start and never
removed, or the last call about it was a set, and it has the value of its last set. The names stand
in the order of the first set after their last removal, those of the start counting as set before
all calls. A next call to set or to remove a name answers with what is there, and every reader
gives what the calls left. The calls may be the start of a longer run, so this holds at each call
of a run. -/
theorem run_of_edits {fs : Fields State} (h : fs.keys.Nodup) (calls : List Edit) :
    let after := performAll fs calls
    (∀ n, n ∈ after.keys ↔ (n ∈ fs.keys ∧ ∀ e ∈ calls, ¬ Removes n e) ∨
      ∃ e, last? n calls = some e ∧ Sets n e) ∧
    (∀ n ∈ after.keys, after.get? n = match lastSet? n calls with
      | some e => e.value?
      | none => fs.get? n) ∧
    after.keys.Nodup ∧ after.keys.Pairwise (Precedes (opening fs ++ calls)) ∧
    (∀ n v, ((set n v).perform after).1 = left? fs calls n ∧
      ((remove n).perform after).1 = left? fs calls n) ∧
    (∀ n, after.get? n = left? fs calls n ∧ after.hasKey n = (left? fs calls n).isSome ∧
      ∀ t, Members.get? after t n = left? fs calls n >>= State.cast t) ∧
    after.length = after.keys.length ∧
    after.values.map some = after.keys.map (left? fs calls) ∧
    after = after.keys.zip after.values := by
  intro after
  have hnodup : after.keys.Nodup := nodup_keys_performAll h calls
  have hget : ∀ n, after.get? n = left? fs calls n := get?_performAll h calls
  have hstands : Stands (opening fs ++ calls) after.keys := by
    have hrun := stands_performAll (opening fs ++ calls)
    rwa [performAll_append, performAll_opening_of_nodup h] at hrun
  refine ⟨fun n => ?_, fun n hn => ?_, hnodup, hstands.ordered, fun n v => ⟨?_, ?_⟩, fun n => ?_,
    (Fields.length_keys after).symm, ?_, ?_⟩
  · rw [Fields.mem_keys_iff, hget, isSome_left?_iff]
  · rw [Fields.mem_keys_iff, hget] at hn
    rw [hget, left?_eq_of_isSome hn]
  · rw [← hget, perform, Fields.exchange_eq]
  · rw [← hget, perform, Fields.remove_eq]
  · refine ⟨hget n, congrArg Option.isSome (hget n), fun t => ?_⟩
    rw [Members.get?, hget]
  · rw [Fields.values, Fields.keys, List.map_map, List.map_map]
    refine List.map_congr_left fun f hf => ?_
    exact (Fields.get?_of_mem hnodup hf).symm.trans (hget f.1)
  · rw [Fields.keys, Fields.values, List.zip_map']
    exact (List.map_id _).symm

/-- An object with two fields. -/
def sampleFields : Fields State := [("a", .bool true), ("b", .bool false)]

/-- Calls that remove the first field, set it again and overwrite the second. -/
def sampleCalls : List Edit :=
  [remove "a", set "c" (.string "x"), setNewList "b", set "a" (.int 1), remove "c",
    set "c" (.string "y")]

theorem run_of_edits_sampleCalls :
    sampleFields.keys.Nodup ∧ (performAll sampleFields sampleCalls).keys = ["b", "a", "c"] ∧
      ["b", "a", "c"].Pairwise (Precedes (opening sampleFields ++ sampleCalls)) ∧
      (performAll sampleFields sampleCalls).get? "b" = some (.list []) ∧
      ((remove "c").perform (performAll sampleFields sampleCalls)).1 = some (.string "y") := by
  have hnodup : sampleFields.keys.Nodup := by decide
  have hkeys : (performAll sampleFields sampleCalls).keys = ["b", "a", "c"] := by decide
  obtain ⟨-, hvalue, -, horder, hanswer, -⟩ := run_of_edits hnodup sampleCalls
  refine ⟨hnodup, hkeys, hkeys ▸ horder, ?_, (hanswer "c" (.bool true)).2⟩
  exact hvalue "b" (by rw [hkeys]; decide)

end Edit

end SaveTree
