/-
  Writes to a composite through its two views.

  A write names a component by position or by name. It changes that component if it brings a node
  of the components' kind, and is dropped without an error in all other cases. So a component is
  always what the last write that changed it brought, or what it was at first, and both views show
  that: a read at its position, a read under its name and the entries they list.
-/
import SaveTree.Proofs.State.Views

namespace SaveTree

/-- A write through the list view or through the object view of a node. -/
inductive ViewWrite where
  | item (i : Nat) (value : State)
  | field (name : String) (value : State)

namespace ViewWrite

/-- What the write brings. -/
def value : ViewWrite → State
  | item _ value | field _ value => value

/-- The position of a composite that the write names, also behind its end. -/
def position? (w : ViewWrite) (c : Composite) : Option Nat :=
  match w with
  | item i _ => some i
  | field name _ => c.position? name

/-- The node after the write. -/
def perform (w : ViewWrite) (s : State) : Except Error State :=
  match w with
  | item i value => s.setItem i value
  | field name value => s.setField name value

/-- The node after one write after the other, up to the first that fails. -/
def performAll (ws : List ViewWrite) (s : State) : Except Error State :=
  ws.foldlM (fun s w => w.perform s) s

/-- The write names the component at position `j` and brings a node of the components' kind. -/
def Changes (w : ViewWrite) (c : Composite) (j : Nat) : Prop :=
  w.position? c = some j ∧ w.value.kind = c.componentKind

instance (w : ViewWrite) (c : Composite) (j : Nat) : Decidable (w.Changes c j) :=
  inferInstanceAs (Decidable (_ ∧ _))

/-- What the last of the writes that changes the component at position `j` brings, or the node
that was there if none does. -/
def last (ws : List ViewWrite) (c : Composite) (j : Nat) (before : State) : State :=
  (ws.filter fun w => w.Changes c j).getLast?.elim before value

/-! ## One write -/

theorem changes_iff_of_kind {c d : Composite} (h : d.kind = c.kind) (w : ViewWrite) (j : Nat) :
    w.Changes d j ↔ w.Changes c j := by
  have hp : w.position? d = w.position? c := by
    cases w with
    | item i value => rfl
    | field name value =>
      simp only [position?, Composite.position?, Composite.names_eq_of_kind h]
  rw [Changes, Changes, hp, Composite.componentKind_eq_of_kind h]

/-- A write to a composite succeeds, and it changes the component it names or nothing. -/
theorem exists_perform_composite (w : ViewWrite) (c : Composite) :
    ∃ d : Composite, w.perform (.composite c) = .ok (.composite d) ∧ d.kind = c.kind ∧
      ∀ j : Nat, (State.composite d).items[j]? =
        (State.composite c).items[j]?.map fun x => if w.Changes c j then w.value else x := by
  have hw : w.perform (.composite c) =
      .ok (.composite ((w.position? c >>= fun i => c.setSlot i w.value).getD c)) := by
    cases w with
    | item i value => rfl
    | field name value => rfl
  obtain ⟨d, hd, hkind, hitems⟩ := State.setSlot_getD c (w.position? c) w.value
  exact ⟨d, by rw [hw, hd], hkind, hitems⟩

/-! ## Writes one after the other -/

theorem last_cons (w : ViewWrite) (ws : List ViewWrite) (c : Composite) (j : Nat) (x : State) :
    last (w :: ws) c j x = last ws c j (if w.Changes c j then w.value else x) := by
  unfold last
  by_cases h : w.Changes c j
  · rw [List.filter_cons_of_pos (by simpa using h), List.getLast?_cons, if_pos h]
    cases (ws.filter fun w => w.Changes c j).getLast? <;> rfl
  · rw [List.filter_cons_of_neg (by simpa using h), if_neg h]

theorem last_eq_of_kind {c d : Composite} (h : d.kind = c.kind) (ws : List ViewWrite) (j : Nat)
    (x : State) : last ws d j x = last ws c j x := by
  have hc : ∀ w : ViewWrite, decide (w.Changes d j) = decide (w.Changes c j) :=
    fun w => decide_eq_decide.2 (changes_iff_of_kind h w j)
  simp only [last, hc]

/-- All writes to a composite succeed, and each component is what the last of them to change it
brought. -/
theorem exists_performAll_composite (ws : List ViewWrite) (c : Composite) :
    ∃ d : Composite, performAll ws (.composite c) = .ok (.composite d) ∧ d.kind = c.kind ∧
      ∀ j, (State.composite d).items[j]? = (State.composite c).items[j]?.map (last ws c j) := by
  induction ws generalizing c with
  | nil =>
    refine ⟨c, rfl, rfl, ?_⟩
    intro j
    exact Option.map_id'.symm
  | cons w ws ih =>
    obtain ⟨b, hb, hbc, hone⟩ := exists_perform_composite w c
    obtain ⟨d, hd, hdb, hrest⟩ := ih b
    refine ⟨d, ?_, hdb.trans hbc, ?_⟩
    · rw [performAll, List.foldlM_cons, hb]
      exact hd
    · intro j
      rw [hrest, hone, Option.map_map]
      congr 1
      funext x
      rw [last_cons, Function.comp_apply, last_eq_of_kind hbc]

/-- Any writes to a composite through its two views, one after the other, succeed and keep its
kind. After them its components are read in four ways with one answer: the node that the last
write to change the component brought, or the component as it was. Behind the end and under other
names there is nothing. The writes may be the start of a longer run, so this holds after each. -/
theorem views_agree_after_writes (c : Composite) (ws : List ViewWrite) :
    ∃ d : Composite, performAll ws (.composite c) = .ok (.composite d) ∧ d.kind = c.kind ∧
      (∀ j name x, c.names[j]? = some name → c.get? j = some x →
        (State.composite d).item j = .ok (some (last ws c j x.toState)) ∧
        (State.composite d).field name = .ok (some (last ws c j x.toState)) ∧
        (State.composite d).items[j]? = some (last ws c j x.toState) ∧
        (State.composite d).fields[j]? = some (name, last ws c j x.toState)) ∧
      (∀ j, c.names.length ≤ j → (State.composite d).item j = .ok none ∧
        (State.composite d).items[j]? = none ∧ (State.composite d).fields[j]? = none) ∧
      ∀ name, name ∉ c.names → (State.composite d).field name = .ok none := by
  obtain ⟨d, hd, hkind, hitems⟩ := exists_performAll_composite ws c
  have hnames : d.names = c.names := Composite.names_eq_of_kind hkind
  refine ⟨d, hd, hkind, ?_, ?_, ?_⟩
  · intro j name x hname hx
    have hitem : (State.composite d).items[j]? = some (last ws c j x.toState) := by
      rw [hitems, State.items, List.getElem?_map, show c.components[j]? = some x from hx]
      rfl
    have hfield : (State.composite d).fields[j]? = some (name, last ws c j x.toState) := by
      rw [State.fields_composite, hnames]
      exact List.getElem?_zip_eq_some.2 ⟨hname, hitem⟩
    have hnodup : (Fields.keys (State.composite d).fields).Nodup := by
      rw [State.keys_fields_composite]
      exact d.nodup_names
    refine ⟨?_, ?_, hitem, hfield⟩
    · rw [State.item_composite, hitem]
    · rw [State.field_composite, Fields.get?_of_mem hnodup (List.mem_of_getElem? hfield)]
  · intro j hj
    have hitem : (State.composite d).items[j]? = none := by
      rw [hitems, State.items, List.getElem?_map, List.getElem?_eq_none]
      · rfl
      · rwa [← c.length_names]
    refine ⟨by rw [State.item_composite, hitem], hitem, ?_⟩
    rw [State.fields_composite, List.getElem?_eq_none]
    rw [List.length_zip, hnames]
    exact Nat.le_trans (Nat.min_le_left _ _) hj
  · intro name hname
    rw [← hnames, ← State.keys_fields_composite, Fields.mem_keys_iff] at hname
    rw [State.field_composite, Option.not_isSome_iff_eq_none.1 hname]

end ViewWrite

end SaveTree
