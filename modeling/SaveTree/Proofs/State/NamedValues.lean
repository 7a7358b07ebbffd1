/-
  Named values and their object.

  Named values are updated one after the other: each has its part in an object (`Persistable.visit`)
  or is passed over, and the first update that fails ends the walk with the values before it
  updated and those behind it as they were. In the object that named values make themselves, a
  name stands for the last value under it.
-/
import SaveTree.Fields.Lemmas
import SaveTree.Persistable

namespace SaveTree

/-- A name stands for the changed value once all values are changed. -/
theorem Fields.get?_map {α β : Type} (change : α → β) (fs : Fields α) (name : String) :
    Fields.get? (fs.map fun f => (f.1, change f.2)) name = (fs.get? name).map change := by
  induction fs with
  | nil => rfl
  | cons f fs ih =>
    obtain ⟨k, x⟩ := f
    rw [List.map_cons, get?_cons, get?_cons, ih]
    split <;> rfl

namespace Persistable

variable {context α : Type} [Persistable context α] {ctx : context} {fs : Fields State}
  {entries before after out : List (String × α)} {e : String × α} {error : Error}

/-- What comes of the value of an entry, and how its update ends: a value with a field is updated
from it, one without stays as it is. -/
def visit (ctx : context) (fs : Fields State) (e : String × α) : α × Except Error Unit :=
  match Fields.get? fs e.1 with
  | some s => deserialize ctx s e.2
  | none => (e.2, .ok ())

/-- The entry after its value was visited. -/
def visited (ctx : context) (fs : Fields State) (e : String × α) : String × α :=
  (e.1, (visit ctx fs e).1)

/-! ## The walk -/

theorem deserializeMap_cons_of_ok (h : (visit ctx fs e).2 = .ok ()) :
    deserializeMap ctx fs (e :: entries) =
      (visited ctx fs e :: (deserializeMap ctx fs entries).1, (deserializeMap ctx fs entries).2) := by
  obtain ⟨key, x⟩ := e
  unfold visited
  unfold visit at h ⊢
  rw [deserializeMap]
  dsimp only at h ⊢
  cases hs : Fields.get? fs key with
  | none => rfl
  | some s =>
    rw [hs] at h
    dsimp only at h ⊢
    generalize deserialize ctx s x = updated at h
    obtain ⟨y, result⟩ := updated
    cases h
    rfl

theorem deserializeMap_cons_of_error (h : (visit ctx fs e).2 = .error error) :
    deserializeMap ctx fs (e :: entries) = (visited ctx fs e :: entries, .error error) := by
  obtain ⟨key, x⟩ := e
  unfold visited
  unfold visit at h ⊢
  rw [deserializeMap]
  dsimp only at h ⊢
  cases hs : Fields.get? fs key with
  | none =>
    rw [hs] at h
    cases h
  | some s =>
    rw [hs] at h
    dsimp only at h ⊢
    generalize deserialize ctx s x = updated at h
    obtain ⟨y, result⟩ := updated
    cases h
    rfl

/-- Entries whose updates go well are all visited before what follows them. -/
theorem deserializeMap_append (after : List (String × α))
    (h : ∀ b ∈ before, (visit ctx fs b).2 = .ok ()) :
    deserializeMap ctx fs (before ++ after) =
      (before.map (visited ctx fs) ++ (deserializeMap ctx fs after).1,
        (deserializeMap ctx fs after).2) := by
  induction before with
  | nil => rfl
  | cons b before ih =>
    obtain ⟨hb, hbefore⟩ := List.forall_mem_cons.1 h
    rw [List.cons_append, deserializeMap_cons_of_ok hb, ih hbefore]
    rfl

theorem deserializeMap_of_ok (h : ∀ e ∈ entries, (visit ctx fs e).2 = .ok ()) :
    deserializeMap ctx fs entries = (entries.map (visited ctx fs), .ok ()) := by
  have hwalk := deserializeMap_append [] h
  rw [List.append_nil] at hwalk
  rw [hwalk, deserializeMap, List.append_nil]

theorem deserializeMap_of_error (h : ∀ b ∈ before, (visit ctx fs b).2 = .ok ())
    (he : (visit ctx fs e).2 = .error error) :
    deserializeMap ctx fs (before ++ e :: after) =
      (before.map (visited ctx fs) ++ visited ctx fs e :: after, .error error) := by
  rw [deserializeMap_append _ h, deserializeMap_cons_of_error he]

/-- Either all updates of a sequence go well or there is a first that fails. -/
theorem visits_cases (ctx : context) (fs : Fields State) (entries : List (String × α)) :
    (∀ e ∈ entries, (visit ctx fs e).2 = .ok ()) ∨
      ∃ before e after error, entries = before ++ e :: after ∧
        (∀ b ∈ before, (visit ctx fs b).2 = .ok ()) ∧ (visit ctx fs e).2 = .error error := by
  induction entries with
  | nil => exact .inl nofun
  | cons e entries ih =>
    cases he : (visit ctx fs e).2 with
    | error error => exact .inr ⟨[], e, entries, error, rfl, nofun, he⟩
    | ok u =>
      rcases ih with h | ⟨before, f, after, error, rfl, hbefore, hf⟩
      · exact .inl (List.forall_mem_cons.2 ⟨he, h⟩)
      · exact .inr ⟨e :: before, f, after, error, rfl, List.forall_mem_cons.2 ⟨he, hbefore⟩, hf⟩

theorem deserializeMap_eq_ok_iff : deserializeMap ctx fs entries = (out, .ok ()) ↔
    (∀ e ∈ entries, (visit ctx fs e).2 = .ok ()) ∧ out = entries.map (visited ctx fs) := by
  constructor
  · intro h
    rcases visits_cases ctx fs entries with hall | ⟨before, e, after, error, rfl, hbefore, he⟩
    · rw [deserializeMap_of_ok hall] at h
      exact ⟨hall, (Prod.mk.inj h).1.symm⟩
    · rw [deserializeMap_of_error hbefore he] at h
      cases h
  · rintro ⟨hall, rfl⟩
    exact deserializeMap_of_ok hall

theorem deserializeMap_eq_error_iff : deserializeMap ctx fs entries = (out, .error error) ↔
    ∃ before e after, entries = before ++ e :: after ∧
      (∀ b ∈ before, (visit ctx fs b).2 = .ok ()) ∧ (visit ctx fs e).2 = .error error ∧
      out = before.map (visited ctx fs) ++ visited ctx fs e :: after := by
  constructor
  · intro h
    rcases visits_cases ctx fs entries with hall | ⟨before, e, after, error, rfl, hbefore, he⟩
    · rw [deserializeMap_of_ok hall] at h
      cases h
    · rw [deserializeMap_of_error hbefore he] at h
      cases h
      exact ⟨before, e, after, rfl, hbefore, he, rfl⟩
  · rintro ⟨before, e, after, rfl, hbefore, he, rfl⟩
    exact deserializeMap_of_error hbefore he

/-! ## The object of named values -/

/-- A name stands for the last value under it. -/
theorem get?_serializeMap (ctx : context) (entries : List (String × α)) (key : String) :
    Fields.get? (serializeMap ctx entries) key =
      (Fields.get? entries.reverse key).map (serialize ctx) := by
  rw [serializeMap, Fields.get?_ofPairs, ← List.map_reverse]
  exact Fields.get?_map _ _ _

/-- What is last under a name stands in front of nothing else under it. -/
theorem get?_reverse_eq_some_iff {key : String} {x : α} :
    Fields.get? entries.reverse key = some x ↔
      ∃ before after, entries = before ++ (key, x) :: after ∧ key ∉ Fields.keys after := by
  have hkeys : ∀ later : List (String × α),
      (∀ p ∈ later, key != p.1) ↔ key ∉ Fields.keys later.reverse := by
    intro later
    simp only [bne_iff_ne, Fields.keys, List.map_reverse, List.mem_reverse, List.mem_map, not_exists,
      not_and]
    exact forall₂_congr fun p _ => ne_comm
  unfold Fields.get?
  rw [List.lookup_eq_some_iff]
  simp only [hkeys]
  constructor
  · rintro ⟨later, earlier, hsplit, hlater⟩
    refine ⟨earlier.reverse, later.reverse, ?_, hlater⟩
    rw [← List.reverse_reverse entries, hsplit]
    simp
  · rintro ⟨earlier, later, rfl, hlater⟩
    refine ⟨later.reverse, earlier.reverse, by simp, ?_⟩
    rwa [List.reverse_reverse]

theorem visit_serializeMap {key : String} {x y : α} (hx : Fields.get? entries.reverse key = some x) :
    visit ctx (serializeMap ctx entries) (key, y) = deserialize ctx (serialize ctx x) y := by
  unfold visit
  rw [get?_serializeMap, hx]
  rfl

/-- Named values are updated in order from their fields. If no update fails, all are updated; if
one does, its error is the result, the values before it are updated and those behind it stay. From
the object that named values make, each is updated from the tree of the last value under its name,
which is its own where the names differ. -/
theorem named_values (ctx : context) (fs : Fields State) (entries : List (String × α)) :
    (∀ out, deserializeMap ctx fs entries = (out, .ok ()) ↔
      (∀ e ∈ entries, (visit ctx fs e).2 = .ok ()) ∧ out = entries.map (visited ctx fs)) ∧
    (∀ out error, deserializeMap ctx fs entries = (out, .error error) ↔
      ∃ before e after, entries = before ++ e :: after ∧
        (∀ b ∈ before, (visit ctx fs b).2 = .ok ()) ∧ (visit ctx fs e).2 = .error error ∧
        out = before.map (visited ctx fs) ++ visited ctx fs e :: after) ∧
    (∀ e ∈ entries, ∃ before x after, entries = before ++ (e.1, x) :: after ∧
      e.1 ∉ Fields.keys after ∧
      visit ctx (serializeMap ctx entries) e = deserialize ctx (serialize ctx x) e.2) ∧
    ((Fields.keys entries).Nodup → ∀ e ∈ entries,
      visit ctx (serializeMap ctx entries) e = deserialize ctx (serialize ctx e.2) e.2) := by
  refine ⟨fun out => deserializeMap_eq_ok_iff, fun out error => deserializeMap_eq_error_iff,
    fun e he => ?_, fun hnames e he => ?_⟩
  · obtain ⟨key, y⟩ := e
    have hkey : key ∈ Fields.keys entries.reverse := by
      rw [Fields.keys, List.map_reverse, List.mem_reverse]
      exact List.mem_map_of_mem he
    obtain ⟨x, hx⟩ := Fields.exists_get?_of_mem_keys hkey
    obtain ⟨before, after, hsplit, hlast⟩ := get?_reverse_eq_some_iff.1 hx
    exact ⟨before, x, after, hsplit, hlast, visit_serializeMap hx⟩
  · obtain ⟨key, x⟩ := e
    have hreverse : (Fields.keys entries.reverse).Nodup :=
      ((List.reverse_perm entries).map Prod.fst).nodup_iff.2 hnames
    exact visit_serializeMap (Fields.get?_of_mem hreverse (List.mem_reverse.2 he))

/-- One counter is updated, one is passed over, one refuses its field, and the last is not
reached. -/
example : deserializeMap (1 : Int32)
    [("a", .object [("count", .int 2)]), ("c", .bool true), ("d", .object [])]
    [("a", (⟨0⟩ : Counter)), ("b", ⟨5⟩), ("c", ⟨7⟩), ("d", ⟨9⟩)] =
      ([("a", ⟨3⟩), ("b", ⟨5⟩), ("c", ⟨7⟩), ("d", ⟨9⟩)],
        .error (.typeMismatch (.only .object) .bool)) := rfl

end Persistable

end SaveTree
