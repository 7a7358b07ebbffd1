/-
  Writes that keep a tree storable.

  A write brings new nodes to a tree only from the value, and new names only from the path. So a
  tree that can be stored stays one, if the value can be stored and the names of the path are not
  too long (`storable_set`); those of a path that was read are no longer than its text.
-/
import SaveTree.Proofs.Path.Every
import SaveTree.Proofs.Path.Parse
import SaveTree.Proofs.Text.Utf8

namespace SaveTree

namespace State

theorem keptAt_shortTexts {keys : List PathKey}
    (hk : ∀ name, .field name ∈ keys → (Utf8.encode name).length < 2 ^ 32) :
    KeptAt ShortTexts keys := by
  refine keptAt_of_fields (fun _ => trivial) (fun _ => trivial) fun name hmem fs v hs f hf => ?_
  rcases Fields.mem_set hf with hf | rfl
  · exact hs f hf
  · exact hk name hmem

end State

namespace Path

variable {p : Path} {r t v : State}

theorem storable_set (hr : r.Storable) (hv : v.Storable)
    (hp : ∀ name, .field name ∈ p.keys → (Utf8.encode name).length < 2 ^ 32)
    (h : p.set r v = .ok t) : t.Storable := by
  have hs : ∀ x : Component, x.toState.ShortTexts := fun x => by cases x <;> trivial
  exact ⟨distinctNames_set hr.1 hv.1 h, every_set hs (State.keptAt_shortTexts hp) hr.2 hv.2 h⟩

/-! ## Names of a path text -/

theorem length_name_le_of_steps {cs : List Char} {ks : List PathKey} (h : Steps cs ks)
    {name : String} (hn : .field name ∈ ks) : (Utf8.encode name).length ≤ Utf8.width cs := by
  induction h with
  | nil => cases hn
  | @field chars cs ks _ _ ih =>
    rw [Utf8.width_cons, Utf8.width_append]
    rcases List.mem_cons.1 hn with hname | hn
    · cases hname
      rw [Utf8.length_encode, String.toList_ofList]
      omega
    · have := ih hn
      omega
  | @index digits cs n ks _ _ _ ih =>
    rw [Utf8.width_cons, Utf8.width_append, Utf8.width_cons]
    rcases List.mem_cons.1 hn with hname | hn
    · cases hname
    · have := ih hn
      omega

/-- The names of a path that was read are no longer than its text. -/
theorem length_name_le_of_parse {text : String} (h : parse text = .ok p) {name : String}
    (hn : .field name ∈ p.keys) : (Utf8.encode name).length ≤ (Utf8.encode text).length := by
  have hspells := parse_eq_ok_iff.1 h
  rw [Utf8.length_encode text]
  generalize text.toList = cs at hspells
  generalize p.keys = ks at hspells hn
  cases hspells with
  | root => cases hn
  | @first chars cs ks _ hsteps =>
    rw [Utf8.width_append]
    rcases List.mem_cons.1 hn with hname | hn
    · cases hname
      rw [Utf8.length_encode, String.toList_ofList]
      omega
    · have := length_name_le_of_steps hsteps hn
      omega

end Path

end SaveTree
