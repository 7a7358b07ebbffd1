/-
  Trees that differ at some nodes.

  A change of single nodes, such as another order of an object's fields, may happen at any place
  of a tree: `Inside change` is one such change, with everything around it left as it was. Two
  trees are the same up to the order of fields (`Reordered`) if finitely many of them lead from
  one to the other.
-/
import Mathlib.Logic.Relation
import SaveTree.Fields.Lemmas
import SaveTree.Proofs.State.Tree

namespace SaveTree.State

/-- One node of a tree, at any depth, is changed and the rest stays as it is. -/
inductive Inside (change : State → State → Prop) : State → State → Prop
  | here {s t : State} (h : change s t) : Inside change s t
  | item {xs : List State} {i : Nat} {x y : State} (hx : xs[i]? = some x)
      (h : Inside change x y) : Inside change (list xs) (list (xs.set i y))
  | field {fs : Fields State} {name : String} {x y : State} (hx : Fields.get? fs name = some x)
      (h : Inside change x y) : Inside change (object fs) (object (Fields.set fs name y))

/-- An object has its fields in another order. -/
inductive Permuted : State → State → Prop
  | object {fs gs : Fields State} (h : fs.Perm gs) : Permuted (object fs) (object gs)

/-- The same tree up to the order of the fields inside objects. -/
def Reordered : State → State → Prop := Relation.ReflTransGen (Inside Permuted)

theorem distinctNames_of_inside {change : State → State → Prop}
    (hc : ∀ s t, change s t → s.Every DistinctNames → t.Every DistinctNames) {s t : State}
    (h : Inside change s t) (hs : s.Every DistinctNames) : t.Every DistinctNames := by
  induction h with
  | here h => exact hc _ _ h hs
  | item hx _ ih =>
    exact every_list_set hs (ih ((every_list_iff.1 hs).2 _ (List.mem_of_getElem? hx))) trivial
  | @field fs name x y hx _ ih =>
    obtain ⟨hn, hfs⟩ := every_object_iff.1 hs
    exact every_object_set hs (ih (hfs _ (Fields.mem_of_get? hx))) (Fields.nodup_keys_set hn name y)

theorem distinctNames_of_permuted {s t : State} (h : Permuted s t)
    (hs : s.Every DistinctNames) : t.Every DistinctNames := by
  obtain ⟨hp⟩ := h
  obtain ⟨hn, hfs⟩ := every_object_iff.1 hs
  refine every_object_iff.2 ⟨?_, fun f hf => hfs f (hp.mem_iff.2 hf)⟩
  exact (List.Perm.map Prod.fst hp).nodup_iff.1 hn

end SaveTree.State
