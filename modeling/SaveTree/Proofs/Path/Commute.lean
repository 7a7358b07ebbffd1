/-
  Writes that commute.

  Two writes at paths that part go through one node together, and from there each of them changes
  a child of its own. So they can be made in either order, with one result. Only the order of two
  names that are both new to that node tells which of them came first; and only in a composite
  can two different steps lead to the same place.
-/
import SaveTree.Proofs.Path.Frame
import SaveTree.Proofs.State.Reordered

namespace SaveTree

namespace State

/-! ## Two writes into one node -/

/-- The step leads to a name that the object does not have. -/
def Adds (s : State) (key : PathKey) : Prop :=
  ∃ fs name, s = object fs ∧ key = .field name ∧ name ∉ Fields.keys fs

theorem not_adds_of_child {s d : State} {key : PathKey} (h : s.child key = .ok d) :
    ¬ s.Adds key := by
  rintro ⟨fs, name, rfl, rfl, hname⟩
  exact hname (Fields.mem_keys_of_get? (at?_of_child h))

theorem exists_store_composite (c : Composite) (key : PathKey) (v : State) :
    ∃ d : Composite, (composite c).store key v = .ok (composite d) ∧ d.kind = c.kind ∧
      ∀ j : Nat, (composite d).items[j]? = (composite c).items[j]?.map fun x =>
        if c.slot? key = some j ∧ v.kind = c.componentKind then v else x := by
  obtain ⟨d, hd, hkind, hitems⟩ := setSlot_getD c (c.slot? key) v
  exact ⟨d, by rw [store_composite, hd], hkind, hitems⟩

/-- In a composite the order of two writes does not matter, unless they lead to one component. -/
theorem store_comm_composite {c : Composite} {k l : PathKey}
    (ha : ¬ (composite c).Aliases k l) (x y : State) :
    ∃ d e f : Composite, (composite c).store k x = .ok (composite d) ∧
      (composite c).store l y = .ok (composite e) ∧
      (composite d).store l y = .ok (composite f) ∧
      (composite e).store k x = .ok (composite f) := by
  obtain ⟨d, hd, hdc, hdi⟩ := exists_store_composite c k x
  obtain ⟨e, he, hec, hei⟩ := exists_store_composite c l y
  obtain ⟨f, hf, hfd, hfi⟩ := exists_store_composite d l y
  obtain ⟨g, hg, hge, hgi⟩ := exists_store_composite e k x
  have hgf : g = f := by
    refine eq_of_items ((hge.trans hec).trans (hfd.trans hdc).symm) (List.ext_getElem? ?_)
    intro j
    rw [hgi, hei, hfi, hdi, Option.map_map, Option.map_map]
    congr 1
    funext z
    simp only [Function.comp_apply, Composite.slot?_eq_of_kind hdc,
      Composite.slot?_eq_of_kind hec, Composite.componentKind_eq_of_kind hdc,
      Composite.componentKind_eq_of_kind hec]
    by_cases hk : c.slot? k = some j
    · have hl : c.slot? l ≠ some j := fun hl => ha ⟨c, j, rfl, hk, hl⟩
      simp [hk, hl]
    · simp [hk]
  exact ⟨d, e, f, hd, he, hf, hgf ▸ hg⟩

/-- Two children of a node are written in either order. What differs is the order of two names that
are both new. -/
theorem store_comm {s a b x y : State} {k l : PathKey} (hkl : k ≠ l) (ha : ¬ s.Aliases k l)
    (hk : s.store k x = .ok a) (hl : s.store l y = .ok b) :
    ∃ t u, a.store l y = .ok t ∧ b.store k x = .ok u ∧
      (t = u ∨ s.Adds k ∧ s.Adds l ∧ Permuted t u) := by
  obtain ⟨fs, m, rfl, rfl⟩ | ⟨xs, i, rfl, rfl⟩ | ⟨c, rfl⟩ := enters_iff.1 (enters_of_store hk)
  · cases l with
    | index j => cases enters_of_store hl
    | field n =>
      cases hk
      cases hl
      have hmn : m ≠ n := fun h => hkl (congrArg _ h)
      refine ⟨_, _, rfl, rfl, ?_⟩
      by_cases hold : m ∈ Fields.keys fs ∨ n ∈ Fields.keys fs
      · exact Or.inl (congrArg object (Fields.set_comm hmn hold x y))
      · rw [not_or] at hold
        refine Or.inr ⟨⟨fs, m, rfl, rfl, hold.1⟩, ⟨fs, n, rfl, rfl, hold.2⟩, ?_⟩
        exact .object (Fields.perm_set_set hmn hold.1 hold.2 x y)
  · cases l with
    | field n => cases enters_of_store hl
    | index j =>
      rw [store_list] at hk hl
      split at hk <;> cases hk
      split at hl <;> cases hl
      next hi hj =>
      have hij : i.toNat ≠ j.toNat := fun h => hkl (congrArg _ (UInt64.toNat_inj.1 h))
      refine ⟨_, _, (store_list _ _ _).trans (if_pos ?_), (store_list _ _ _).trans (if_pos ?_), ?_⟩
      · rwa [List.length_set]
      · rwa [List.length_set]
      · exact Or.inl (congrArg list (List.set_comm x y hij))
  · obtain ⟨d, e, f, hd, he, hde, hed⟩ := store_comm_composite ha x y
    cases hk.symm.trans hd
    cases hl.symm.trans he
    exact ⟨_, _, hde, hed, Or.inl rfl⟩

/-! ## Two writes that part at one node -/

/-- A write behind a step stores one child, and does so too in a node that has the same child. It
goes on below only where a child is there. -/
theorem store_of_replace_cons {s t v : State} {key : PathKey} {ks : List PathKey}
    (h : s.replace (key :: ks) v = .ok t) :
    ∃ x, s.store key x = .ok t ∧ (s.Adds key → ks = []) ∧
      ∀ b : State, b.child key = s.child key → b.replace (key :: ks) v = b.store key x := by
  cases ks with
  | nil =>
    refine ⟨v, by rwa [replace_singleton] at h, fun _ => rfl, ?_⟩
    intro b _
    exact replace_singleton b key v
  | cons next ks =>
    have hne : next :: ks ≠ [] := List.cons_ne_nil next ks
    obtain ⟨c, d, hc, hd, ht⟩ := (replace_cons_eq_ok_iff hne).1 h
    refine ⟨d, ht, fun hadds => absurd hadds (not_adds_of_child hc), ?_⟩
    intro b hb
    rw [replace_cons b key hne, hb, hc]
    show (c.replace (next :: ks) v >>= fun d => b.store key d) = _
    rw [hd]
    rfl

theorem replace_comm {s a b v w : State} {k l : PathKey} {ks ls : List PathKey} (hkl : k ≠ l)
    (ha : ¬ s.Aliases k l) (hk : s.replace (k :: ks) v = .ok a)
    (hl : s.replace (l :: ls) w = .ok b) :
    ∃ t u, a.replace (l :: ls) w = .ok t ∧ b.replace (k :: ks) v = .ok u ∧
      (t = u ∨ (s.Adds k ∧ ks = []) ∧ (s.Adds l ∧ ls = []) ∧ Permuted t u) := by
  obtain ⟨x, hx, hks, hrk⟩ := store_of_replace_cons hk
  obtain ⟨y, hy, hls, hrl⟩ := store_of_replace_cons hl
  obtain ⟨t, u, ht, hu, htu⟩ := store_comm hkl ha hx hy
  have ha' : ¬ s.Aliases l k := by
    rintro ⟨c, i, hc, hil, hik⟩
    exact ha ⟨c, i, hc, hik, hil⟩
  refine ⟨t, u, ?_, ?_, ?_⟩
  · rw [hrl a (child_store_ne hx hkl ha), ht]
  · rw [hrk b (child_store_ne hy hkl.symm ha'), hu]
  · exact htu.imp_right fun ⟨hak, hal, hp⟩ => ⟨⟨hak, hks hak⟩, ⟨hal, hls hal⟩, hp⟩

/-- A change of a child is a change inside the node. -/
theorem inside_of_store {change : State → State → Prop} {s t u x y : State} {key : PathKey}
    (hs : s.shape ≠ .composite) (hx : s.store key x = .ok t) (hy : s.store key y = .ok u)
    (h : Inside change x y) : Inside change t u := by
  have ht : t.shape ≠ .composite := by rwa [shape, kind_store hx]
  obtain ⟨hchild, hstore⟩ := child_store hx hs
  have ha := at?_of_child hchild
  rw [← hstore] at hy
  obtain ⟨fs, name, rfl, rfl⟩ | ⟨xs, i, rfl, rfl⟩ | ⟨d, rfl⟩ :=
    enters_iff.1 (enters_of_child hchild)
  · cases hy
    exact .field ha h
  · rw [store_list] at hy
    split at hy <;> cases hy
    exact .item ha h
  · exact absurd (shape_composite d) ht

end State

namespace Path

/-- The write at the path makes a new name. -/
def Creates (p : Path) (r : State) : Prop :=
  ∃ (q : Path) (key : PathKey) (s : State), p = q.step key ∧ q.get r = .ok s ∧ s.Adds key

/-- A write that goes on from a path reads the node there, writes in it and writes it back. -/
theorem set_eq_ok_iff_of_step_above {c p : Path} {k : PathKey} (h : (c.step k).Above p) :
    ∃ ks, p.keys = c.keys ++ k :: ks ∧ ∀ r v t : State, p.set r v = .ok t ↔
      ∃ s a, c.get r = .ok s ∧ s.replace (k :: ks) v = .ok a ∧ c.set r a = .ok t := by
  obtain ⟨ks, hks⟩ := step_above_iff.1 h
  refine ⟨ks, hks, ?_⟩
  intro r v t
  rw [set, hks, State.replace_append _ _ (List.cons_ne_nil k ks)]
  simp only [bind_eq_ok_iff, exists_and_left]
  rfl

theorem creates_of_adds {c p : Path} {k : PathKey} {r s : State} (hp : p.keys = c.keys ++ [k])
    (hc : c.get r = .ok s) (hk : s.Adds k) : p.Creates r := by
  refine ⟨c, k, s, ?_, hc, hk⟩
  rw [← keys_inj, hp, keys_step]

/-- What is written at a path that goes on may change, and the tree changes inside only. -/
theorem set_inside {change : State → State → Prop} {c : Path} {key : PathKey} {r s t x y : State}
    (hc : c.get r = .ok s) (hk : key.Enters s) (h : State.Inside change x y)
    (ht : c.set r x = .ok t) : ∃ u, c.set r y = .ok u ∧ State.Inside change t u := by
  induction c generalizing key s x y with
  | root =>
    cases ht
    exact ⟨y, set_root r y, h⟩
  | step c last ih =>
    obtain ⟨d, hd, hds⟩ := get_step_eq_ok_iff.1 hc
    obtain ⟨d', e, hd', he, hte⟩ := set_step_eq_ok_iff.1 ht
    obtain rfl : d = d' := Except.ok.inj (hd.symm.trans hd')
    have hshape : d.shape ≠ .composite := by
      intro hshape
      obtain ⟨z, rfl⟩ := State.exists_component_of_child hshape hds
      exact State.not_enters_toState key z hk
    obtain ⟨f, hf⟩ := State.store_of_child hds y
    obtain ⟨u, hu, htu⟩ := ih hd (State.enters_of_child hds)
      (State.inside_of_store hshape he hf h) hte
    exact ⟨u, set_step_eq_ok_iff.2 ⟨d, f, hd, hf, hu⟩, htu⟩

/-- Two writes that each succeed on their own succeed one after the other too, if neither path is
above the other and they do not part at a composite by two steps to one component. The order of
the two does not matter, up to the order of fields; and not at all, unless both of them make a new
name. -/
theorem writes_commute {p q : Path} {r v w t u : State} (hpq : ¬ p.Above q) (hqp : ¬ q.Above p)
    (ha : ∀ c k l s, p.Parts q c k l → c.get r = .ok s → ¬ s.Aliases k l)
    (hp : p.set r v = .ok t) (hq : q.set r w = .ok u) :
    ∃ t' u', q.set t w = .ok t' ∧ p.set u v = .ok u' ∧ t'.Reordered u' ∧
      (¬ (p.Creates r ∧ q.Creates r) → t' = u') := by
  obtain ⟨c, k, l, hparts⟩ := exists_parts hpq hqp
  obtain ⟨ks, hpk, hpset⟩ := set_eq_ok_iff_of_step_above hparts.1
  obtain ⟨ls, hql, hqset⟩ := set_eq_ok_iff_of_step_above hparts.2.1
  -- both writes change one node `s`, where the paths part
  obtain ⟨s, a, hs, hsa, hat⟩ := (hpset r v t).1 hp
  obtain ⟨s', b, hs', hsb, hbu⟩ := (hqset r w u).1 hq
  obtain rfl : s = s' := Except.ok.inj (hs.symm.trans hs')
  have hk : k.Enters s := by
    obtain ⟨x, hx, -⟩ := State.store_of_replace_cons hsa
    exact State.enters_of_store hx
  obtain ⟨hta, htset⟩ := settled_of_enters hs hk hat
  obtain ⟨hub, huset⟩ := settled_of_enters hs hk hbu
  obtain ⟨d, e, hd, he, hde⟩ :=
    State.replace_comm hparts.2.2 (ha c k l s hparts hs) hsa hsb
  obtain ⟨t', ht'⟩ := set_of_get hs d
  have hqt : q.set t w = .ok t' := (hqset t w t').2 ⟨a, d, hta, hd, (htset d).trans ht'⟩
  have hpu : ∀ u', c.set r e = .ok u' → p.set u v = .ok u' := by
    intro u' hu'
    exact (hpset u v u').2 ⟨b, e, hub, he, (huset e).trans hu'⟩
  rcases hde with rfl | ⟨⟨hak, rfl⟩, ⟨hal, rfl⟩, hperm⟩
  · exact ⟨t', t', hqt, hpu t' ht', .refl, fun _ => rfl⟩
  · obtain ⟨u', hu', hinside⟩ := set_inside hs hk (.here hperm) ht'
    refine ⟨t', u', hqt, hpu u' hu', .single hinside, ?_⟩
    intro hnew
    exact absurd ⟨creates_of_adds hpk hs hak, creates_of_adds hql hs hal⟩ hnew

theorem writes_commute_sampleTree :
    (∃ t u t' u', (root.field "hp").set sampleTree (.int 1) = .ok t ∧
      (root.field "mp").set sampleTree (.int 2) = .ok u ∧
      (root.field "mp").set t (.int 2) = .ok t' ∧ (root.field "hp").set u (.int 1) = .ok u' ∧
      t'.Reordered u') ∧
    ∃ t u t', ((root.field "at").field "x").set sampleTree (.float ⟨0x80000000#32⟩) = .ok t ∧
      ((root.field "at").index 1).set sampleTree (.float ⟨0#32⟩) = .ok u ∧
      ((root.field "at").index 1).set t (.float ⟨0#32⟩) = .ok t' ∧
      ((root.field "at").field "x").set u (.float ⟨0x80000000#32⟩) = .ok t' := by
  refine ⟨?_, ?_⟩
  · have ha : ∀ c k l s, (root.field "hp").Parts (root.field "mp") c k l →
        c.get sampleTree = .ok s → ¬ s.Aliases k l := by
      intro c k l s hp hs
      have hparts : (root.field "hp").Parts (root.field "mp") root (.field "hp") (.field "mp") := by
        decide
      obtain ⟨rfl, rfl, rfl⟩ := hp.unique hparts
      cases hs
      exact State.not_aliases_of_shape (by decide) _ _
    obtain ⟨t', u', ht, hu, hr, -⟩ := writes_commute (v := .int 1) (w := .int 2) (by decide) (by decide)
      ha rfl rfl
    exact ⟨_, _, t', u', rfl, rfl, ht, hu, hr⟩
  · have ha : ∀ c k l s, ((root.field "at").field "x").Parts ((root.field "at").index 1) c k l →
        c.get sampleTree = .ok s → ¬ s.Aliases k l := by
      intro c k l s hp hs
      have hparts : ((root.field "at").field "x").Parts ((root.field "at").index 1)
          (root.field "at") (.field "x") (.index 1) := by decide
      obtain ⟨rfl, rfl, rfl⟩ := hp.unique hparts
      cases hs
      rintro ⟨c, i, hc, hx, hy⟩
      cases hc
      cases hx
      cases hy
    have hold : ¬ ((root.field "at").field "x").Creates sampleTree := by
      rintro ⟨q, key, s, hp, hs, fs, name, hobject, -⟩
      cases hp
      cases hs
      cases hobject
    obtain ⟨t', u', ht, hu, -, heq⟩ := writes_commute (v := .float ⟨0x80000000#32⟩)
      (w := .float ⟨0#32⟩) (by decide) (by decide) ha rfl rfl
    have hsame : t' = u' := heq fun h => hold h.1
    exact ⟨_, _, t', rfl, rfl, ht, hsame ▸ hu⟩

end Path

end SaveTree
