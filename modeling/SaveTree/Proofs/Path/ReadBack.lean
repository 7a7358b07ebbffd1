/-
  What is written is read back.

  Where the parent of a path is a list or an object, a write settles the path: a read finds the
  value, and a later write leaves no trace of it. Below a composite a write either changes one
  component or changes nothing. So a write in place keeps the whole tree exactly if it brings what
  is there, or if a composite does not take it.
-/
import SaveTree.Proofs.Path.Write

namespace SaveTree

namespace Path

/-- The read at the path finds the value, and writes there do not tell the trees apart. -/
def Settled (p : Path) (r t v : State) : Prop :=
  p.get t = .ok v ∧ ∀ w, p.set t w = p.set r w

theorem settled_root {r t v : State} (h : root.set r v = .ok t) : root.Settled r t v := by
  obtain rfl : v = t := Except.ok.inj ((set_root r v).symm.trans h)
  exact ⟨get_root v, fun w => (set_root v w).trans (set_root r w).symm⟩

/-- Below a list or an object a write settles the path, if it settles the parent's. -/
theorem settled_step {q : Path} {key : PathKey} {r t v c d : State} (hc : q.get r = .ok c)
    (hs : c.shape ≠ .composite) (hd : c.store key v = .ok d) (hq : q.Settled r t d) :
    (q.step key).Settled r t v := by
  obtain ⟨hg, hw⟩ := hq
  obtain ⟨hv, hk⟩ := State.child_store hd hs
  refine ⟨get_step_eq_ok_iff.2 ⟨d, hg, hv⟩, fun w => ?_⟩
  rw [set_step, set_step, hg, hc]
  show (d.store key w >>= fun x => q.set t x) = c.store key w >>= fun x => q.set r x
  rw [hk w]
  congr 1
  funext x
  exact hw x

/-- A node that a step enters is no component, so a write in its place settles its path. -/
theorem settled_of_enters {q : Path} {key : PathKey} {r c t v : State} (hc : q.get r = .ok c)
    (hk : key.Enters c) (h : q.set r v = .ok t) : q.Settled r t v := by
  induction q generalizing key c t v with
  | root => exact settled_root h
  | step q last ih =>
    obtain ⟨d, hd, hdc⟩ := get_step_eq_ok_iff.1 hc
    obtain ⟨d', e, hd', he, ht⟩ := set_step_eq_ok_iff.1 h
    obtain rfl : d = d' := Except.ok.inj (hd.symm.trans hd')
    have hs : d.shape ≠ .composite := by
      intro hs
      obtain ⟨x, rfl⟩ := State.exists_component_of_child hs hdc
      exact State.not_enters_toState key x hk
    exact settled_step hd hs he (ih hd (State.enters_of_child hdc) ht)

/-- Writing what is there changes nothing. -/
theorem set_get {p : Path} {r v : State} (h : p.get r = .ok v) : p.set r v = .ok r := by
  induction p generalizing v with
  | root =>
    obtain rfl : r = v := Except.ok.inj ((get_root r).symm.trans h)
    exact set_root r r
  | step q key ih =>
    obtain ⟨c, hc, hv⟩ := get_step_eq_ok_iff.1 h
    exact set_step_eq_ok_iff.2 ⟨c, c, hc, State.store_child hv, ih hc⟩

/-! ## The four kinds of parents -/

section Parents

variable {q : Path} {key : PathKey} {r t v : State}

/-- A write stores the value in the parent and settles the parent's path. -/
theorem settled_parent {c : State} (hc : q.get r = .ok c) (h : (q.step key).set r v = .ok t) :
    ∃ d, c.store key v = .ok d ∧ q.Settled r t d := by
  obtain ⟨c', d, hc', hd, ht⟩ := set_step_eq_ok_iff.1 h
  obtain rfl : c = c' := Except.ok.inj (hc.symm.trans hc')
  exact ⟨d, hd, settled_of_enters hc (State.enters_of_store hd) ht⟩

theorem settled_in_list {xs : List State} (hc : q.get r = .ok (.list xs))
    (h : (q.step key).set r v = .ok t) :
    (q.step key).Settled r t v ∧ ∃ ys, q.get t = .ok (.list ys) ∧ ys.length = xs.length := by
  obtain ⟨d, hd, hq⟩ := settled_parent hc h
  refine ⟨settled_step hc nofun hd hq, ?_⟩
  cases key with
  | field name => cases State.enters_of_store hd
  | index i =>
    rw [State.store_list] at hd
    split at hd
    · cases hd
      exact ⟨_, hq.1, List.length_set⟩
    · cases hd

theorem settled_in_object {fs : Fields State} (hc : q.get r = .ok (.object fs))
    (h : (q.step key).set r v = .ok t) :
    (q.step key).Settled r t v ∧ ∃ name gs, key = .field name ∧ q.get t = .ok (.object gs) ∧
      Fields.keys gs =
        if name ∈ Fields.keys fs then Fields.keys fs else Fields.keys fs ++ [name] := by
  obtain ⟨d, hd, hq⟩ := settled_parent hc h
  refine ⟨settled_step hc nofun hd hq, ?_⟩
  cases key with
  | index i => cases State.enters_of_store hd
  | field name =>
    cases hd
    exact ⟨name, _, rfl, hq.1, Fields.keys_set fs name v⟩

theorem get_set_component {c : Composite} (hk : c.Takes key v)
    (hc : q.get r = .ok (.composite c)) (h : (q.step key).set r v = .ok t) :
    (q.step key).get t = .ok v ∧ ∃ d, q.get t = .ok (.composite d) ∧ d.kind = c.kind ∧
      ∀ i, c.slot? key ≠ some i → d.get? i = c.get? i := by
  obtain ⟨e, he, hq⟩ := settled_parent hc h
  obtain ⟨d, hd, hv, hkind, hrest⟩ := State.store_component hk
  obtain rfl : e = .composite d := Except.ok.inj (he.symm.trans hd)
  exact ⟨get_step_eq_ok_iff.2 ⟨_, hq.1, hv⟩, d, hq.1, hkind, hrest⟩

theorem set_composite_self {c : Composite} (hk : ¬ c.Takes key v)
    (hc : q.get r = .ok (.composite c)) (h : (q.step key).set r v = .ok t) : t = r := by
  obtain ⟨c', d, hc', hd, ht⟩ := set_step_eq_ok_iff.1 h
  obtain rfl : c' = .composite c := Except.ok.inj (hc'.symm.trans hc)
  rw [State.store_composite_self hk] at hd
  cases hd
  rw [set_get hc] at ht
  exact (Except.ok.inj ht).symm

end Parents

/-- What a write that succeeds leaves. At the root and below a list or an object it settles the
path; a list keeps its length, an object its names in order with a new one last. Below a composite
it changes the component that the step leads to, if the value has the kind of one, and nothing
else. -/
theorem set_read_back {p : Path} {r t v : State} (h : p.set r v = .ok t) :
    (p = root → p.Settled r t v) ∧
    (∀ q key xs, p = step q key → q.get r = .ok (.list xs) → p.Settled r t v ∧
      ∃ ys, q.get t = .ok (.list ys) ∧ ys.length = xs.length) ∧
    (∀ q key fs, p = step q key → q.get r = .ok (.object fs) → p.Settled r t v ∧
      ∃ name gs, key = .field name ∧ q.get t = .ok (.object gs) ∧ Fields.keys gs =
        if name ∈ Fields.keys fs then Fields.keys fs else Fields.keys fs ++ [name]) ∧
    ∀ q key c, p = step q key → q.get r = .ok (.composite c) →
      (c.Takes key v → p.get t = .ok v ∧ ∃ d, q.get t = .ok (.composite d) ∧ d.kind = c.kind ∧
        ∀ i, c.slot? key ≠ some i → d.get? i = c.get? i) ∧
      (¬ c.Takes key v → t = r) := by
  refine ⟨?_, ?_, ?_, ?_⟩
  · rintro rfl
    exact settled_root h
  · rintro q key xs rfl hc
    exact settled_in_list hc h
  · rintro q key fs rfl hc
    exact settled_in_object hc h
  · rintro q key c rfl hc
    exact ⟨fun hk => get_set_component hk hc h, fun hk => set_composite_self hk hc h⟩

theorem set_read_back_sampleTree :
    (∃ t, ((root.field "at").field "x").set sampleTree (.float ⟨0x80000000#32⟩) = .ok t ∧
      ((root.field "at").field "x").get t = .ok (.float ⟨0x80000000#32⟩)) ∧
    (∃ t, ((root.field "tags").index 1).set sampleTree (.bool true) = .ok t ∧
      ((root.field "tags").index 1).Settled sampleTree t (.bool true)) ∧
    ((root.field "at").index 2).set sampleTree (.int 1) = .ok sampleTree := by
  refine ⟨?_, ?_, ?_⟩
  · obtain ⟨t, h⟩ : ∃ t, ((root.field "at").field "x").set sampleTree (.float ⟨0x80000000#32⟩) =
      .ok t := ⟨_, rfl⟩
    obtain ⟨-, -, -, hc⟩ := set_read_back h
    exact ⟨t, h, ((hc _ _ _ rfl rfl).1 (by decide)).1⟩
  · obtain ⟨t, h⟩ : ∃ t, ((root.field "tags").index 1).set sampleTree (.bool true) = .ok t :=
      ⟨_, rfl⟩
    obtain ⟨-, hl, -⟩ := set_read_back h
    exact ⟨t, h, (hl _ _ _ rfl rfl).1⟩
  · obtain ⟨t, h⟩ : ∃ t, ((root.field "at").index 2).set sampleTree (.int 1) = .ok t :=
      ⟨_, rfl⟩
    obtain ⟨-, -, -, hc⟩ := set_read_back h
    rw [h, (hc _ _ _ rfl rfl).2 (by decide)]

/-- The path ends below a composite that does not take the value. -/
def Drops (p : Path) (r v : State) : Prop :=
  ∃ q key c, p = step q key ∧ q.get r = .ok (.composite c) ∧ ¬ c.Takes key v

/-- What is written is read, where no composite drops it. -/
theorem get_of_set {p : Path} {r t v : State} (h : p.set r v = .ok t) (hd : ¬ p.Drops r v) :
    p.get t = .ok v := by
  cases p with
  | root => exact (settled_root h).1
  | step q key =>
    obtain ⟨s, d, hs, -, -⟩ := set_step_eq_ok_iff.1 h
    cases s with
    | composite c =>
      have hk : c.Takes key v := Classical.byContradiction fun hk => hd ⟨q, key, c, rfl, hs, hk⟩
      exact (get_set_component hk hs h).1
    | _ =>
      obtain ⟨d, hd, hq⟩ := settled_parent hs h
      exact (settled_step hs nofun hd hq).1

/-- A write that a composite drops changes nothing. -/
theorem set_of_drops {p : Path} {r t v : State} (h : p.set r v = .ok t) (hd : p.Drops r v) :
    t = r := by
  obtain ⟨q, key, c, rfl, hc, hk⟩ := hd
  exact set_composite_self hk hc h

/-! ## Writes that change nothing -/

theorem assign_eq_ok_iff {p : Path} {r v t : State} :
    p.assign r v = (t, .ok ()) ↔ p.set r v = .ok t := by
  rw [set, State.replace, assign]
  obtain ⟨s, e | _⟩ := r.assign p.keys v
  · simp
  · simp

/-- What keeps the tree is there to be read, where the parent is a list or an object. -/
theorem get_of_set_self {q : Path} {key : PathKey} {r v c : State} (hc : q.get r = .ok c)
    (hs : c.shape ≠ .composite) (h : (q.step key).set r v = .ok r) : (q.step key).get r = .ok v := by
  obtain ⟨d, hd, hq⟩ := settled_parent hc h
  exact (settled_step hc hs hd hq).1

/-- A write that succeeds keeps the tree bit for bit in two cases only: the value is the one that
was there, or the path ends below a composite that does not take it. -/
theorem assign_eq_self_iff (p : Path) (r v : State) :
    p.assign r v = (r, .ok ()) ↔ p.get r = .ok v ∨
      ∃ q key c, p = step q key ∧ q.get r = .ok (.composite c) ∧ ¬ c.Takes key v := by
  rw [assign_eq_ok_iff]
  refine ⟨fun h => ?_, ?_⟩
  · cases p with
    | root => exact Or.inl (settled_root h).1
    | step q key =>
      obtain ⟨s, d, hs, -, -⟩ := set_step_eq_ok_iff.1 h
      cases s with
      | composite c =>
        by_cases hk : c.Takes key v
        · exact Or.inl (get_set_component hk hs h).1
        · exact Or.inr ⟨q, key, c, rfl, hs, hk⟩
      | _ => exact Or.inl (get_of_set_self hs nofun h)
  · rintro (h | ⟨q, key, c, rfl, hc, hk⟩)
    · exact set_get h
    · exact set_step_eq_ok_iff.2 ⟨_, _, hc, State.store_composite_self hk, set_get hc⟩

end Path

end SaveTree
