/-
  A write touches nothing else.

  Each node above the end of the written path is stored into once (`store_above`). It keeps its
  kind, and what its other children are (`child_store_ne`), so a read at a path that parts from
  the written one finds what it found before. Only a composite can be entered by two different
  steps that lead to the same place.
-/
import SaveTree.Proofs.Path.ReadBack

namespace SaveTree

namespace State

/-! ## One write and the other children -/

/-- Two steps that lead to one component, such as its name and its position. -/
def Aliases (s : State) (k l : PathKey) : Prop :=
  ∃ c i, s = composite c ∧ c.slot? k = some i ∧ c.slot? l = some i

theorem not_aliases_of_shape {s : State} (h : s.shape ≠ .composite) (k l : PathKey) :
    ¬ s.Aliases k l := by
  rintro ⟨c, i, rfl, -⟩
  exact h (shape_composite c)

theorem kind_store {s t v : State} {key : PathKey} (h : s.store key v = .ok t) :
    t.kind = s.kind := by
  obtain ⟨fs, name, rfl, rfl⟩ | ⟨xs, i, rfl, rfl⟩ | ⟨c, rfl⟩ := enters_iff.1 (enters_of_store h)
  · cases h
    rfl
  · rw [store_list] at h
    split at h <;> cases h
    rfl
  · by_cases hk : c.Takes key v
    · obtain ⟨d, hd, -, hkind, -⟩ := store_component hk
      obtain rfl : t = composite d := Except.ok.inj (h.symm.trans hd)
      exact hkind
    · rw [store_composite_self hk] at h
      cases h
      rfl

/-- What a read of a child finds depends on the kind of the node and on the child alone. -/
theorem child_congr {s t : State} {key : PathKey} (hk : t.kind = s.kind)
    (ha : t.at? key = s.at? key) : t.child key = s.child key := by
  have hs : t.shape = s.shape := congrArg Kind.shape hk
  have he : key.Enters t ↔ key.Enters s := by
    cases key <;> simp only [PathKey.Enters, hs]
  by_cases h : key.Enters s
  · rw [child_of_enters (he.2 h), child_of_enters h, ha]
  · rw [child_of_not_enters (mt he.1 h), child_of_not_enters h, hk]

theorem at?_store_ne {s t v : State} {k l : PathKey} (h : s.store k v = .ok t) (hkl : k ≠ l)
    (ha : ¬ s.Aliases k l) : t.at? l = s.at? l := by
  obtain ⟨fs, name, rfl, rfl⟩ | ⟨xs, i, rfl, rfl⟩ | ⟨c, rfl⟩ := enters_iff.1 (enters_of_store h)
  · cases h
    cases l with
    | field other =>
      have hn : name ≠ other := fun hn => hkl (congrArg _ hn)
      rw [at?, at?, Fields.get?_set, if_neg hn]
    | index j => rfl
  · rw [store_list] at h
    split at h <;> cases h
    cases l with
    | field other => rfl
    | index j =>
      have hi : i.toNat ≠ j.toNat := fun hi => hkl (congrArg _ (UInt64.toNat_inj.1 hi))
      rw [at?, at?, List.getElem?_set_ne hi]
  · by_cases hk : c.Takes k v
    · obtain ⟨d, hd, -, hkind, hrest⟩ := store_component hk
      obtain rfl : t = composite d := Except.ok.inj (h.symm.trans hd)
      rw [at?, at?, Composite.slot?_eq_of_kind hkind]
      cases hl : c.slot? l with
      | none => rfl
      | some j =>
        have hj : c.slot? k ≠ some j := fun hj => ha ⟨c, j, rfl, hj, hl⟩
        exact congrArg (Option.map _) (hrest j hj)
    · rw [store_composite_self hk] at h
      cases h
      rfl

/-- A write of one child leaves the others. -/
theorem child_store_ne {s t v : State} {k l : PathKey} (h : s.store k v = .ok t) (hkl : k ≠ l)
    (ha : ¬ s.Aliases k l) : t.child l = s.child l :=
  child_congr (kind_store h) (at?_store_ne h hkl ha)

end State

namespace Path

/-! ## Paths above a path, and paths that part -/

/-- The path is the other one or an earlier part of it. -/
def Above (p q : Path) : Prop := p.keys <+: q.keys

instance (p q : Path) : Decidable (p.Above q) :=
  inferInstanceAs (Decidable (p.keys <+: q.keys))

/-- Two paths go on from `c` by different steps, `p` by the step `k` and `q` by the step `l`; so
`c` is the longest path above both (`Parts.above`). -/
def Parts (p q c : Path) (k l : PathKey) : Prop :=
  (c.step k).Above p ∧ (c.step l).Above q ∧ k ≠ l

instance (p q c : Path) (k l : PathKey) : Decidable (p.Parts q c k l) :=
  inferInstanceAs (Decidable (_ ∧ _ ∧ _))

theorem step_above_iff {c p : Path} {k : PathKey} :
    (c.step k).Above p ↔ ∃ ks, p.keys = c.keys ++ k :: ks := by
  simp [Above, List.IsPrefix, eq_comm]

theorem above_of_step_above {c p : Path} {k : PathKey} (h : (c.step k).Above p) : c.Above p := by
  obtain ⟨ks, hks⟩ := step_above_iff.1 h
  exact ⟨k :: ks, hks.symm⟩

/-- A path above another one is that one, or the other one goes on from it. -/
theorem exists_step_above {c p : Path} (h : c.Above p) (hne : c ≠ p) :
    ∃ k, (c.step k).Above p := by
  obtain ⟨ks, hks⟩ := h
  cases ks with
  | nil => exact absurd (keys_inj.1 (by simpa using hks)) hne
  | cons k ks => exact ⟨k, step_above_iff.2 ⟨ks, hks.symm⟩⟩

/-- Two lists, neither of them the start of the other, differ somewhere behind a common start. -/
theorem exists_fork {α : Type} {xs ys : List α} (hx : ¬ xs <+: ys) (hy : ¬ ys <+: xs) :
    ∃ zs x y, zs ++ [x] <+: xs ∧ zs ++ [y] <+: ys ∧ x ≠ y := by
  induction xs generalizing ys with
  | nil => exact absurd List.nil_prefix hx
  | cons x xs ih =>
    cases ys with
    | nil => exact absurd List.nil_prefix hy
    | cons y ys =>
      by_cases hxy : x = y
      · subst hxy
        rw [List.prefix_cons_inj] at hx hy
        obtain ⟨zs, a, b, ha, hb, hab⟩ := ih hx hy
        exact ⟨x :: zs, a, b, (List.prefix_cons_inj x).2 ha, (List.prefix_cons_inj x).2 hb, hab⟩
      · exact ⟨[], x, y, by simp, by simp, hxy⟩

/-- Two paths, neither of them above the other, part somewhere. -/
theorem exists_parts {p q : Path} (hp : ¬ p.Above q) (hq : ¬ q.Above p) :
    ∃ c k l, p.Parts q c k l := by
  obtain ⟨ks, k, l, hk, hl, hkl⟩ := exists_fork hp hq
  exact ⟨ofKeys ks, k, l, by simpa [Above] using hk, by simpa [Above] using hl, hkl⟩

/-- A path goes on from one above it by one step only. -/
theorem eq_of_step_above {c p : Path} {k l : PathKey} (hk : (c.step k).Above p)
    (hl : (c.step l).Above p) : k = l := by
  obtain ⟨ks, hks⟩ := step_above_iff.1 hk
  obtain ⟨ls, hls⟩ := step_above_iff.1 hl
  exact (List.cons.inj (List.append_cancel_left (hks.symm.trans hls))).1

theorem above_antisymm {p q : Path} (hp : p.Above q) (hq : q.Above p) : p = q :=
  keys_inj.1 (hp.eq_of_length_le hq.length_le)

/-- What two paths share ends where they part. -/
theorem Parts.above {p q c d : Path} {k l : PathKey} (h : p.Parts q c k l) (hp : d.Above p)
    (hq : d.Above q) : d.Above c := by
  obtain ⟨hk, hl, hkl⟩ := h
  have hd : ¬ (c.step k).Above d := fun hd => hkl (eq_of_step_above (hd.trans hq) hl)
  have hdk : d.Above (c.step k) := (List.prefix_or_prefix_of_prefix hp hk).resolve_right hd
  rw [Above, keys_step, List.prefix_concat_iff] at hdk
  exact hdk.resolve_left fun hdk => hd ⟨[], by rw [List.append_nil, keys_step, hdk]⟩

theorem Parts.above_both {p q c : Path} {k l : PathKey} (h : p.Parts q c k l) :
    c.Above p ∧ c.Above q :=
  ⟨above_of_step_above h.1, above_of_step_above h.2.1⟩

theorem Parts.unique {p q c d : Path} {k l m n : PathKey} (h : p.Parts q c k l)
    (h' : p.Parts q d m n) : c = d ∧ k = m ∧ l = n := by
  obtain ⟨hcp, hcq⟩ := h.above_both
  obtain ⟨hdp, hdq⟩ := h'.above_both
  obtain rfl : c = d := above_antisymm (h'.above hcp hcq) (h.above hdp hdq)
  exact ⟨rfl, eq_of_step_above h.1 h'.1, eq_of_step_above h.2.1 h'.2.1⟩

/-! ## The nodes above a write -/

section Writes

variable {p q c : Path} {k l : PathKey} {r t v : State}

/-- A read goes through each node above its end. -/
theorem get_of_step_above (h : (c.step k).Above p) :
    ∃ ks, ∀ s, p.get s = c.get s >>= fun a => a.child k >>= fun b => b.follow ks := by
  obtain ⟨ks, hks⟩ := step_above_iff.1 h
  refine ⟨ks, fun s => ?_⟩
  rw [get, hks, State.follow_append]
  congr 1
  funext a
  rw [State.follow]
  cases a.child k <;> rfl

/-- Each node above the written one is stored into where the path goes on. -/
theorem store_above (hc : (c.step k).Above p) (h : p.set r v = .ok t) :
    ∃ a b d, c.get r = .ok a ∧ a.store k d = .ok b ∧ c.get t = .ok b := by
  obtain ⟨ks, hks⟩ := step_above_iff.1 hc
  clear hc
  -- the steps behind `k` are taken off from the end, one write of a parent for each
  induction p generalizing ks v with
  | root => simp at hks
  | step p key ih =>
    rw [keys_step] at hks
    obtain ⟨a, d, ha, hd, hp⟩ := set_step_eq_ok_iff.1 h
    obtain rfl | ⟨ks, last, rfl⟩ := List.eq_nil_or_concat ks
    · obtain ⟨hpc, hk⟩ := List.append_inj' hks rfl
      obtain rfl := keys_inj.1 hpc
      cases hk
      exact ⟨a, d, v, ha, hd, (settled_of_enters ha (State.enters_of_store hd) hp).1⟩
    · refine ih hp ks ?_
      rw [List.concat_eq_append, ← List.cons_append, ← List.append_assoc] at hks
      exact (List.append_inj' hks rfl).1

/-- A read at a path that parts from the written one finds what it found. -/
theorem get_set_of_parts (hpq : p.Parts q c k l) (h : p.set r v = .ok t) :
    ∃ s, c.get r = .ok s ∧ (¬ s.Aliases k l → q.get t = q.get r) := by
  obtain ⟨hp, hq, hkl⟩ := hpq
  obtain ⟨a, b, d, ha, hs, hb⟩ := store_above hp h
  obtain ⟨ls, hls⟩ := get_of_step_above hq
  refine ⟨a, ha, fun hal => ?_⟩
  have hc := State.child_store_ne hs hkl hal
  calc q.get t
      = b.child l >>= fun x => x.follow ls := by rw [hls, hb]; rfl
    _ = a.child l >>= fun x => x.follow ls := by rw [hc]
    _ = q.get r := by rw [hls, ha]; rfl

/-- A node above the written one is there before and after, of one kind. -/
theorem get_above_set (hc : c.Above p) (hne : c ≠ p) (h : p.set r v = .ok t) :
    ∃ a b, c.get r = .ok a ∧ c.get t = .ok b ∧ b.kind = a.kind := by
  obtain ⟨k, hk⟩ := exists_step_above hc hne
  obtain ⟨a, b, d, ha, hs, hb⟩ := store_above hk h
  exact ⟨a, b, ha, hb, State.kind_store hs⟩

end Writes

/-- What a write that succeeds leaves alone. A read at any path that parts from the written one
finds the same node or fails in the same way, unless the two go on to one component of a
composite. The nodes above the written one stay, of the same kind. -/
theorem set_frame {p : Path} {r v t : State} (h : p.set r v = .ok t) :
    (∀ q, ¬ p.Above q → ¬ q.Above p → ∃ c k l s, p.Parts q c k l ∧ c.get r = .ok s ∧
      (s.shape ≠ .composite → q.get t = q.get r) ∧ (¬ s.Aliases k l → q.get t = q.get r)) ∧
    ∀ c, c.Above p → c ≠ p → ∃ a b, c.get r = .ok a ∧ c.get t = .ok b ∧ b.kind = a.kind := by
  refine ⟨fun q hp hq => ?_, fun c hc hne => get_above_set hc hne h⟩
  obtain ⟨c, k, l, hpq⟩ := exists_parts hp hq
  obtain ⟨s, hs, hf⟩ := get_set_of_parts hpq h
  exact ⟨c, k, l, s, hpq, hs, fun hn => hf (State.not_aliases_of_shape hn k l), hf⟩

theorem set_frame_sampleTree :
    ∃ t, ((root.field "at").field "x").set sampleTree (.float ⟨0x7FC00001#32⟩) = .ok t ∧
      ((root.field "at").field "y").get t = ((root.field "at").field "y").get sampleTree ∧
      ((root.field "at").index 0).get t = .ok (.float ⟨0x7FC00001#32⟩) ∧
      ∃ a b, (root.field "at").get sampleTree = .ok a ∧ (root.field "at").get t = .ok b ∧
        b.kind = a.kind := by
  refine ⟨_, rfl, ?_⟩
  obtain ⟨hread, hkind⟩ := set_frame (show ((root.field "at").field "x").set sampleTree
    (.float ⟨0x7FC00001#32⟩) = .ok _ from rfl)
  refine ⟨?_, rfl, hkind _ (by decide) (by decide)⟩
  obtain ⟨c, k, l, s, hp, hs, -, hy⟩ :=
    hread ((root.field "at").field "y") (by decide) (by decide)
  have hq : ((root.field "at").field "x").Parts ((root.field "at").field "y")
      (root.field "at") (.field "x") (.field "y") := by decide
  obtain ⟨rfl, rfl, rfl⟩ := hp.unique hq
  cases hs
  refine hy ?_
  rintro ⟨c, i, hc, hx, hy⟩
  cases hc
  cases hx
  cases hy

end Path

end SaveTree
