/-
  Writing along a path.

  The recursion that walks a tree is opened for one step only (`replace_cons`). From that a write
  is a read of the parent, a write of one child and a write of the changed parent (`set_step`),
  and what a write does to a tree follows from what one step does to a node.
-/
import SaveTree.Proofs.State.Views

namespace SaveTree

namespace State

/-! ## Lists of steps -/

theorem follow_append (s : State) (ks ls : List PathKey) :
    s.follow (ks ++ ls) = s.follow ks >>= fun c => c.follow ls := by
  induction ks generalizing s with
  | nil => rfl
  | cons key ks ih =>
    rw [List.cons_append, follow, follow]
    cases s.child key with
    | ok c => exact ih c
    | error e => rfl

theorem replace_singleton (s : State) (key : PathKey) (v : State) :
    s.replace [key] v = s.store key v := by
  unfold replace assign
  cases s.store key v <;> rfl

/-- Below a list or an object a child is written in place and put back. -/
theorem assign_child {s c : State} {key : PathKey} (hs : s.shape ≠ .composite)
    (hc : s.child key = .ok c) (next : PathKey) (ks : List PathKey) (v : State) :
    ∃ t, s.store key (c.assign (next :: ks) v).1 = .ok t ∧
      s.assign (key :: next :: ks) v = (t, (c.assign (next :: ks) v).2) := by
  have ha := at?_of_child hc
  obtain ⟨fs, name, rfl, rfl⟩ | ⟨xs, i, rfl, rfl⟩ | ⟨d, rfl⟩ := enters_iff.1 (enters_of_child hc)
  · rw [at?] at ha
    refine ⟨_, store_object fs name _, ?_⟩
    rw [assign, ha]
  · rw [at?] at ha
    obtain ⟨hi, -⟩ := List.getElem?_eq_some_iff.1 ha
    refine ⟨_, (store_list xs i _).trans (if_pos hi), ?_⟩
    rw [assign, ha]
  · exact absurd (shape_composite d) hs

/-- A write of more steps stops at a node that has no child to go on in. -/
theorem assign_blocked {s : State} {key : PathKey}
    (h : s.shape = .composite ∨ ∃ e, s.child key = .error e) (next : PathKey) (ks : List PathKey)
    (v : State) : s.assign (key :: next :: ks) v = (s, .error (s.blocked key next)) := by
  by_cases hk : key.Enters s
  · obtain ⟨fs, name, rfl, rfl⟩ | ⟨xs, i, rfl, rfl⟩ | ⟨d, rfl⟩ := enters_iff.1 hk
    · obtain ⟨e, he⟩ := h.resolve_left (by rintro ⟨⟩)
      obtain ⟨ha, rfl⟩ := at?_of_child_error hk he
      rw [at?] at ha
      rw [assign, ha, blocked, he]
      rfl
    · obtain ⟨e, he⟩ := h.resolve_left (by rintro ⟨⟩)
      obtain ⟨ha, rfl⟩ := at?_of_child_error hk he
      rw [at?] at ha
      rw [assign, ha, blocked, he]
      rfl
    · cases key <;> rfl
  · cases s <;> cases key <;> first | rfl | exact absurd rfl hk

/-- A write that fails leaves the tree as it is. -/
theorem assign_of_error {s v : State} {ks : List PathKey} {e : Error}
    (h : (s.assign ks v).2 = .error e) : (s.assign ks v).1 = s := by
  induction ks generalizing s with
  | nil => cases h
  | cons key ks ih =>
    cases ks with
    | nil =>
      unfold assign at h ⊢
      split at h
      · cases h
      · rfl
    | cons next ks =>
      by_cases hb : s.shape = .composite ∨ ∃ e, s.child key = .error e
      · rw [assign_blocked hb]
      · rw [not_or] at hb
        cases hc : s.child key with
        | error e => exact absurd ⟨e, hc⟩ hb.2
        | ok c =>
          obtain ⟨t, ht, ha⟩ := assign_child hb.1 hc next ks v
          rw [ha] at h ⊢
          -- the child is left as it is, so putting it back changes nothing
          rw [ih h, store_child hc] at ht
          exact (Except.ok.inj ht).symm

theorem replace_eq_error_iff {s v : State} {ks : List PathKey} {e : Error} :
    s.replace ks v = .error e ↔ (s.assign ks v).2 = .error e := by
  rw [replace]
  obtain ⟨t, e' | _⟩ := s.assign ks v
  · simp
  · simp

theorem replace_of_not_enters {s : State} {key : PathKey} (h : ¬ key.Enters s)
    (ks : List PathKey) (v : State) :
    s.replace (key :: ks) v = .error (.shapeMismatch key.expectedShape s.kind) := by
  have hc := child_of_not_enters h
  cases ks with
  | nil => rw [replace_singleton, store_of_not_enters h]
  | cons next ks => rw [replace, assign_blocked (Or.inr ⟨_, hc⟩), blocked, hc]

/-- A write behind a step reads the child, writes in it and stores it back. -/
theorem replace_cons (s : State) (key : PathKey) {ks : List PathKey} (hks : ks ≠ []) (v : State) :
    s.replace (key :: ks) v =
      s.child key >>= fun c => c.replace ks v >>= fun d => s.store key d := by
  obtain ⟨next, ks, rfl⟩ := List.exists_cons_of_ne_nil hks
  cases hc : s.child key with
  | error e =>
    rw [replace, assign_blocked (Or.inr ⟨e, hc⟩), blocked, hc]
    rfl
  | ok c =>
    by_cases hs : s.shape = .composite
    · obtain ⟨x, rfl⟩ := exists_component_of_child hs hc
      have hr := replace_of_not_enters (not_enters_toState next x) ks v
      rw [replace, assign_blocked (Or.inl hs), blocked, hc]
      exact (congrArg (· >>= fun d => s.store key d) hr).symm
    · obtain ⟨t, ht, ha⟩ := assign_child hs hc next ks v
      rw [replace, ha]
      show _ = c.replace (next :: ks) v >>= fun d => s.store key d
      rw [replace]
      generalize c.assign (next :: ks) v = r at ht
      obtain ⟨d, e | _⟩ := r
      · rfl
      · exact ht.symm

theorem replace_cons_eq_ok_iff {s v t : State} {key : PathKey} {ks : List PathKey} (hks : ks ≠ []) :
    s.replace (key :: ks) v = .ok t ↔
      ∃ c d, s.child key = .ok c ∧ c.replace ks v = .ok d ∧ s.store key d = .ok t := by
  simp only [replace_cons s key hks, bind_eq_ok_iff, exists_and_left]

/-- A write behind some steps reads the node they lead to, writes in it and writes the changed node
back. -/
theorem replace_append (s : State) (ks : List PathKey) {ls : List PathKey} (hls : ls ≠ [])
    (v : State) :
    s.replace (ks ++ ls) v =
      s.follow ks >>= fun c => c.replace ls v >>= fun d => s.replace ks d := by
  induction ks generalizing s with
  | nil =>
    show s.replace ls v = s.replace ls v >>= fun d => .ok d
    cases s.replace ls v <;> rfl
  | cons first ks ih =>
    have hne : ks ++ ls ≠ [] := fun h => hls (List.append_eq_nil_iff.1 h).2
    rw [List.cons_append, replace_cons s first hne, follow]
    cases hc : s.child first with
    | error e => rfl
    | ok c =>
      -- writing back a changed node below the first step goes through the child again
      have hr : ∀ d, s.replace (first :: ks) d = c.replace ks d >>= fun c => s.store first c := by
        intro d
        cases ks with
        | nil => exact replace_singleton s first d
        | cons next ks => rw [replace_cons s first (by simp), hc]; rfl
      show c.replace (ks ++ ls) v >>= _ = c.follow ks >>= _
      rw [ih]
      simp only [hr]
      cases c.follow ks with
      | error e => rfl
      | ok d =>
        show (d.replace ls v >>= _) >>= _ = d.replace ls v >>= _
        cases d.replace ls v <;> rfl

end State

namespace Path

/-! ## Paths -/

theorem get_root (r : State) : root.get r = .ok r := rfl

theorem set_root (r v : State) : root.set r v = .ok v := rfl

theorem get_step (q : Path) (key : PathKey) (r : State) :
    (q.step key).get r = q.get r >>= fun c => c.child key := by
  unfold get
  rw [keys_step, State.follow_append]
  congr 1
  funext c
  rw [State.follow]
  cases c.child key <;> rfl

/-- A write is a read of the parent, a write of the child and a write of the changed parent. -/
theorem set_step (q : Path) (key : PathKey) (r v : State) :
    (q.step key).set r v = q.get r >>= fun c => c.store key v >>= fun d => q.set r d := by
  unfold get set
  rw [keys_step, State.replace_append _ _ (List.cons_ne_nil key [])]
  simp only [State.replace_singleton]

theorem get_step_eq_ok_iff {q : Path} {key : PathKey} {r c : State} :
    (q.step key).get r = .ok c ↔ ∃ d, q.get r = .ok d ∧ d.child key = .ok c := by
  rw [get_step, bind_eq_ok_iff]

theorem set_step_eq_ok_iff {q : Path} {key : PathKey} {r v t : State} :
    (q.step key).set r v = .ok t ↔
      ∃ c d, q.get r = .ok c ∧ c.store key v = .ok d ∧ q.set r d = .ok t := by
  simp only [set_step, bind_eq_ok_iff, exists_and_left]

/-- A node that can be read can be written. -/
theorem set_of_get {q : Path} {r c : State} (h : q.get r = .ok c) (v : State) :
    ∃ t, q.set r v = .ok t := by
  induction q generalizing c v with
  | root => exact ⟨v, set_root r v⟩
  | step q key ih =>
    obtain ⟨d, hd, hc⟩ := get_step_eq_ok_iff.1 h
    obtain ⟨e, he⟩ := State.store_of_child hc v
    obtain ⟨t, ht⟩ := ih hd e
    exact ⟨t, set_step_eq_ok_iff.2 ⟨d, e, hd, he, ht⟩⟩

/-- A write fails as the read of the parent does. Where the parent is there, it fails exactly if
the parent has no view for the last step, or is a list that ends before the index. A write that
fails leaves the tree as it is. -/
theorem set_step_errors (r v : State) (q : Path) (key : PathKey) :
    (∀ e, q.get r = .error e → (q.step key).set r v = .error e) ∧
    (∀ c, q.get r = .ok c → ∀ e, (q.step key).set r v = .error e ↔
      (¬ key.Enters c ∧ e = .shapeMismatch key.expectedShape c.kind) ∨
        ∃ xs i, c = .list xs ∧ key = .index i ∧ xs.length ≤ i.toNat ∧
          e = .outOfBounds i.toNat xs.length) ∧
    ∀ e, (q.step key).set r v = .error e → ((q.step key).assign r v).1 = r := by
  rw [set_step]
  refine ⟨?_, ?_, ?_⟩
  · intro e he
    rw [he]
    rfl
  · intro c hc e
    rw [hc, ← State.store_eq_error_iff (v := v)]
    show (c.store key v >>= fun d => q.set r d) = .error e ↔ _
    cases hs : c.store key v with
    | error e' => rfl
    | ok d =>
      obtain ⟨t, ht⟩ := set_of_get hc d
      show q.set r d = .error e ↔ _
      simp [ht]
  · intro e he
    rw [← set_step] at he
    exact State.assign_of_error (State.replace_eq_error_iff.1 he)

/-- A node with a composite, a list and a text. -/
def sampleTree : State :=
  .object [("at", .composite (.vector2 ⟨0x3F800000#32⟩ ⟨0x7FC00001#32⟩)),
    ("tags", .list [.string "a", .long 7])]

theorem set_step_errors_sampleTree :
    ((root.field "tag").field "x").set sampleTree (.int 1) = .error (.undefinedField "tag") ∧
    (((root.field "at").field "x").index 0).set sampleTree (.int 1) =
      .error (.shapeMismatch .list .float) ∧
    ((root.field "tags").index 2).set sampleTree (.int 1) = .error (.outOfBounds 2 2) ∧
    (((root.field "tags").index 2).assign sampleTree (.int 1)).1 = sampleTree := by
  obtain ⟨hd, -⟩ := set_step_errors sampleTree (.int 1) (root.field "tag") (.field "x")
  obtain ⟨-, hc, -⟩ :=
    set_step_errors sampleTree (.int 1) ((root.field "at").field "x") (.index 0)
  obtain ⟨-, hl, ha⟩ := set_step_errors sampleTree (.int 1) (root.field "tags") (.index 2)
  have hb := (hl _ rfl _).2 (Or.inr ⟨_, _, rfl, rfl, by decide, rfl⟩)
  exact ⟨hd _ rfl, (hc _ rfl _).2 (Or.inl ⟨State.not_enters_toState _ _, rfl⟩), hb, ha _ hb⟩

end Path

end SaveTree
