/-
  The errors of reads and writes at an address.

  A read fails at the first step that does not apply to its node, and that step and that node are
  all the error depends on (`Path.get_eq_error_iff`). So a read has errors of following a path
  only, and a write has one more, for the end of a list. The operations at an address add the
  errors of path text and nothing else.
-/
import SaveTree.Proofs.Path.Frame
import SaveTree.Proofs.Path.Position
import SaveTree.State.AtPath

namespace SaveTree

/-! ## The first step that does not apply -/

namespace State

/-- The step does not apply to the node: the node lacks the view, or has it and no such child. -/
inductive Refuses (c : State) (k : PathKey) : Error → Prop
  | mismatch (h : ¬ k.Enters c) : c.Refuses k (.shapeMismatch k.expectedShape c.kind)
  | undefined (h : k.Enters c) (ha : c.at? k = none) : c.Refuses k k.undefined

theorem child_eq_error_iff {c : State} {k : PathKey} {e : Error} :
    c.child k = .error e ↔ c.Refuses k e := by
  constructor
  · intro h
    by_cases hk : k.Enters c
    · obtain ⟨ha, rfl⟩ := at?_of_child_error hk h
      exact .undefined hk ha
    · rw [child_of_not_enters hk] at h
      cases h
      exact .mismatch hk
  · intro h
    cases h with
    | mismatch hk => exact child_of_not_enters hk
    | undefined hk ha => rw [child_of_enters hk, ha, Option.elim_none]

theorem Refuses.isEvaluation {c : State} {k : PathKey} {e : Error} (h : c.Refuses k e) :
    e.isEvaluation = true := by
  cases h with
  | mismatch h => rfl
  | undefined h ha => cases k <;> rfl

end State

namespace Path

variable {p q : Path} {k : PathKey} {r v : State} {e : Error}

theorem step_above_step_iff {key : PathKey} :
    (q.step k).Above (p.step key) ↔ (q.step k).Above p ∨ q = p ∧ k = key := by
  rw [Above, keys_step p, List.prefix_concat_iff, ← keys_step, keys_inj, or_comm]
  exact or_congr_right (by rw [Path.step.injEq])

/-- A read fails exactly if some step of the path does not apply to the node in front of it. The
first one decides the error, whatever the steps behind it are. -/
theorem get_eq_error_iff :
    p.get r = .error e ↔ ∃ (q : Path) (k : PathKey) (c : State),
      (q.step k).Above p ∧ q.get r = .ok c ∧ c.Refuses k e := by
  induction p with
  | root =>
    constructor
    · intro h
      cases h
    · rintro ⟨q, k, c, h, -⟩
      obtain ⟨ks, hks⟩ := step_above_iff.1 h
      simp at hks
  | step p key ih =>
    -- the step is one of `p`, or the last one, which is reached only if all of `p` applies
    simp only [get_step, step_above_step_iff]
    cases hp : p.get r with
    | error e' =>
      rw [hp] at ih
      refine ih.trans ⟨?_, ?_⟩
      · rintro ⟨q, k, c, h, hc⟩
        exact ⟨q, k, c, Or.inl h, hc⟩
      · rintro ⟨q, k, c, h | ⟨rfl, rfl⟩, hc, he⟩
        · exact ⟨q, k, c, h, hc, he⟩
        · cases hp.symm.trans hc
    | ok c =>
      show c.child key = .error e ↔ _
      rw [State.child_eq_error_iff]
      refine ⟨fun h => ⟨p, key, c, Or.inr ⟨rfl, rfl⟩, hp, h⟩, ?_⟩
      rintro ⟨q, k, d, h | ⟨rfl, rfl⟩, hd, he⟩
      · cases hp.symm.trans (ih.2 ⟨q, k, d, h, hd, he⟩)
      · cases hp.symm.trans hd
        exact he

theorem isEvaluation_of_get_error (h : p.get r = .error e) : e.isEvaluation = true := by
  obtain ⟨q, k, c, -, -, hc⟩ := get_eq_error_iff.1 h
  exact hc.isEvaluation

/-- A write fails on the way, or behind the end of a list. -/
theorem set_error_cases (h : p.set r v = .error e) :
    e.isEvaluation = true ∨ ∃ i n, e = .outOfBounds i n := by
  cases p with
  | root => cases h
  | step q key =>
    obtain ⟨hparent, hlast, -⟩ := set_step_errors r v q key
    cases hq : q.get r with
    | error e' =>
      cases h.symm.trans (hparent e' hq)
      exact Or.inl (isEvaluation_of_get_error hq)
    | ok c =>
      obtain ⟨-, rfl⟩ | ⟨xs, i, -, -, -, rfl⟩ := (hlast c hq e).1 h
      · exact Or.inl rfl
      · exact Or.inr ⟨_, _, rfl⟩

theorem set_ne_error (he : e.isEvaluation = false) (hb : ∀ i n, e ≠ .outOfBounds i n)
    (p : Path) (r v : State) : p.set r v ≠ .error e := by
  intro h
  obtain h | ⟨i, n, h⟩ := set_error_cases h
  · cases he.symm.trans h
  · exact hb i n h

theorem assign_eq_error_iff : p.assign r v = (r, .error e) ↔ p.set r v = .error e := by
  refine ⟨fun h => State.replace_eq_error_iff.2 (congrArg Prod.snd h), fun h => ?_⟩
  have houtcome := State.replace_eq_error_iff.1 h
  exact Prod.ext (State.assign_of_error houtcome) houtcome

end Path

namespace State

/-! ## Text that is no path -/

/-- The operation takes a text for the path it is read as, and a text that is no path fails with
the error it is read with. No path fails that way. -/
structure ReportsText {α : Type} (op : Address → Except Error α) : Prop where
  path : ∀ s p, Path.parse s = .ok p → op (.text s) = op (.path p)
  fault : ∀ s n f, op (.text s) = .error (.pathFormat n f) ↔
    Path.parse s = .error (.pathFormat n f)
  rejects : ∀ s, (∃ n f, op (.text s) = .error (.pathFormat n f)) ↔ ∀ p, Path.parse s ≠ .ok p

theorem reportsText_of_path {α : Type} {op : Address → Except Error α}
    (htext : ∀ s, op (.text s) = Path.parse s >>= fun p => op (.path p))
    (hpath : ∀ p n f, op (.path p) ≠ .error (.pathFormat n f)) : ReportsText op := by
  have hfault : ∀ s n f, op (.text s) = .error (.pathFormat n f) ↔
      Path.parse s = .error (.pathFormat n f) := by
    intro s n f
    rw [htext]
    cases hs : Path.parse s with
    | ok p => exact iff_of_false (hpath p n f) nofun
    | error e =>
      show (.error e : Except Error α) = _ ↔ _
      rw [Except.error.injEq, Except.error.injEq]
  refine ⟨fun s p hs => ?_, hfault, fun s => ?_⟩
  · rw [htext, hs]
    rfl
  · simp only [hfault]
    refine ⟨?_, fun hno => ?_⟩
    · rintro ⟨n, f, hs⟩ p hp
      cases hs.symm.trans hp
    · cases hs : Path.parse s with
      | ok p => exact absurd hs (hno p)
      | error e =>
        obtain ⟨fault, rest, -, rfl⟩ := Path.parse_eq_error_iff.1 hs
        exact ⟨_, _, rfl⟩

/-! ## The forms that try -/

section Attempt

variable {α : Type} {x : Except Error α}

/-- What a `try` form makes of an outcome: the errors of following a path are an answer. -/
def attempt (x : Except Error α) : Except Error (Option α) :=
  match x with
  | .ok a => .ok (some a)
  | .error e => if e.isEvaluation then .ok none else .error e

theorem attempt_eq_some_iff {a : α} : attempt x = .ok (some a) ↔ x = .ok a := by
  cases x with
  | ok b => simp [attempt]
  | error e => cases he : e.isEvaluation <;> simp [attempt, he]

theorem attempt_eq_none_iff :
    attempt x = .ok none ↔ ∃ e, x = .error e ∧ e.isEvaluation = true := by
  cases x with
  | ok b => simp [attempt]
  | error e => cases he : e.isEvaluation <;> simp [attempt, he]

theorem attempt_eq_error_iff {e : Error} :
    attempt x = .error e ↔ x = .error e ∧ e.isEvaluation = false := by
  constructor
  · intro h
    unfold attempt at h
    split at h
    · cases h
    · split at h
      · cases h
      · next he =>
        cases h
        exact ⟨rfl, eq_false_of_ne_true he⟩
  · rintro ⟨rfl, he⟩
    rw [attempt, he, if_neg Bool.false_ne_true]

end Attempt

theorem tryGetAtPath_eq (r : State) (t : TypeName) (a : Address) :
    r.tryGetAtPath t a =
      a.resolve >>= fun p => (attempt (p.get r)).map fun c => c.bind (cast t) := by
  unfold tryGetAtPath
  congr 1
  funext p
  cases p.get r with
  | ok node => rfl
  | error e => cases he : e.isEvaluation <;> simp [attempt, he, Except.map] <;> rfl

theorem trySetAtPath_eq (r : State) (a : Address) (v : State) :
    r.trySetAtPath a v = a.resolve >>= fun p => attempt (p.set r v) := by
  unfold trySetAtPath
  congr 1
  funext p
  cases p.set r v with
  | ok s => rfl
  | error e => cases he : e.isEvaluation <;> simp [attempt, he] <;> rfl

/-- The outcomes of a typed read that tries, at a path. -/
structure TriesGet (r : State) (t : TypeName) (p : Path) : Prop where
  ne_error : ∀ e, r.tryGetAtPath t (.path p) ≠ .error e
  none : r.tryGetAtPath t (.path p) = .ok none ↔
    (∃ e, p.get r = .error e) ∨ ∃ c, p.get r = .ok c ∧ t.accepts c.kind = false
  some : ∀ c, r.tryGetAtPath t (.path p) = .ok (some c) ↔
    p.get r = .ok c ∧ t.accepts c.kind = true

theorem triesGet (r : State) (t : TypeName) (p : Path) : TriesGet r t p := by
  have hpath : r.tryGetAtPath t (.path p) = (attempt (p.get r)).map fun c => c.bind (cast t) :=
    tryGetAtPath_eq r t (.path p)
  cases hget : p.get r with
  | error e =>
    have hnone := attempt_eq_none_iff.2 ⟨e, hget, Path.isEvaluation_of_get_error hget⟩
    rw [hnone] at hpath
    refine ⟨fun e' h => ?_, iff_of_true hpath (Or.inl ⟨e, hget⟩), fun c => ?_⟩
    · cases hpath.symm.trans h
    · rw [hpath, hget]
      simp [Except.map]
  | ok node =>
    rw [attempt_eq_some_iff.2 hget] at hpath
    have hcast : r.tryGetAtPath t (.path p) = .ok (node.cast t) := hpath
    refine ⟨fun e' h => ?_, ?_, fun c => ?_⟩
    · cases hcast.symm.trans h
    · rw [hcast, hget]
      simp [cast]
    · rw [hcast, hget, Except.ok.injEq, cast_eq_some_iff, Except.ok.injEq]
      constructor
      · rintro ⟨ht, rfl⟩
        exact ⟨rfl, ht⟩
      · rintro ⟨rfl, ht⟩
        exact ⟨ht, rfl⟩

/-- The outcomes of a write at a path, plain and trying: the tree they leave is that of the write
in place. -/
structure TriesSet (r : State) (p : Path) (v : State) : Prop where
  ok : ∀ s, r.setAtPath (.path p) v = .ok s ↔ p.assign r v = (s, .ok ())
  error : ∀ e, r.setAtPath (.path p) v = .error e ↔ p.assign r v = (r, .error e)
  errors : ∀ e, r.setAtPath (.path p) v = .error e →
    e.isEvaluation = true ∨ ∃ i n, e = .outOfBounds i n
  ne_shape : ∀ access kind, r.setAtPath (.path p) v ≠ .error (.shape access kind)
  some : ∀ s, r.trySetAtPath (.path p) v = .ok (some s) ↔ r.setAtPath (.path p) v = .ok s
  none : r.trySetAtPath (.path p) v = .ok none ↔
    ∃ e, p.assign r v = (r, .error e) ∧ e.isEvaluation = true
  fails : ∀ e, r.trySetAtPath (.path p) v = .error e ↔
    (∃ i n, e = .outOfBounds i n) ∧ r.setAtPath (.path p) v = .error e

theorem triesSet (r : State) (p : Path) (v : State) : TriesSet r p v := by
  have hset : r.setAtPath (.path p) v = p.set r v := rfl
  have htry : r.trySetAtPath (.path p) v = attempt (p.set r v) := trySetAtPath_eq r (.path p) v
  refine ⟨?_, ?_, ?_, ?_, ?_, ?_, ?_⟩
  · exact fun s => Path.assign_eq_ok_iff.symm
  · exact fun e => Path.assign_eq_error_iff.symm
  · exact fun e h => Path.set_error_cases h
  · exact fun access kind => Path.set_ne_error (by rfl) (by nofun) p r v
  · intro s
    rw [htry, hset, attempt_eq_some_iff]
  · rw [htry, attempt_eq_none_iff]
    simp only [Path.assign_eq_error_iff]
  · intro e
    rw [htry, hset, attempt_eq_error_iff]
    constructor
    · rintro ⟨h, he⟩
      refine ⟨(Path.set_error_cases h).resolve_left ?_, h⟩
      rw [he]
      exact Bool.false_ne_true
    · rintro ⟨⟨i, n, rfl⟩, h⟩
      exact ⟨h, rfl⟩

/-! ## All operations at an address -/

theorem get_ne_pathFormat (r : State) (p : Path) (n : Nat) (f : PathFault) :
    p.get r ≠ .error (.pathFormat n f) :=
  fun h => nomatch Path.isEvaluation_of_get_error h

theorem reportsText_atPath (r : State) : ReportsText r.atPath :=
  reportsText_of_path (fun _ => rfl) (get_ne_pathFormat r)

theorem reportsText_getAtPath (r : State) (t : TypeName) : ReportsText (r.getAtPath t) := by
  refine reportsText_of_path (fun s => ?_) fun p n f h => ?_
  · unfold getAtPath atPath
    rw [bind_assoc]
    rfl
  · have hget : (p.get r).map (cast t) = .error (.pathFormat n f) := h
    cases hp : p.get r with
    | ok node =>
      rw [hp] at hget
      cases hget
    | error e =>
      rw [hp] at hget
      cases hget
      exact get_ne_pathFormat r p n f hp

theorem reportsText_tryGetAtPath (r : State) (t : TypeName) : ReportsText (r.tryGetAtPath t) :=
  reportsText_of_path (fun _ => rfl) fun p _ _ => (triesGet r t p).ne_error _

theorem reportsText_setAtPath (r v : State) : ReportsText (r.setAtPath · v) :=
  reportsText_of_path (fun _ => rfl) fun p _ _ => Path.set_ne_error (by rfl) (by nofun) p r v

theorem reportsText_trySetAtPath (r v : State) : ReportsText (r.trySetAtPath · v) := by
  refine reportsText_of_path (fun _ => rfl) fun p n f h => ?_
  exact Path.set_ne_error (by rfl) (by nofun) p r v (((triesSet r p v).fails _).1 h).2

/-- How reads and writes at an address fail. The first step of the path that does not apply decides
the error of a read. The forms that try let an end of a list and a text that is no path through
and nothing else. -/
theorem errors_at_path (r v : State) (p : Path) (t : TypeName) :
    (∀ e, p.get r = .error e ↔ ∃ (q : Path) (k : PathKey) (c : State),
      (q.step k).Above p ∧ q.get r = .ok c ∧ c.Refuses k e) ∧
    TriesGet r t p ∧ TriesSet r p v ∧
    ReportsText r.atPath ∧ ReportsText (r.getAtPath t) ∧ ReportsText (r.tryGetAtPath t) ∧
    ReportsText (r.setAtPath · v) ∧ ReportsText (r.trySetAtPath · v) :=
  ⟨fun _ => Path.get_eq_error_iff, triesGet r t p, triesSet r p v, reportsText_atPath r,
    reportsText_getAtPath r t, reportsText_tryGetAtPath r t, reportsText_setAtPath r v,
    reportsText_trySetAtPath r v⟩

end State

end SaveTree
