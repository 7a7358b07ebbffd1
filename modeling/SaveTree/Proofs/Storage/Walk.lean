/-
  Where paths lead.

  A walk passes from location to location, one part of the path at a time, and needs a directory
  for each part (`Passes`, `Arrives`). A path leads to a name in a directory (`Leads`) if the
  parts before the last arrive at the directory and the last part is a proper name; reading,
  writing, renaming and removing a file all go through that. What a path leads to outlives every
  change that keeps the directories (`Leads.of_kept`).
-/
import SaveTree.Proofs.Storage.FileTree
import SaveTree.Storage.Disk

namespace SaveTree

/-- A part of a path that can be the name of an entry. -/
def ProperName (name : String) : Prop :=
  name ≠ "" ∧ name ≠ "." ∧ name ≠ ".." ∧ name.utf8ByteSize ≤ maxNameBytes

namespace Disk

open FileTree

variable {t u : FileTree} {here next location : List String} {part : String}
  {parts : List String}

/-! ## Walks -/

/-- A part of a path leads from one location to the next. -/
inductive Passes (t : FileTree) (here : List String) : String → List String → Prop
  | stay {part : String} (hd : t.occupant? here = some .directory) (hp : part = "" ∨ part = ".") :
      Passes t here part here
  | up (hd : t.occupant? here = some .directory) : Passes t here ".." here.dropLast
  | down {part : String} (hd : t.occupant? here = some .directory) (hp : ProperName part)
      (he : (t.occupant? (here ++ [part])).isSome) : Passes t here part (here ++ [part])

/-- The parts of a path lead from one location to another. -/
inductive Arrives (t : FileTree) : List String → List String → List String → Prop
  | nil (here : List String) : Arrives t here [] here
  | cons {here next location : List String} {part : String} {parts : List String}
      (hp : Passes t here part next) (ha : Arrives t next parts location) :
      Arrives t here (part :: parts) location

theorem Passes.directory (h : Passes t here part next) :
    t.occupant? here = some .directory := by
  cases h <;> assumption

theorem walk_nil (t : FileTree) (here : List String) : walk t here [] = .ok (.taken here) := by
  rw [walk]

theorem walk_cons_of_directory (h : t.occupant? here = some .directory) (part : String)
    (parts : List String) : walk t here (part :: parts) =
      if part = "" || part = "." then walk t here parts
      else if part = ".." then walk t here.dropLast parts
      else if maxNameBytes < part.utf8ByteSize then .error .nameTooLong
      else if (t.occupant? (here ++ [part])).isSome then walk t (here ++ [part]) parts
      else if parts.all (· = "") then .ok (.vacant here part)
      else .error .notFound := by
  obtain ⟨es, he⟩ := occupant?_eq_directory_iff.1 h
  rw [walk, he, ← hasKey_iff he]

theorem walk_of_passes (h : Passes t here part next) (parts : List String) :
    walk t here (part :: parts) = walk t next parts := by
  rw [walk_cons_of_directory h.directory]
  cases h with
  | stay _ hp => rw [if_pos (by simpa using hp)]
  | up => rw [if_neg (by decide), if_pos rfl]
  | down _ hp he =>
    obtain ⟨h₁, h₂, h₃, hs⟩ := hp
    rw [if_neg (by simp [h₁, h₂]), if_neg h₃, if_neg (Nat.not_lt.2 hs), if_pos he]

theorem exists_passes_of_walk (h : walk t here (part :: parts) = .ok (.taken location)) :
    ∃ next, Passes t here part next ∧ walk t next parts = .ok (.taken location) := by
  have hd : t.occupant? here = some .directory := by
    rw [occupant?_eq_directory_iff]
    rw [walk] at h
    split at h
    · cases h
    · cases h
    · next es he => exact ⟨es, he⟩
  rw [walk_cons_of_directory hd] at h
  split at h
  · next hp => exact ⟨here, .stay hd (by simpa using hp), h⟩
  next hp =>
  split at h
  · next hu => exact ⟨here.dropLast, hu ▸ .up hd, h⟩
  next hu =>
  split at h
  · cases h
  next hs =>
  split at h
  · next he =>
    have hn : ProperName part := ⟨by simp_all, by simp_all, hu, Nat.not_lt.1 hs⟩
    exact ⟨here ++ [part], .down hd hn he, h⟩
  · split at h <;> cases h

theorem walk_eq_taken_iff :
    walk t here parts = .ok (.taken location) ↔ Arrives t here parts location := by
  induction parts generalizing here with
  | nil =>
    rw [walk_nil]
    refine ⟨fun h => ?_, fun h => ?_⟩
    · cases h
      exact .nil _
    · cases h
      rfl
  | cons part parts ih =>
    refine ⟨fun h => ?_, fun h => ?_⟩
    · obtain ⟨next, hp, hw⟩ := exists_passes_of_walk h
      exact .cons hp (ih.1 hw)
    · cases h with
      | cons hp ha => rw [walk_of_passes hp, ih.2 ha]

/-- A walk that arrives somewhere goes on from there. -/
theorem walk_append {before : List String} (h : Arrives t here before location)
    (parts : List String) : walk t here (before ++ parts) = walk t location parts := by
  induction h with
  | nil => rfl
  | cons hp _ ih => rw [List.cons_append, walk_of_passes hp, ih]

theorem arrives_append_iff {before : List String} :
    Arrives t here (before ++ parts) location ↔
      ∃ middle, Arrives t here before middle ∧ Arrives t middle parts location := by
  induction before generalizing here with
  | nil =>
    refine ⟨fun h => ⟨here, .nil here, h⟩, fun h => ?_⟩
    obtain ⟨middle, hb, hp⟩ := h
    cases hb
    exact hp
  | cons part before ih =>
    refine ⟨fun h => ?_, fun h => ?_⟩
    · cases h with
      | cons hp ha =>
        obtain ⟨middle, hb, hl⟩ := ih.1 ha
        exact ⟨middle, .cons hp hb, hl⟩
    · obtain ⟨middle, hb, hl⟩ := h
      cases hb with
      | cons hp ha => exact .cons hp (ih.2 ⟨middle, ha, hl⟩)

/-- A walk arrives at the same place in a tree that has the same directories and something at the
end. -/
theorem Arrives.of_kept
    (hk : ∀ l, t.occupant? l = some .directory → u.occupant? l = some .directory)
    (hl : (u.occupant? location).isSome) (h : Arrives t here parts location) :
    Arrives u here parts location := by
  induction h with
  | nil here => exact .nil here
  | cons hp ha ih =>
    refine .cons ?_ (ih hl)
    cases hp with
    | stay hd hp => exact .stay (hk _ hd) hp
    | up hd => exact .up (hk _ hd)
    | down hd hp he =>
      refine .down (hk _ hd) hp ?_
      -- the entry is the end of the walk or a directory on the way
      cases ha with
      | nil => exact hl
      | cons hp' _ =>
        rw [hk _ hp'.directory]
        rfl

/-! ## The last name -/

/-- The path leads to a name in a directory. -/
def Leads (d : Disk) (path : String) (directory : List String) (name : String) : Prop :=
  checkPath path = .ok () ∧ d.tree.occupant? directory = some .directory ∧ ProperName name ∧
    ∃ above, DiskPath.parts path = above ++ [name] ∧
      Arrives d.tree (d.start path) above directory

variable {d e : Disk} {path : String} {directory : List String} {name : String}

theorem start_congr (h : e.workingDirectory = d.workingDirectory) (path : String) :
    e.start path = d.start path := by
  unfold start
  rw [h]

theorem Leads.name_le (h : d.Leads path directory name) : name.utf8ByteSize ≤ maxNameBytes :=
  h.2.2.1.2.2.2

/-- What a path leads to stays when the directories do. -/
theorem Leads.of_kept (hw : e.workingDirectory = d.workingDirectory)
    (hk : ∀ l, d.tree.occupant? l = some .directory → e.tree.occupant? l = some .directory)
    (h : d.Leads path directory name) : e.Leads path directory name := by
  obtain ⟨hc, hd, hn, above, hp, ha⟩ := h
  have hd' := hk _ hd
  refine ⟨hc, hd', hn, above, hp, ?_⟩
  rw [start_congr hw]
  exact ha.of_kept hk (by rw [hd']; rfl)

theorem lastName_of_leads (h : d.Leads path directory name) :
    d.lastName path = .ok (some ⟨directory, name, false⟩) := by
  obtain ⟨hc, hd, ⟨h₁, h₂, h₃, -⟩, above, hp, ha⟩ := h
  obtain ⟨es, he⟩ := occupant?_eq_directory_iff.1 hd
  have hdrop : (name :: above.reverse).dropWhile (· = "") = name :: above.reverse := by
    rw [List.dropWhile_cons_of_neg (by simpa using h₁)]
  unfold lastName
  rw [hc, hp, List.reverse_append, List.reverse_singleton, List.singleton_append]
  dsimp only [bind, Except.bind]
  rw [hdrop]
  dsimp only
  rw [List.reverse_reverse, walk_eq_taken_iff.2 ha]
  dsimp only
  rw [he]
  simp [FileTree.isDirectory, h₁, h₂, h₃]

/-- The directory of a last name is there. -/
theorem directory_of_lastName {l : LastName} (h : d.lastName path = .ok (some l)) :
    d.tree.occupant? l.directory = some .directory := by
  unfold lastName at h
  dsimp only [bind, Except.bind] at h
  split at h
  · cases h
  split at h
  · cases h
  split at h
  · cases h
  next spot hw =>
  split at h
  · cases h
  next directory =>
  split at h
  · cases h
  next hd =>
  split at h
  · cases h
  cases h
  unfold occupant?
  cases hg : d.tree.get? directory with
  | none => simp [hg] at hd
  | some node =>
    cases node with
    | file bytes => simp [hg, FileTree.isDirectory] at hd
    | directory es => rfl

theorem leads_of_lastName {l : LastName} (h : d.lastName path = .ok (some l))
    (hs : l.slashed = false) (hn : l.name.utf8ByteSize ≤ maxNameBytes) :
    d.Leads path l.directory l.name := by
  have hdirectory := directory_of_lastName h
  unfold lastName at h
  dsimp only [bind, Except.bind] at h
  split at h
  · cases h
  next hc =>
  split at h
  · cases h
  next name above hr =>
  split at h
  · cases h
  next spot hw =>
  split at h
  · cases h
  next directory =>
  split at h
  · cases h
  split at h
  · cases h
  next hpoints =>
  cases h
  -- without a slash at the end the last part is the name
  have hlast : (DiskPath.parts path).reverse.head? ≠ some "" := of_decide_eq_false hs
  have hdrop : ∀ ps : List String, ps.head? ≠ some "" → ps.dropWhile (· = "") = ps := by
    intro ps hps
    cases ps with
    | nil => rfl
    | cons p ps => rw [List.dropWhile_cons_of_neg (by simpa using hps)]
  rw [hdrop _ hlast] at hr
  have hparts : DiskPath.parts path = above.reverse ++ [name] := by
    rw [← List.reverse_reverse (DiskPath.parts path), hr, List.reverse_cons]
  rw [hr] at hlast
  exact ⟨hc, hdirectory, ⟨by simpa using hlast, by simp_all, by simp_all, hn⟩, above.reverse,
    hparts, walk_eq_taken_iff.1 hw⟩

end Disk

end SaveTree
