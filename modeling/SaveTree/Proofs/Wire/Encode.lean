/-
  Encoding succeeds exactly within the limits.

  `plainBytes` is the encoding of a tree with no limit on nesting or length. Writing fails when a
  list or object lies too deep or is too long, and otherwise appends the plain bytes. Where none
  is too long, nesting decides alone.
-/
import SaveTree.Wire.Write
import SaveTree.Proofs.State.Tree

namespace SaveTree.Wire

/-! ## Plain bytes -/

mutual

/-- The encoding of a tree, whatever its nesting. -/
def plainBytes : State → Bytes
  | .bool b => boolBytes b
  | .int n => intBytes n
  | .long n => longBytes n
  | .float x => floatBytes x
  | .double x => doubleBytes x
  | .string s => textBytes s
  | .composite c => compositeBytes c
  | .list xs => arrayHeader xs.length ++ plainItems xs
  | .object fs => mapHeader fs.length ++ plainFields fs

/-- The encodings of the items of a list. -/
def plainItems : List State → Bytes
  | [] => []
  | x :: xs => plainBytes x ++ plainItems xs

/-- The encodings of the names and values of an object. -/
def plainFields : List (String × State) → Bytes
  | [] => []
  | (name, x) :: fs => textBytes name ++ plainBytes x ++ plainFields fs

end

/-! ## Writing -/

theorem append_append (out : Buffer) (b c : Bytes) : out ++ b ++ c = out ++ (b ++ c) := by
  apply Array.ext'
  simp

theorem openContainer_eq_ok_iff {depth length : Nat} {header : Nat → Bytes} {out out' : Buffer} :
    openContainer depth length header out = .ok out' ↔
      depth < maxNesting ∧ length < 2 ^ 32 ∧ out' = out ++ header length := by
  unfold openContainer
  split
  · next hd =>
    refine ⟨fun h => ?_, fun hx => ?_⟩
    · cases h
    · obtain ⟨h, -, -⟩ := hx
      omega
  · next hd =>
    split
    · next hl =>
      refine ⟨fun h => ?_, fun hx => ?_⟩
      · cases h
      · obtain ⟨-, h, -⟩ := hx
        omega
    · next hl =>
      rw [Except.ok.injEq, eq_comm]
      refine ⟨fun h => ?_, fun hx => ?_⟩
      · exact ⟨by omega, by omega, h⟩
      · obtain ⟨-, -, h⟩ := hx
        exact h

/-- The tree may be written below `depth` lists and objects. -/
def Writable (depth : Nat) (s : State) : Prop :=
  s.nesting ≤ maxNesting - depth ∧ s.Every State.FewEntries

theorem writable_leaf {s : State} (depth : Nat) (hn : s.nesting = 0) (he : s.entries = [])
    (hf : s.FewEntries) : Writable depth s := by
  exact ⟨by omega, (State.every_leaf_iff he).2 hf⟩

theorem writable_list_iff {depth : Nat} {xs : List State} :
    Writable depth (.list xs) ↔
      depth < maxNesting ∧ xs.length < 2 ^ 32 ∧ ∀ x ∈ xs, Writable (depth + 1) x := by
  unfold Writable
  rw [State.nesting_list_le_iff, State.every_list_iff, Nat.sub_sub, Nat.sub_pos_iff_lt]
  refine ⟨fun hy => ?_, fun hy => ?_⟩
  · obtain ⟨⟨hd, hn⟩, hl, hx⟩ := hy
    exact ⟨hd, hl, fun x h => ⟨hn x h, hx x h⟩⟩
  · obtain ⟨hd, hl, hx⟩ := hy
    exact ⟨⟨hd, fun x h => (hx x h).1⟩, hl, fun x h => (hx x h).2⟩

theorem writable_object_iff {depth : Nat} {fs : List (String × State)} :
    Writable depth (.object fs) ↔
      depth < maxNesting ∧ fs.length < 2 ^ 32 ∧ ∀ f ∈ fs, Writable (depth + 1) f.2 := by
  unfold Writable
  rw [State.nesting_object_le_iff, State.every_object_iff, Nat.sub_sub, Nat.sub_pos_iff_lt]
  refine ⟨fun hy => ?_, fun hy => ?_⟩
  · obtain ⟨⟨hd, hn⟩, hl, hx⟩ := hy
    exact ⟨hd, hl, fun x h => ⟨hn x h, hx x h⟩⟩
  · obtain ⟨hd, hl, hx⟩ := hy
    exact ⟨⟨hd, fun x h => (hx x h).1⟩, hl, fun x h => (hx x h).2⟩

theorem writeItems_eq_ok_iff {xs : List State} (depth : Nat) (out out' : Buffer)
    (h : ∀ x ∈ xs, ∀ out out' : Buffer,
      write depth out x = .ok out' ↔ Writable depth x ∧ out' = out ++ plainBytes x) :
    writeItems depth out xs = .ok out' ↔
      (∀ x ∈ xs, Writable depth x) ∧ out' = out ++ plainItems xs := by
  induction xs generalizing out with
  | nil =>
    rw [writeItems, plainItems, Except.ok.injEq, eq_comm]
    simp
  | cons x xs ih =>
    have hx := h x List.mem_cons_self out
    have ih := fun out => ih out fun y hy => h y (List.mem_cons_of_mem x hy)
    rw [writeItems, List.forall_mem_cons, plainItems]
    refine ⟨fun hw => ?_, fun hz => ?_⟩
    · split at hw
      · next out₁ h₁ =>
        obtain ⟨hwx, rfl⟩ := (hx out₁).1 h₁
        obtain ⟨hwxs, rfl⟩ := (ih _).1 hw
        exact ⟨⟨hwx, hwxs⟩, append_append _ _ _⟩
      · cases hw
    · obtain ⟨⟨hwx, hwxs⟩, rfl⟩ := hz
      rw [(hx _).2 ⟨hwx, rfl⟩]
      exact (ih _).2 ⟨hwxs, (append_append _ _ _).symm⟩

theorem writeFields_eq_ok_iff {fs : List (String × State)} (depth : Nat) (out out' : Buffer)
    (h : ∀ f ∈ fs, ∀ out out' : Buffer,
      write depth out f.2 = .ok out' ↔ Writable depth f.2 ∧ out' = out ++ plainBytes f.2) :
    writeFields depth out fs = .ok out' ↔
      (∀ f ∈ fs, Writable depth f.2) ∧ out' = out ++ plainFields fs := by
  induction fs generalizing out with
  | nil =>
    rw [writeFields, plainFields, Except.ok.injEq, eq_comm]
    simp
  | cons f fs ih =>
    obtain ⟨name, x⟩ := f
    have hx := h (name, x) List.mem_cons_self (out ++ textBytes name)
    have ih := fun out => ih out fun g hg => h g (List.mem_cons_of_mem _ hg)
    rw [writeFields, List.forall_mem_cons, plainFields]
    refine ⟨fun hw => ?_, fun hy => ?_⟩
    · split at hw
      · next out₁ h₁ =>
        obtain ⟨hwx, rfl⟩ := (hx out₁).1 h₁
        obtain ⟨hwfs, rfl⟩ := (ih _).1 hw
        exact ⟨⟨hwx, hwfs⟩, by rw [append_append, append_append, List.append_assoc]⟩
      · cases hw
    · obtain ⟨⟨hwx, hwfs⟩, rfl⟩ := hy
      rw [(hx _).2 ⟨hwx, rfl⟩]
      exact (ih _).2 ⟨hwfs, by rw [append_append, append_append, List.append_assoc]⟩

theorem write_eq_ok_iff (depth : Nat) (out out' : Buffer) (s : State) :
    write depth out s = .ok out' ↔ Writable depth s ∧ out' = out ++ plainBytes s := by
  induction s generalizing depth out out' with
  | list xs ih =>
    have hxs := fun out => writeItems_eq_ok_iff (depth + 1) out out' fun x hx => ih x hx (depth + 1)
    rw [write, plainBytes, writable_list_iff]
    refine ⟨fun hw => ?_, fun h => ?_⟩
    · split at hw
      · next out₁ h₁ =>
        obtain ⟨hd, hl, rfl⟩ := openContainer_eq_ok_iff.1 h₁
        obtain ⟨hx, rfl⟩ := (hxs _).1 hw
        exact ⟨⟨hd, hl, hx⟩, append_append _ _ _⟩
      · cases hw
    · obtain ⟨⟨hd, hl, hx⟩, rfl⟩ := h
      rw [openContainer_eq_ok_iff.2 ⟨hd, hl, rfl⟩]
      exact (hxs _).2 ⟨hx, (append_append _ _ _).symm⟩
  | object fs ih =>
    have hfs := fun out =>
      writeFields_eq_ok_iff (depth + 1) out out' fun f hf => ih f hf (depth + 1)
    rw [write, plainBytes, writable_object_iff]
    refine ⟨fun hw => ?_, fun h => ?_⟩
    · split at hw
      · next out₁ h₁ =>
        obtain ⟨hd, hl, rfl⟩ := openContainer_eq_ok_iff.1 h₁
        obtain ⟨hx, rfl⟩ := (hfs _).1 hw
        exact ⟨⟨hd, hl, hx⟩, append_append _ _ _⟩
      · cases hw
    · obtain ⟨⟨hd, hl, hx⟩, rfl⟩ := h
      rw [openContainer_eq_ok_iff.2 ⟨hd, hl, rfl⟩]
      exact (hfs _).2 ⟨hx, (append_append _ _ _).symm⟩
  | _ =>
    -- a scalar or a composite is written at any depth
    rw [write, plainBytes, Except.ok.injEq, eq_comm]
    refine (and_iff_right ?_).symm
    exact writable_leaf depth rfl rfl trivial

/-! ## Where writing stops -/

theorem fault_of_openContainer {depth length : Nat} {header : Nat → Bytes} {out : Buffer}
    {halt : Halt} (hl : length < 2 ^ 32) (h : openContainer depth length header out = .error halt) :
    halt.fault = .tooDeep := by
  unfold openContainer at h
  split at h
  · cases h
    rfl
  · rw [if_neg (by omega)] at h
    cases h

theorem fault_of_writeItems {depth : Nat} {xs : List State} {halt : Halt}
    (hx : ∀ x ∈ xs, ∀ out, write depth out x = .error halt → halt.fault = .tooDeep)
    {out : Buffer} (h : writeItems depth out xs = .error halt) : halt.fault = .tooDeep := by
  induction xs generalizing out with
  | nil => cases h
  | cons x xs ih =>
    obtain ⟨hx, hxs⟩ := List.forall_mem_cons.1 hx
    rw [writeItems] at h
    split at h
    · exact ih hxs h
    · next hw =>
      cases h
      exact hx _ hw

theorem fault_of_writeFields {depth : Nat} {fs : List (String × State)} {halt : Halt}
    (hf : ∀ f ∈ fs, ∀ out, write depth out f.2 = .error halt → halt.fault = .tooDeep)
    {out : Buffer} (h : writeFields depth out fs = .error halt) : halt.fault = .tooDeep := by
  induction fs generalizing out with
  | nil => cases h
  | cons f fs ih =>
    obtain ⟨hx, hfs⟩ := List.forall_mem_cons.1 hf
    rw [writeFields] at h
    split at h
    · exact ih hfs h
    · next hw =>
      cases h
      exact hx _ hw

/-- Where no list or object has too many entries, nesting alone stops the writer. -/
theorem fault_of_write {depth : Nat} {out : Buffer} {s : State} {halt : Halt}
    (hs : s.Every State.FewEntries) (h : write depth out s = .error halt) :
    halt.fault = .tooDeep := by
  induction s generalizing depth out with
  | list xs ih =>
    obtain ⟨hl, hx⟩ := State.every_list_iff.1 hs
    rw [write] at h
    split at h
    · exact fault_of_writeItems (fun x hm _ => ih x hm (hx x hm)) h
    · next hopen =>
      cases h
      exact fault_of_openContainer hl hopen
  | object fs ih =>
    obtain ⟨hl, hf⟩ := State.every_object_iff.1 hs
    rw [write] at h
    split at h
    · exact fault_of_writeFields (fun f hm _ => ih f hm (hf f hm)) h
    · next hopen =>
      cases h
      exact fault_of_openContainer hl hopen
  | _ =>
    rw [write] at h
    cases h

end SaveTree.Wire

namespace SaveTree

open Wire

theorem encode_eq_ok_iff {s : State} {bytes : Bytes} :
    encode s = .ok bytes ↔ Writable 0 s ∧ bytes = plainBytes s := by
  unfold encode
  refine ⟨fun h => ?_, fun hx => ?_⟩
  · split at h
    · next out hw =>
      cases h
      obtain ⟨hs, rfl⟩ := (write_eq_ok_iff 0 #[] out s).1 hw
      exact ⟨hs, by simp⟩
    · cases h
  · obtain ⟨hs, rfl⟩ := hx
    rw [(write_eq_ok_iff 0 #[] _ s).2 ⟨hs, rfl⟩]
    simp

theorem encode_of_nesting_le {s : State} (hs : s.Every State.FewEntries)
    (hn : s.nesting ≤ maxNesting) : encode s = .ok (plainBytes s) :=
  encode_eq_ok_iff.2 ⟨⟨hn, hs⟩, rfl⟩

theorem encode_of_lt_nesting {s : State} (hs : s.Every State.FewEntries)
    (hn : maxNesting < s.nesting) : encode s = .error (.encode .tooDeep) := by
  unfold encode
  split
  · next out hw =>
    obtain ⟨⟨hle, -⟩, -⟩ := (write_eq_ok_iff 0 #[] out s).1 hw
    exact absurd hle (Nat.not_le.2 hn)
  · next halt hw => rw [fault_of_write hs hw]

end SaveTree
