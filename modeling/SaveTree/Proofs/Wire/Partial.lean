/-
  What an encoding appends, complete or not.

  A list or object is opened by its header, and only there can writing stop: the `openings` of a
  tree are its lists and objects in the order of their headers, each with the number of lists and
  objects around it and with the bytes that stand before its header in the encoding without limits.
  The writer appends those bytes for the first opening it refuses, and the whole encoding if it
  refuses none (`write_eq`). The buffer it appends to makes no difference.
-/
import SaveTree.Proofs.Wire.Encode

namespace SaveTree.Wire

/-! ## Openings -/

/-- A list or object below `depth` others, and the bytes before its header. -/
structure Opening where
  depth : Nat
  node : State
  before : Bytes

/-- Why the writer refuses to open a list or object, if it does. -/
def Opening.fault? (o : Opening) : Option EncodeFault :=
  if maxNesting ≤ o.depth then some .tooDeep
  else if 2 ^ 32 ≤ o.node.entries.length then some (.tooLong o.node.entries.length)
  else none

mutual

/-- The openings of a node that lies below `depth` lists and objects and behind the bytes
`before`. -/
def openings (depth : Nat) (before : Bytes) : State → List Opening
  | .list xs =>
    ⟨depth, .list xs, before⟩ :: itemOpenings (depth + 1) (before ++ arrayHeader xs.length) xs
  | .object fs =>
    ⟨depth, .object fs, before⟩ :: fieldOpenings (depth + 1) (before ++ mapHeader fs.length) fs
  | _ => []

/-- The openings of the items of a list. -/
def itemOpenings (depth : Nat) (before : Bytes) : List State → List Opening
  | [] => []
  | x :: xs => openings depth before x ++ itemOpenings depth (before ++ plainBytes x) xs

/-- The openings of the values of an object. -/
def fieldOpenings (depth : Nat) (before : Bytes) : List (String × State) → List Opening
  | [] => []
  | (name, x) :: fs =>
    openings depth (before ++ textBytes name) x ++
      fieldOpenings depth (before ++ textBytes name ++ plainBytes x) fs

end

/-- The first opening that the writer refuses, and why. -/
def firstRefused (os : List Opening) : Option (Opening × EncodeFault) :=
  os.findSome? fun o => o.fault?.map fun fault => (o, fault)

theorem firstRefused_cons (o : Opening) (os : List Opening) :
    firstRefused (o :: os) = (o.fault?.map fun fault => (o, fault)).or (firstRefused os) := by
  rw [firstRefused, firstRefused, List.findSome?_cons]
  cases o.fault? <;> rfl

theorem firstRefused_append (os more : List Opening) :
    firstRefused (os ++ more) = (firstRefused os).or (firstRefused more) :=
  List.findSome?_append

theorem firstRefused_eq_some_iff {os : List Opening} {o : Opening} {fault : EncodeFault} :
    firstRefused os = some (o, fault) ↔ o.fault? = some fault ∧
      ∃ earlier later, os = earlier ++ o :: later ∧ ∀ p ∈ earlier, p.fault? = none := by
  rw [firstRefused, List.findSome?_eq_some_iff]
  constructor
  · rintro ⟨earlier, p, later, rfl, hp, hearlier⟩
    obtain ⟨f, hf, heq⟩ := Option.map_eq_some_iff.1 hp
    cases heq
    exact ⟨hf, earlier, later, rfl, fun q hq => by simpa using hearlier q hq⟩
  · rintro ⟨hfault, earlier, later, rfl, hearlier⟩
    exact ⟨earlier, o, later, rfl, by rw [hfault]; rfl, fun q hq => by rw [hearlier q hq]; rfl⟩

/-! ## The writer stops at the first refused opening -/

/-- Writing of `bytes` behind `out` and `before` that stops where an opening is refused. -/
def Writes (r : Except Halt Buffer) (out : Buffer) (os : List Opening) (bytes : Bytes) : Prop :=
  r = match firstRefused os with
    | some (o, fault) => .error ⟨fault, out ++ o.before⟩
    | none => .ok (out ++ bytes)

theorem write_list (depth : Nat) (out : Buffer) (xs : List State) : write depth out (.list xs) =
    openContainer depth xs.length arrayHeader out >>= fun out => writeItems (depth + 1) out xs := by
  rw [write]
  cases openContainer depth xs.length arrayHeader out <;> rfl

theorem write_object (depth : Nat) (out : Buffer) (fs : List (String × State)) :
    write depth out (.object fs) = openContainer depth fs.length mapHeader out >>= fun out =>
      writeFields (depth + 1) out fs := by
  rw [write]
  cases openContainer depth fs.length mapHeader out <;> rfl

theorem writeItems_cons (depth : Nat) (out : Buffer) (x : State) (xs : List State) :
    writeItems depth out (x :: xs) =
      write depth out x >>= fun out => writeItems depth out xs := by
  rw [writeItems]
  cases write depth out x <;> rfl

theorem writeFields_cons (depth : Nat) (out : Buffer) (name : String) (x : State)
    (fs : List (String × State)) : writeFields depth out ((name, x) :: fs) =
      write depth (out ++ textBytes name) x >>= fun out => writeFields depth out fs := by
  rw [writeFields]
  cases write depth (out ++ textBytes name) x <;> rfl

variable {out : Buffer} {depth : Nat}

theorem writes_openContainer {length : Nat} {header : Nat → Bytes} {node : State}
    (hlength : node.entries.length = length) (before : Bytes) :
    Writes (openContainer depth length header (out ++ before)) out [⟨depth, node, before⟩]
      (before ++ header length) := by
  unfold Writes openContainer
  rw [firstRefused_cons, Opening.fault?]
  dsimp only
  rw [hlength]
  split
  · rfl
  split
  · rfl
  · rw [append_append]
    rfl

/-- One write after another. -/
theorem Writes.next {r : Except Halt Buffer} {next : Buffer → Except Halt Buffer}
    {os more : List Opening} {before bytes : Bytes} (hr : Writes r out os before)
    (hnext : Writes (next (out ++ before)) out more bytes) :
    Writes (r >>= next) out (os ++ more) bytes := by
  unfold Writes at hr hnext ⊢
  rw [hr, firstRefused_append]
  cases firstRefused os with
  | none => exact hnext
  | some refused => rfl

theorem writes_writeItems {xs : List State}
    (h : ∀ x ∈ xs, ∀ before : Bytes, Writes (write depth (out ++ before) x) out
      (openings depth before x) (before ++ plainBytes x)) (before : Bytes) :
    Writes (writeItems depth (out ++ before) xs) out (itemOpenings depth before xs)
      (before ++ plainItems xs) := by
  induction xs generalizing before with
  | nil =>
    rw [writeItems, itemOpenings, plainItems, List.append_nil]
    rfl
  | cons x xs ih =>
    obtain ⟨hx, hxs⟩ := List.forall_mem_cons.1 h
    rw [writeItems_cons, itemOpenings, plainItems, ← List.append_assoc]
    refine (hx before).next ?_
    exact ih hxs (before ++ plainBytes x)

theorem writes_writeFields {fs : List (String × State)}
    (h : ∀ f ∈ fs, ∀ before : Bytes, Writes (write depth (out ++ before) f.2) out
      (openings depth before f.2) (before ++ plainBytes f.2)) (before : Bytes) :
    Writes (writeFields depth (out ++ before) fs) out (fieldOpenings depth before fs)
      (before ++ plainFields fs) := by
  induction fs generalizing before with
  | nil =>
    rw [writeFields, fieldOpenings, plainFields, List.append_nil]
    rfl
  | cons f fs ih =>
    obtain ⟨hx, hfs⟩ := List.forall_mem_cons.1 h
    obtain ⟨name, x⟩ := f
    rw [writeFields_cons, fieldOpenings, plainFields, append_append, ← List.append_assoc,
      ← List.append_assoc]
    refine (hx (before ++ textBytes name)).next ?_
    exact ih hfs (before ++ textBytes name ++ plainBytes x)

/-- Behind any bytes the writer appends the encoding of a node up to the header of the first list
or object that it refuses. -/
theorem writes_write (depth : Nat) (out : Buffer) (before : Bytes) (s : State) :
    Writes (write depth (out ++ before) s) out (openings depth before s)
      (before ++ plainBytes s) := by
  induction s generalizing depth before with
  | list xs ih =>
    have hlength : (State.list xs).entries.length = xs.length := rfl
    rw [write_list, openings, plainBytes, ← List.append_assoc]
    refine (writes_openContainer hlength before).next ?_
    exact writes_writeItems (fun x hx before => ih x hx (depth + 1) before) _
  | object fs ih =>
    have hlength : (State.object fs).entries.length = fs.length := List.length_map _
    rw [write_object, openings, plainBytes, ← List.append_assoc]
    refine (writes_openContainer hlength before).next ?_
    exact writes_writeFields (fun f hf before => ih f hf (depth + 1) before) _
  | _ =>
    rw [write, plainBytes, append_append]
    rfl

/-! ## Where the openings stand -/

/-- The first refused of the openings lies below no more lists and objects than may be opened. -/
def Shallow (os : List Opening) : Prop :=
  ∀ o fault, firstRefused os = some (o, fault) → o.depth ≤ maxNesting

theorem Shallow.append {os more : List Opening} (h : Shallow os) (hmore : Shallow more) :
    Shallow (os ++ more) := by
  intro o fault hrefused
  rw [firstRefused_append, Option.or_eq_some_iff] at hrefused
  rcases hrefused with hrefused | ⟨-, hrefused⟩
  · exact h o fault hrefused
  · exact hmore o fault hrefused

theorem Shallow.cons {o : Opening} {os : List Opening} (ho : o.depth ≤ maxNesting)
    (hos : o.depth < maxNesting → Shallow os) : Shallow (o :: os) := by
  intro p fault hrefused
  rw [firstRefused_cons, Option.or_eq_some_iff] at hrefused
  rcases hrefused with hrefused | ⟨hnone, hrefused⟩
  · obtain ⟨_, -, heq⟩ := Option.map_eq_some_iff.1 hrefused
    cases heq
    exact ho
  · refine hos (Nat.lt_of_not_le fun hdeep => ?_) p fault hrefused
    rw [Opening.fault?, if_pos hdeep] at hnone
    cases hnone

theorem shallow_itemOpenings {xs : List State}
    (h : ∀ x ∈ xs, ∀ before, Shallow (openings depth before x)) (before : Bytes) :
    Shallow (itemOpenings depth before xs) := by
  induction xs generalizing before with
  | nil => exact nofun
  | cons x xs ih =>
    obtain ⟨hx, hxs⟩ := List.forall_mem_cons.1 h
    rw [itemOpenings]
    exact (hx before).append (ih hxs _)

theorem shallow_fieldOpenings {fs : List (String × State)}
    (h : ∀ f ∈ fs, ∀ before, Shallow (openings depth before f.2)) (before : Bytes) :
    Shallow (fieldOpenings depth before fs) := by
  induction fs generalizing before with
  | nil => exact nofun
  | cons f fs ih =>
    obtain ⟨hx, hfs⟩ := List.forall_mem_cons.1 h
    obtain ⟨name, x⟩ := f
    rw [fieldOpenings]
    exact (hx _).append (ih hfs _)

theorem shallow_openings (hdepth : depth ≤ maxNesting) (before : Bytes) (s : State) :
    Shallow (openings depth before s) := by
  induction s generalizing depth before with
  | list xs ih =>
    rw [openings]
    exact Shallow.cons hdepth fun hlt =>
      shallow_itemOpenings (fun x hx before => ih x hx hlt before) _
  | object fs ih =>
    rw [openings]
    exact Shallow.cons hdepth fun hlt =>
      shallow_fieldOpenings (fun f hf before => ih f hf hlt before) _
  | _ => exact nofun

/-- The opening stands at its place in the bytes: behind those before it, with its encoding. -/
def PlacedIn (bytes : Bytes) (o : Opening) : Prop :=
  ∃ behind, bytes = o.before ++ (plainBytes o.node ++ behind)

theorem PlacedIn.append {bytes : Bytes} {o : Opening} (h : PlacedIn bytes o) (more : Bytes) :
    PlacedIn (bytes ++ more) o := by
  obtain ⟨behind, rfl⟩ := h
  exact ⟨behind ++ more, by simp⟩

theorem placedIn_itemOpenings {xs : List State} {o : Opening}
    (h : ∀ x ∈ xs, ∀ before, o ∈ openings depth before x → PlacedIn (before ++ plainBytes x) o)
    (before : Bytes) (ho : o ∈ itemOpenings depth before xs) :
    PlacedIn (before ++ plainItems xs) o := by
  induction xs generalizing before with
  | nil => cases ho
  | cons x xs ih =>
    obtain ⟨hx, hxs⟩ := List.forall_mem_cons.1 h
    rw [plainItems, ← List.append_assoc]
    rw [itemOpenings, List.mem_append] at ho
    rcases ho with ho | ho
    · exact (hx before ho).append (plainItems xs)
    · exact ih hxs _ ho

theorem placedIn_fieldOpenings {fs : List (String × State)} {o : Opening}
    (h : ∀ f ∈ fs, ∀ before, o ∈ openings depth before f.2 →
      PlacedIn (before ++ plainBytes f.2) o)
    (before : Bytes) (ho : o ∈ fieldOpenings depth before fs) :
    PlacedIn (before ++ plainFields fs) o := by
  induction fs generalizing before with
  | nil => cases ho
  | cons f fs ih =>
    obtain ⟨hx, hfs⟩ := List.forall_mem_cons.1 h
    obtain ⟨name, x⟩ := f
    rw [plainFields, ← List.append_assoc, ← List.append_assoc]
    rw [fieldOpenings, List.mem_append] at ho
    rcases ho with ho | ho
    · exact (hx _ ho).append (plainFields fs)
    · exact ih hfs _ ho

theorem placedIn_self (depth : Nat) (before : Bytes) (node : State) :
    PlacedIn (before ++ plainBytes node) ⟨depth, node, before⟩ :=
  ⟨[], by rw [List.append_nil]⟩

theorem placedIn_openings {before : Bytes} {s : State} {o : Opening}
    (ho : o ∈ openings depth before s) : PlacedIn (before ++ plainBytes s) o := by
  induction s generalizing depth before with
  | list xs ih =>
    rw [openings] at ho
    rcases List.mem_cons.1 ho with rfl | ho
    · exact placedIn_self depth before _
    · rw [plainBytes, ← List.append_assoc]
      exact placedIn_itemOpenings (fun x hx _ ho => ih x hx ho) _ ho
  | object fs ih =>
    rw [openings] at ho
    rcases List.mem_cons.1 ho with rfl | ho
    · exact placedIn_self depth before _
    · rw [plainBytes, ← List.append_assoc]
      exact placedIn_fieldOpenings (fun f hf _ ho => ih f hf ho) _ ho
  | _ => cases ho

theorem plainBytes_ne_nil (s : State) : plainBytes s ≠ [] := by
  have hcons : ∀ {header : Bytes} (rest : Bytes), header ≠ [] → header ++ rest ≠ [] :=
    fun rest h => List.append_ne_nil_of_left_ne_nil h rest
  cases s with
  | string t =>
    refine hcons _ ?_
    unfold textHeader
    dsimp only
    repeat' split
    all_goals exact List.cons_ne_nil _ _
  | list xs =>
    rw [plainBytes]
    refine hcons _ ?_
    unfold arrayHeader
    repeat' split
    all_goals exact List.cons_ne_nil _ _
  | object fs =>
    rw [plainBytes]
    refine hcons _ ?_
    unfold mapHeader
    repeat' split
    all_goals exact List.cons_ne_nil _ _
  | composite c =>
    refine hcons _ ?_
    unfold extensionHeader
    repeat' split
    all_goals exact List.cons_ne_nil _ _
  | _ => exact List.cons_ne_nil _ _

/-! ## What is appended -/

/-- The first of the lists and objects of a tree, in the order of their headers, that may not be
opened: it lies below as many others as may be opened, or has too many entries. -/
structure StopsAt (s : State) (o : Opening) (fault : EncodeFault) : Prop where
  first : ∃ earlier later, openings 0 [] s = earlier ++ o :: later ∧
    ∀ p ∈ earlier, p.depth < maxNesting ∧ p.node.entries.length < 2 ^ 32
  refused : (fault = .tooDeep ∧ o.depth = maxNesting) ∨
    (fault = .tooLong o.node.entries.length ∧ o.depth < maxNesting ∧
      2 ^ 32 ≤ o.node.entries.length)

theorem fault?_eq_none_iff {o : Opening} :
    o.fault? = none ↔ o.depth < maxNesting ∧ o.node.entries.length < 2 ^ 32 := by
  unfold Opening.fault?
  split
  · simp only [reduceCtorEq, false_iff]
    omega
  split
  · simp only [reduceCtorEq, false_iff]
    omega
  · simp only [true_iff]
    omega

theorem fault?_eq_some_iff {o : Opening} {fault : EncodeFault} (hdepth : o.depth ≤ maxNesting) :
    o.fault? = some fault ↔ (fault = .tooDeep ∧ o.depth = maxNesting) ∨
      (fault = .tooLong o.node.entries.length ∧ o.depth < maxNesting ∧
        2 ^ 32 ≤ o.node.entries.length) := by
  unfold Opening.fault?
  by_cases hdeep : maxNesting ≤ o.depth
  · have heq : o.depth = maxNesting := Nat.le_antisymm hdepth hdeep
    simp [heq, eq_comm]
  · have hlt : o.depth < maxNesting := Nat.lt_of_not_le hdeep
    have hne : o.depth ≠ maxNesting := Nat.ne_of_lt hlt
    by_cases hlong : 2 ^ 32 ≤ o.node.entries.length
    · simp [hdeep, hlong, hlt, hne, eq_comm]
    · simp [hdeep, hlong, hne]

theorem stopsAt_of_firstRefused {s : State} {o : Opening} {fault : EncodeFault}
    (h : firstRefused (openings 0 [] s) = some (o, fault)) : StopsAt s o fault := by
  have hdepth := shallow_openings (Nat.zero_le maxNesting) [] s o fault h
  obtain ⟨hfault, earlier, later, hsplit, hearlier⟩ := firstRefused_eq_some_iff.1 h
  exact ⟨⟨earlier, later, hsplit, fun p hp => fault?_eq_none_iff.1 (hearlier p hp)⟩,
    (fault?_eq_some_iff hdepth).1 hfault⟩

/-- What encoding a tree appends, complete or not. -/
def appended (s : State) : Bytes :=
  match firstRefused (openings 0 [] s) with
  | some (o, _) => o.before
  | none => plainBytes s

theorem write_toArray (pre : Bytes) (s : State) :
    write 0 pre.toArray s = match firstRefused (openings 0 [] s) with
      | some (o, fault) => .error ⟨fault, (pre ++ o.before).toArray⟩
      | none => .ok (pre ++ plainBytes s).toArray := by
  have hwrite := writes_write 0 pre.toArray [] s
  have happend : ∀ bytes : Bytes, pre.toArray ++ bytes = (pre ++ bytes).toArray := fun bytes => by
    apply Array.ext'
    simp
  simp only [Writes, happend, List.append_nil, List.nil_append] at hwrite
  exact hwrite

end SaveTree.Wire

namespace SaveTree

open Wire

theorem encode_eq_match (s : State) : encode s = match firstRefused (openings 0 [] s) with
    | some (_, fault) => .error (.encode fault)
    | none => .ok (plainBytes s) := by
  rw [encode, show (#[] : Buffer) = ([] : Bytes).toArray from rfl, write_toArray]
  cases firstRefused (openings 0 [] s) <;> rfl

theorem exists_encode_iff {s : State} :
    (∃ bytes, encode s = .ok bytes) ↔ s.nesting ≤ 512 ∧ s.Every State.FewEntries := by
  simp only [encode_eq_ok_iff, exists_and_left, exists_eq, and_true]
  exact Iff.rfl

/-- An encoding is appended to any bytes alike, and fails or succeeds whatever they are. -/
theorem encodeInto_eq (pre : Bytes) (s : State) :
    encodeInto pre s = (pre ++ appended s, (encode s).map fun _ => ()) := by
  rw [encodeInto, write_toArray, encode_eq_match, appended]
  cases firstRefused (openings 0 [] s) <;> rfl

/-- Encoding into a buffer keeps what is in it and appends the same bytes behind anything. These
are the encoding, if there is one. There is none if lists and objects nest too deep or one of them
has too many entries; then they are what an encoding without limits has before the header of the
first list or object that may not be opened, in the order of the headers, and so they are not all
of it. Where no list or object has too many entries, that is the first below 512 others. -/
theorem encodeInto_appends (s : State) :
    ∃ added, (∀ pre, encodeInto pre s = (pre ++ added, (encode s).map fun _ => ())) ∧
      (∀ bytes, encode s = .ok bytes → added = bytes) ∧
      ((∃ e, encode s = .error e) ↔ 512 < s.nesting ∨ ¬ s.Every State.FewEntries) ∧
      ∀ e, encode s = .error e → ∃ fault o, e = .encode fault ∧ StopsAt s o fault ∧
        added = o.before ∧ (∃ behind, behind ≠ [] ∧ plainBytes s = added ++ behind) ∧
        (s.Every State.FewEntries → fault = .tooDeep ∧ o.depth = 512) := by
  refine ⟨appended s, fun pre => encodeInto_eq pre s, fun bytes h => ?_, ?_, fun e h => ?_⟩
  · rw [encode_eq_match] at h
    unfold appended
    cases hrefused : firstRefused (openings 0 [] s) with
    | none =>
      rw [hrefused] at h
      cases h
      rfl
    | some refused =>
      rw [hrefused] at h
      cases h
  · rw [← Nat.not_le, ← not_and_or, ← exists_encode_iff]
    cases encode s <;> simp
  · cases hrefused : firstRefused (openings 0 [] s) with
    | none =>
      rw [encode_eq_match, hrefused] at h
      cases h
    | some refused =>
      obtain ⟨o, fault⟩ := refused
      have hencode := encode_eq_match s
      rw [hrefused, h] at hencode
      cases hencode
      have hstops := stopsAt_of_firstRefused hrefused
      have hadded : appended s = o.before := by rw [appended, hrefused]
      obtain ⟨earlier, later, hsplit, -⟩ := hstops.first
      have hmem : o ∈ openings 0 [] s := by
        rw [hsplit]
        exact List.mem_append_right _ List.mem_cons_self
      obtain ⟨behind, hplace⟩ := placedIn_openings hmem
      refine ⟨fault, o, rfl, hstops, hadded, ⟨plainBytes o.node ++ behind, ?_, ?_⟩, fun hfew => ?_⟩
      · exact List.append_ne_nil_of_left_ne_nil (plainBytes_ne_nil o.node) behind
      · rw [hadded, ← hplace, List.nil_append]
      · have hdeep : 512 < s.nesting :=
          Nat.lt_of_not_le fun hle => by
            obtain ⟨bytes, hbytes⟩ := exists_encode_iff.2 ⟨hle, hfew⟩
            rw [hbytes] at h
            cases h
        rw [encode_of_lt_nesting hfew hdeep] at h
        cases h
        rcases hstops.refused with ⟨-, hdepth⟩ | ⟨hlong, -⟩
        · exact ⟨rfl, hdepth⟩
        · cases hlong

/-- `n` lists with one item each, around an empty one. -/
def chain (n : Nat) : State := Nat.repeat (fun s => .list [s]) n (.list [])

/-- A chain of lists is refused where the limit is reached. -/
theorem firstRefused_chain {n depth : Nat} (h : depth + n = maxNesting) (before : Bytes) :
    firstRefused (openings depth before (chain n)) =
      some (⟨maxNesting, .list [], before ++ List.replicate n 0x91⟩, .tooDeep) := by
  induction n generalizing depth before with
  | zero =>
    obtain rfl : depth = maxNesting := h
    rw [List.replicate_zero, List.append_nil]
    rfl
  | succ n ih =>
    have hopens : (⟨depth, .list [chain n], before⟩ : Opening).fault? = none :=
      fault?_eq_none_iff.2 ⟨show depth < maxNesting by omega, show 1 < 2 ^ 32 by decide⟩
    show firstRefused (openings depth before (.list [chain n])) = _
    rw [openings, firstRefused_cons, hopens, itemOpenings, itemOpenings, List.append_nil,
      ih (by omega)]
    simp [arrayHeader, List.replicate_succ]

/-- A list of a truth value and a chain that goes one list too deep. -/
def overdeepTree : State := .list [.bool true, chain 511]

theorem firstRefused_overdeepTree : firstRefused (openings 0 [] overdeepTree) =
    some (⟨512, .list [], [0x92, 0xC3] ++ List.replicate 511 0x91⟩, .tooDeep) := by
  rw [overdeepTree, openings, firstRefused_cons, itemOpenings, itemOpenings, itemOpenings,
    List.append_nil, firstRefused_append, firstRefused_chain rfl]
  rfl

theorem encodeInto_appends_overdeepTree :
    (∃ e, encode overdeepTree = .error e) ∧ ∃ o, StopsAt overdeepTree o .tooDeep ∧
      o.before = [0x92, 0xC3] ++ List.replicate 511 0x91 ∧
      encodeInto [0xAA] overdeepTree = ([0xAA] ++ o.before, .error (.encode .tooDeep)) := by
  obtain ⟨added, hinto, -, -, hstop⟩ := encodeInto_appends overdeepTree
  have hadded : added = [0x92, 0xC3] ++ List.replicate 511 0x91 := by
    have hempty := congrArg Prod.fst ((hinto []).symm.trans (encodeInto_eq [] overdeepTree))
    rw [appended, firstRefused_overdeepTree] at hempty
    exact hempty
  have he : encode overdeepTree = .error (.encode .tooDeep) := by
    rw [encode_eq_match, firstRefused_overdeepTree]
  obtain ⟨fault, o, hfault, hstops, rfl, -, -⟩ := hstop _ he
  cases hfault
  refine ⟨⟨_, he⟩, o, hstops, hadded, ?_⟩
  rw [hinto, he]
  rfl

end SaveTree
