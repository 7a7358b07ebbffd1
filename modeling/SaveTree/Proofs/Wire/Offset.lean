/-
  Where a reader stands.

  A trace tells by which places a reader comes: `trace i p` where a reading from `i` comes by `p`.
  `valueTrace` goes through a value as `readValue` does, into lists, objects and the payloads of
  extension blocks. `Locates` is what each reader keeps: started `n` bytes later it does the same
  `n` bytes later, all places of its trace lie in the bytes it was given, and the offset of an
  error is one at which it stood, or the start of the value that it was told.
-/
import SaveTree.Proofs.Wire.Decode

namespace SaveTree.Wire

variable {α β : Type}

/-! ## Places and errors -/

/-- The same bytes, `n` bytes later. -/
def Input.later (n : Nat) (i : Input) : Input := ⟨n + i.offset, i.rest⟩

/-- The same error, `n` bytes later. Only the errors of decoding have an offset. -/
def laterError (n : Nat) : Error → Error
  | .decode offset fault => .decode (n + offset) fault
  | .unknownExtension offset code => .unknownExtension (n + offset) code
  | e => e

/-- The same outcome of a reader, `n` bytes later. -/
def later (n : Nat) : Except Error (α × Input) → Except Error (α × Input)
  | .ok (x, i) => .ok (x, i.later n)
  | .error e => .error (laterError n e)

/-- A fault of the bytes at an offset. -/
inductive DecodeAt : Error → Nat → Prop
  | decode (offset : Nat) (fault : DecodeFault) : DecodeAt (.decode offset fault) offset

/-- An error of decoding at an offset. -/
inductive FoundAt : Error → Nat → Prop
  | decode (offset : Nat) (fault : DecodeFault) : FoundAt (.decode offset fault) offset
  | unknownExtension (offset : Nat) (code : Int) : FoundAt (.unknownExtension offset code) offset

theorem foundAt_of_decodeAt (e : Error) (offset : Nat) (h : DecodeAt e offset) :
    FoundAt e offset := by
  obtain ⟨offset, fault⟩ := h
  exact .decode offset fault

/-- The bytes of `p` are a part of those of `i`, and its offset is that of the first of them. -/
def Input.LiesIn (p i : Input) : Prop :=
  ∃ before after, i.rest = before ++ (p.rest ++ after) ∧ p.offset = i.offset + before.length

theorem Input.LiesIn.refl (i : Input) : i.LiesIn i :=
  ⟨[], [], (List.append_nil _).symm, rfl⟩

theorem Input.LiesIn.trans {p q i : Input} (h : p.LiesIn q) (hq : q.LiesIn i) : p.LiesIn i := by
  obtain ⟨b, a, hr, ho⟩ := h
  obtain ⟨c, d, hr', ho'⟩ := hq
  refine ⟨c ++ b, a ++ d, ?_, ?_⟩
  · rw [hr', hr]
    simp only [List.append_assoc]
  · rw [ho, ho', List.length_append, Nat.add_assoc]

theorem Uses.liesIn {i j : Input} {block : Bytes} (h : Uses i block j) : j.LiesIn i :=
  ⟨block, [], by rw [h.1, List.append_nil], h.2⟩

theorem Input.LiesIn.offset_le {p i : Input} (h : p.LiesIn i) :
    i.offset ≤ p.offset ∧ p.offset ≤ i.offset + i.rest.length := by
  obtain ⟨before, after, hr, ho⟩ := h
  rw [hr, ho, List.length_append]
  omega

/-! ## Traces -/

/-- The places by which readings come: from the first, by the second. -/
abbrev Trace := Input → Input → Prop

/-- Nothing is read. -/
def stay : Trace := fun i p => p = i

/-- The bytes are taken in one step. -/
def step (read : Reader α) : Trace := fun i p => p = i ∨ ∃ x, read i = .ok (x, p)

/-- The trace of a reader, and where it succeeds that of the reader behind it. -/
def Trace.andThen (trace : Trace) (read : Reader α) (next : α → Trace) : Trace := fun i p =>
  trace i p ∨ ∃ x j, read i = .ok (x, j) ∧ next x j p

/-- A marker, and what is read behind it by a reader that is told where the marker was. -/
def markedTrace (missing : DecodeFault) (behind : Nat → Marker → Trace) : Trace := fun i p =>
  (step (readMarker missing)).andThen (readMarker missing) (behind i.offset) i p

/-- An integer behind its marker. -/
def wholeTrace (start : Nat) : Marker → Trace
  | .unsigned width | .signed width => step (readNumber start width)
  | _ => stay

/-- A float of 32 bits behind its marker. -/
def floatTrace (start : Nat) : Marker → Trace
  | .float => step (readNumber start 4)
  | _ => stay

/-- A text behind its marker. -/
def textTrace (start : Nat) (length : Count) : Trace :=
  (step (readCount start length)).andThen (readCount start length) fun n => step (readBlock .text n)

/-- The name of a field. -/
def keyTrace : Trace :=
  markedTrace .noValue fun start m =>
    match m with
    | .text length => textTrace start length
    | _ => stay

/-- Many values one after the other. -/
def manyTrace (one : Reader α) (trace : Trace) : Nat → Trace
  | 0 => stay
  | count + 1 => trace.andThen one fun _ => manyTrace one trace count

/-- A field: its name and its value. -/
def fieldTrace (value : Trace) : Trace := keyTrace.andThen readKey fun _ => value

/-- A component of an extension block. -/
def componentTrace : Kind → Trace
  | .vector2int | .vector3int => markedTrace .noMarker wholeTrace
  | _ => markedTrace .noMarker floatTrace

/-- A payload of `n` bytes: the places inside it, and the one behind it. -/
def payloadTrace (n : Nat) (kind : Kind) : Trace := fun i p =>
  p = i ∨ ∃ payload after, readBlock .extension n i = .ok (payload, after) ∧
    (p = after ∨
      manyTrace (readComponent kind) (componentTrace kind) kind.arity ⟨i.offset, payload⟩ p)

/-- An extension block behind its marker. Where the code is of no composite its payload is not
read. -/
def extensionTrace (start : Nat) (size : Count) : Trace :=
  (step (readCount start size)).andThen (readCount start size) fun n =>
    (step (readNumber start 1)).andThen (readNumber start 1) fun byte =>
      match Kind.ofCode? (signed 1 byte) with
      | none => stay
      | some kind => payloadTrace n kind

/-- A value behind its marker; `nested` are the reader of values inside lists and objects and its
trace. -/
def behindTrace (nested : Option (Reader State × Trace)) (start : Nat) : Marker → Trace
  | .float => floatTrace start .float
  | .double => step (readNumber start 8)
  | .text length => textTrace start length
  | .array length =>
    match nested with
    | none => stay
    | some (value, trace) =>
      (step (readCount start length)).andThen (readCount start length) (manyTrace value trace)
  | .map length =>
    match nested with
    | none => stay
    | some (value, trace) =>
      (step (readCount start length)).andThen (readCount start length)
        (manyTrace (readField value) (fieldTrace trace))
  | .extension size => extensionTrace start size
  | m => wholeTrace start m

/-- A value with at most `levels` lists and objects inside one another. -/
def valueTrace : Nat → Trace
  | 0 => markedTrace .noValue (behindTrace none)
  | levels + 1 => markedTrace .noValue (behindTrace (some (readValue levels, valueTrace levels)))

/-! ## Readers put together -/

/-- A reader that is told where its value starts knows where it stands: it does the same wherever
its input stands, comes by places inside it alone, and fails at one of them or at the start. -/
structure Locates (fails : Error → Nat → Prop) (trace : Nat → Trace) (read : Nat → Reader α) :
    Prop where
  /-- Only the offsets change with the place of the input. -/
  later : ∀ n start i, read (n + start) (i.later n) = later n (read start i)
  /-- It ends at a place of its trace. -/
  ends : ∀ start i x j, read start i = .ok (x, j) → trace start i j
  /-- The places of its trace lie in its input. -/
  inside : ∀ start i p, trace start i p → p.LiesIn i
  /-- It fails at the start or at a place of its trace. -/
  failed : ∀ start i e, read start i = .error e →
    ∃ offset, fails e offset ∧ (offset = start ∨ ∃ p, trace start i p ∧ p.offset = offset)

variable {fails : Error → Nat → Prop} {trace : Nat → Trace}

theorem Locates.mono {other : Error → Nat → Prop} {read : Nat → Reader α}
    (h : Locates fails trace read) (hle : ∀ e offset, fails e offset → other e offset) :
    Locates other trace read := by
  refine ⟨h.later, h.ends, h.inside, fun start i e he => ?_⟩
  obtain ⟨offset, hfail, hplace⟩ := h.failed start i e he
  exact ⟨offset, hle e offset hfail, hplace⟩

theorem locates_pure (x : α) : Locates fails (fun _ => stay) (fun _ i => .ok (x, i)) := by
  refine ⟨fun n start i => rfl, fun start i y j h => ?_, fun start i p h => ?_, nofun⟩
  · cases h
    rfl
  · cases h
    exact .refl i

theorem locates_error {error : Nat → Error}
    (hlater : ∀ n start, error (n + start) = laterError n (error start))
    (hfails : ∀ start, fails (error start) start) :
    Locates (α := α) fails (fun _ => stay) (fun start _ => .error (error start)) := by
  refine ⟨fun n start i => ?_, nofun, fun start i p h => ?_, fun start i e h => ?_⟩
  · rw [hlater n start]
    rfl
  · cases h
    exact .refl i
  · cases h
    exact ⟨start, hfails start, .inl rfl⟩

theorem locates_failAt (fault : DecodeFault) :
    Locates (α := α) DecodeAt (fun _ => stay) (fun start _ => failAt start fault) :=
  locates_error (fun _ _ => rfl) fun start => .decode start fault

/-- One reader after the other. -/
theorem Locates.bind {f : Nat → Reader α} {g : Nat → α → Reader β} {next : Nat → α → Trace}
    (hf : Locates fails trace f)
    (hg : ∀ x, Locates fails (fun start => next start x) (fun start => g start x)) :
    Locates fails (fun start => (trace start).andThen (f start) (next start))
      (fun start i => f start i >>= fun (x, j) => g start x j) := by
  refine ⟨fun n start i => ?_, fun start i y k h => ?_, fun start i p h => ?_,
    fun start i e h => ?_⟩
  · dsimp only
    rw [hf.later]
    cases f start i with
    | error e => rfl
    | ok r =>
      obtain ⟨x, j⟩ := r
      exact (hg x).later n start j
  · obtain ⟨⟨x, j⟩, hi, h⟩ := bind_eq_ok_iff.1 h
    exact .inr ⟨x, j, hi, (hg x).ends start j y k h⟩
  · rcases h with h | ⟨x, j, hi, h⟩
    · exact hf.inside start i p h
    · have hj := hf.inside start i j (hf.ends start i x j hi)
      exact ((hg x).inside start j p h).trans hj
  · obtain hi | ⟨⟨x, j⟩, hi, h⟩ := bind_eq_error_iff.1 h
    · obtain ⟨offset, he, hplace⟩ := hf.failed start i e hi
      exact ⟨offset, he, hplace.imp_right fun ⟨p, hp, ho⟩ => ⟨p, .inl hp, ho⟩⟩
    · obtain ⟨offset, he, hplace⟩ := (hg x).failed start j e h
      exact ⟨offset, he, hplace.imp_right fun ⟨p, hp, ho⟩ => ⟨p, .inr ⟨x, j, hi, hp⟩, ho⟩⟩

theorem Locates.congr {read : Nat → Reader α} {other : Nat → Trace}
    (h : Locates fails trace read) (hiff : ∀ start i p, trace start i p ↔ other start i p) :
    Locates fails other read := by
  obtain rfl : trace = other := by
    funext start i p
    exact propext (hiff start i p)
  exact h

/-- What is made of a value behind the reader takes no more bytes. -/
theorem Locates.settle {f : Nat → Reader α} {g : Nat → α → Reader β}
    (hf : Locates fails trace f)
    (hg : ∀ x, Locates fails (fun _ => stay) (fun start => g start x)) :
    Locates fails trace (fun start i => f start i >>= fun (x, j) => g start x j) := by
  refine (hf.bind hg).congr fun start i p => ⟨fun h => ?_, .inl⟩
  rcases h with h | ⟨x, j, hi, h⟩
  · exact h
  · cases h
    exact hf.ends start i x p hi

theorem Locates.map {f : Nat → Reader α} (hf : Locates fails trace f) (g : α → β) :
    Locates fails trace (fun start i => f start i >>= fun (x, j) => .ok (g x, j)) :=
  hf.settle (g := fun _ x j => .ok (g x, j)) fun x => locates_pure (g x)

/-! ## Blocks of known length -/

theorem take?_later (n m : Nat) (i : Input) :
    (i.later n).take? m = (i.take? m).map fun r => (r.1, r.2.later n) := by
  unfold Input.take? Input.drop Input.later
  dsimp only
  split
  · rw [Option.map_some, Nat.add_assoc]
  · rfl

/-- A reader that takes its block in one step fails where its value starts or where it stands. -/
theorem locates_step {read : Nat → Reader α} {P : Bytes → α → Prop}
    (hlater : ∀ n start i, read (n + start) (i.later n) = later n (read start i))
    (hread : ∀ start, Accepts (read start) P)
    (hfailed : ∀ start i e, read start i = .error e → fails e start ∨ fails e i.offset) :
    Locates fails (fun start => step (read start)) read := by
  refine ⟨hlater, fun start i x j h => .inr ⟨x, h⟩, fun start i p h => ?_, fun start i e h => ?_⟩
  · rcases h with rfl | ⟨x, h⟩
    · exact .refl p
    · obtain ⟨block, -, hu⟩ := (hread start i x p).1 h
      exact hu.liesIn
  · rcases hfailed start i e h with he | he
    · exact ⟨start, he, .inl rfl⟩
    · exact ⟨i.offset, he, .inr ⟨i, .inl rfl, rfl⟩⟩

theorem locates_readNumber (width : Nat) :
    Locates DecodeAt (fun start => step (readNumber start width))
      (fun start => readNumber start width) := by
  refine locates_step (fun n start i => ?_) (fun start => accepts_readNumber start width)
    fun start i e h => .inl ?_
  · unfold readNumber
    rw [take?_later]
    cases i.take? width <;> rfl
  · unfold readNumber at h
    split at h
    · cases h
    · cases h
      exact .decode start .noData

theorem locates_readCount (c : Count) :
    Locates DecodeAt (fun start => step (readCount start c)) (fun start => readCount start c) := by
  cases c with
  | inline n =>
    exact locates_step (fun _ _ _ => rfl) (fun start => accepts_readCount start (.inline n)) nofun
  | field width => exact locates_readNumber width

theorem locates_readBlock (block : Block) (n : Nat) :
    Locates DecodeAt (fun _ => step (readBlock block n)) (fun _ => readBlock block n) := by
  refine locates_step (fun m start i => ?_) (fun _ => accepts_readBlock block n)
    fun start i e h => .inr ?_
  · unfold readBlock
    rw [take?_later]
    cases i.take? n <;> rfl
  · unfold readBlock at h
    split at h
    · cases h
    · cases h
      exact .decode i.offset _

theorem locates_readMarker (missing : DecodeFault) :
    Locates DecodeAt (fun _ => step (readMarker missing)) (fun _ => readMarker missing) := by
  refine locates_step (fun n start i => ?_) (fun _ => accepts_readMarker missing)
    fun start i e h => .inr ?_
  · obtain ⟨offset, _ | ⟨b, rest⟩⟩ := i <;> rfl
  · unfold readMarker at h
    split at h
    · cases h
      exact .decode i.offset missing
    · cases h

/-- A reader that looks at a marker first, and tells the reader behind it where that was. -/
theorem locates_marked {missing : DecodeFault} {f : Nat → Marker → Reader α}
    {behind : Nat → Marker → Trace} (hfails : ∀ e offset, DecodeAt e offset → fails e offset)
    (hf : ∀ m, Locates fails (fun start => behind start m) (fun start => f start m)) :
    Locates fails (fun _ => markedTrace missing behind)
      (fun _ i => readMarker missing i >>= fun (m, j) => f i.offset m j) := by
  -- where the start is the marker's own place, the one error at the start is on the trace
  have h := ((locates_readMarker missing).mono hfails).bind hf
  refine ⟨fun n _ i => h.later n i.offset i, fun _ i => h.ends i.offset i,
    fun _ i => h.inside i.offset i, fun _ i e he => ?_⟩
  obtain ⟨offset, hfail, rfl | hplace⟩ := h.failed i.offset i e he
  · exact ⟨i.offset, hfail, .inr ⟨i, .inl (.inl rfl), rfl⟩⟩
  · exact ⟨offset, hfail, .inr hplace⟩

/-! ## Numbers -/

theorem locates_readWhole (m : Marker) :
    Locates DecodeAt (fun start => wholeTrace start m) (fun start => readWhole start m) := by
  cases m with
  | small n => exact locates_pure (n : Int)
  | unsigned width => exact (locates_readNumber width).map fun n => (n : Int)
  | signed width => exact (locates_readNumber width).map (signed width)
  | _ => exact locates_failAt .wrongMarker

theorem locates_readInteger (low high : Int) (m : Marker) :
    Locates DecodeAt (fun start => wholeTrace start m)
      (fun start => readInteger start low high m) := by
  refine (locates_readWhole m).settle
    (g := fun start n i => if low ≤ n ∧ n ≤ high then .ok (n, i) else failAt start .outOfRange)
    fun n => ?_
  by_cases hn : low ≤ n ∧ n ≤ high
  · simpa only [if_pos hn] using locates_pure n
  · simpa only [if_neg hn] using locates_failAt .outOfRange

theorem locates_readInt (m : Marker) :
    Locates DecodeAt (fun start => wholeTrace start m) (fun start => readInt start m) :=
  (locates_readInteger _ _ m).map Int32.ofInt

theorem locates_readLong (m : Marker) :
    Locates DecodeAt (fun start => wholeTrace start m) (fun start => readLong start m) :=
  (locates_readInteger _ _ m).map Int64.ofInt

theorem locates_readFloat (m : Marker) :
    Locates DecodeAt (fun start => floatTrace start m) (fun start => readFloat start m) := by
  cases m with
  | float => exact (locates_readNumber 4).map (Binary.ofNat .single)
  | _ => exact locates_failAt .wrongMarker

theorem locates_readDouble :
    Locates DecodeAt (fun start => step (readNumber start 8)) readDouble :=
  (locates_readNumber 8).map (Binary.ofNat .double)

/-! ## Texts -/

theorem locates_textOf (bytes : Bytes) :
    Locates DecodeAt (fun _ => stay) (fun start => textOf start bytes) := by
  unfold textOf
  cases Utf8.decode bytes with
  | ok s => exact locates_pure s
  | error fault => exact locates_failAt (.notText fault)

theorem locates_readText (length : Count) :
    Locates DecodeAt (fun start => textTrace start length)
      (fun start => readText start length) :=
  (locates_readCount length).bind
    (g := fun start n i => readBlock .text n i >>= fun r => textOf start r.1 r.2)
    fun n => (locates_readBlock .text n).settle (g := textOf) locates_textOf

theorem locates_readKey : Locates DecodeAt (fun _ => keyTrace) (fun _ => readKey) := by
  refine locates_marked (f := keyBehind) (fun _ _ h => h) fun m => ?_
  cases m with
  | text length => exact locates_readText length
  | _ => exact locates_failAt _

/-! ## Many values one after the other -/

theorem locates_readMany {one : Reader α} {t : Trace}
    (h : Locates fails (fun _ => t) (fun _ => one)) (out : Array α) (n : Nat) :
    Locates fails (fun _ => manyTrace one t n) (fun _ => readMany one out n) := by
  induction n generalizing out with
  | zero => exact locates_pure out
  | succ n ih =>
    have hr : readMany one out (n + 1) =
        fun i => one i >>= fun r => readMany one (out.push r.1) n r.2 := by
      funext i
      rw [readMany]
      cases one i <;> rfl
    rw [hr]
    exact h.bind (g := fun _ x => readMany one (out.push x) n) fun x => ih (out.push x)

/-! ## Composites -/

theorem locates_readComponent (kind : Kind) :
    Locates DecodeAt (fun _ => componentTrace kind) (fun _ => readComponent kind) := by
  cases kind with
  | vector2int | vector3int =>
    exact locates_marked
      (f := fun start m j => readInt start m j >>= fun r => .ok (Component.int r.1, r.2))
      (fun _ _ h => h) fun m => (locates_readInt m).map Component.int
  | _ =>
    exact locates_marked
      (f := fun start m j => readFloat start m j >>= fun r => .ok (Component.float r.1, r.2))
      (fun _ _ h => h) fun m => (locates_readFloat m).map Component.float

theorem locates_readComponents (kind : Kind) :
    Locates DecodeAt
      (fun _ => manyTrace (readComponent kind) (componentTrace kind) kind.arity)
      (fun _ => readComponents kind) :=
  (locates_readMany (locates_readComponent kind) #[] kind.arity).map
    fun cs => Composite.ofComponents? kind cs.toList

/-- A payload that is there as a whole lies where its block does. -/
theorem liesIn_of_readBlock {block : Block} {n : Nat} {i after : Input} {payload : Bytes}
    (h : readBlock block n i = .ok (payload, after)) :
    Input.LiesIn ⟨i.offset, payload⟩ i ∧ after.LiesIn i := by
  obtain ⟨b, ⟨-, rfl⟩, hu⟩ := (accepts_readBlock block n i payload after).1 h
  exact ⟨⟨[], after.rest, hu.1, rfl⟩, hu.liesIn⟩

theorem compositeOf_later (m start : Nat) (code : Int) (kind : Kind) (i after : Input)
    (payload : Bytes) :
    compositeOf (m + start) code kind (i.later m) payload (after.later m) =
      later m (compositeOf start code kind i payload after) := by
  have hlater : readComponents kind ⟨m + i.offset, payload⟩ =
      later m (readComponents kind ⟨i.offset, payload⟩) :=
    (locates_readComponents kind).later m start ⟨i.offset, payload⟩
  unfold compositeOf
  dsimp only [Input.later]
  rw [hlater]
  cases readComponents kind ⟨i.offset, payload⟩ with
  | error e => rfl
  | ok r =>
    obtain ⟨_ | c, left⟩ := r
    · rfl
    · show (if left.rest.isEmpty then _ else _) = later m (if left.rest.isEmpty then _ else _)
      split <;> rfl

theorem int_of_componentOf {kind : Kind} (hkind : kind = .vector2int ∨ kind = .vector3int)
    (b : Bytes) (c : Component) (h : ComponentOf kind b c) : ∃ n, c = .int n := by
  rcases hkind with rfl | rfl
  all_goals
    cases c with
    | int n => exact ⟨n, rfl⟩
    | float x => exact h.elim

theorem float_of_componentOf {kind : Kind} (htwo : kind ≠ .vector2int) (hthree : kind ≠ .vector3int)
    (b : Bytes) (c : Component) (h : ComponentOf kind b c) : ∃ x, c = .float x := by
  cases c with
  | float x => exact ⟨x, rfl⟩
  | int n =>
    cases kind with
    | vector2int => exact absurd rfl htwo
    | vector3int => exact absurd rfl hthree
    | _ => exact h.elim

theorem exists_map_of_joined {P : Bytes → α → Prop} (make : β → α)
    (hmake : ∀ b x, P b x → ∃ y, x = make y) {b : Bytes} {xs : List α} (h : Joined P b xs) :
    ∃ ys, xs = List.map make ys := by
  induction h with
  | nil => exact ⟨[], rfl⟩
  | cons hx _ ih =>
    obtain ⟨ys, rfl⟩ := ih
    obtain ⟨y, rfl⟩ := hmake _ _ hx
    exact ⟨y :: ys, rfl⟩

/-- The components that a payload holds are as many as the kind of its code has, and of its type, so
they make a composite. -/
theorem exists_ofComponents? {kind : Kind} {code : Int} (hkind : Kind.ofCode? code = some kind)
    {b : Bytes} {cs : List Component} (h : Joined (ComponentOf kind) b cs)
    (hl : cs.length = kind.arity) : ∃ c, Composite.ofComponents? kind cs = some c := by
  obtain ⟨n, hcode, -⟩ := (Kind.ofCode?_eq_some_iff code kind).1 hkind
  cases kind with
  | vector2 =>
    obtain ⟨xs, rfl⟩ := exists_map_of_joined .float (float_of_componentOf (by decide) (by decide)) h
    match xs, hl with
    | [x, y], _ => exact ⟨.vector2 x y, rfl⟩
  | vector3 =>
    obtain ⟨xs, rfl⟩ := exists_map_of_joined .float (float_of_componentOf (by decide) (by decide)) h
    match xs, hl with
    | [x, y, z], _ => exact ⟨.vector3 x y z, rfl⟩
  | vector2int =>
    obtain ⟨ns, rfl⟩ := exists_map_of_joined .int (int_of_componentOf (.inl rfl)) h
    match ns, hl with
    | [x, y], _ => exact ⟨.vector2int x y, rfl⟩
  | vector3int =>
    obtain ⟨ns, rfl⟩ := exists_map_of_joined .int (int_of_componentOf (.inr rfl)) h
    match ns, hl with
    | [x, y, z], _ => exact ⟨.vector3int x y z, rfl⟩
  | quaternion =>
    obtain ⟨xs, rfl⟩ := exists_map_of_joined .float (float_of_componentOf (by decide) (by decide)) h
    match xs, hl with
    | [x, y, z, w], _ => exact ⟨.quaternion x y z w, rfl⟩
  | _ => cases hcode

/-- Where the code is of a kind, the composite ends where its block does or is faulty inside the
payload. -/
theorem compositeOf_cases {kind : Kind} {code : Int} (hkind : Kind.ofCode? code = some kind)
    (start : Nat) (i after : Input) (payload : Bytes) :
    (∃ c, compositeOf start code kind i payload after = .ok (c, after)) ∨
    ∃ offset fault, compositeOf start code kind i payload after = .error (.decode offset fault) ∧
      (offset = i.offset ∨ ∃ p, manyTrace (readComponent kind) (componentTrace kind) kind.arity
        ⟨i.offset, payload⟩ p ∧ p.offset = offset) := by
  have hcomponents := locates_readComponents kind
  unfold compositeOf
  cases hc : readComponents kind ⟨i.offset, payload⟩ with
  | error e =>
    obtain ⟨offset, ⟨_, fault⟩, hplace⟩ := hcomponents.failed i.offset _ e hc
    exact .inr ⟨offset, fault, rfl, hplace⟩
  | ok r =>
    obtain ⟨c?, left⟩ := r
    obtain ⟨block, ⟨cs, hj, hl, hcs⟩, -⟩ := (accepts_readComponents kind _ _ _).1 hc
    obtain ⟨c, hc?⟩ := exists_ofComponents? hkind hj hl
    obtain rfl : c? = some c := hcs.trans hc?
    by_cases hrest : left.rest.isEmpty
    · exact .inl ⟨c, if_pos hrest⟩
    · have hleft := hcomponents.ends start _ _ _ hc
      exact .inr ⟨left.offset, _, if_neg hrest, .inr ⟨left, hleft, rfl⟩⟩

theorem locates_readPayload {kind : Kind} {code : Int} (hkind : Kind.ofCode? code = some kind)
    (n : Nat) : Locates DecodeAt (fun _ => payloadTrace n kind)
      (fun start => readPayload start code n kind) := by
  -- the payload is an input of its own, so the two readers are not one after the other
  have hblock := locates_readBlock .extension n
  refine ⟨fun m start i => ?_, fun start i c j h => ?_, fun start i p h => ?_,
    fun start i e h => ?_⟩
  · unfold readPayload
    rw [hblock.later m start i]
    cases readBlock .extension n i with
    | error e => rfl
    | ok r => exact compositeOf_later m start code kind i r.2 r.1
  · unfold readPayload at h
    obtain ⟨⟨payload, after⟩, hi, h⟩ := bind_eq_ok_iff.1 h
    replace h : compositeOf start code kind i payload after = .ok (c, j) := h
    obtain ⟨d, hd⟩ | ⟨offset, fault, hd, -⟩ := compositeOf_cases hkind start i after payload
    all_goals rw [hd] at h
    all_goals cases h
    exact .inr ⟨payload, j, hi, .inl rfl⟩
  · rcases h with rfl | ⟨payload, after, hi, rfl | h⟩
    · exact .refl p
    · exact (liesIn_of_readBlock hi).2
    · exact ((locates_readComponents kind).inside start _ p h).trans (liesIn_of_readBlock hi).1
  · unfold readPayload at h
    obtain hi | ⟨⟨payload, after⟩, hi, h⟩ := bind_eq_error_iff.1 h
    · obtain ⟨offset, hd, hplace⟩ := hblock.failed start i e hi
      refine ⟨offset, hd, hplace.imp_right fun ⟨p, hp, ho⟩ => ⟨p, ?_, ho⟩⟩
      rcases hp with rfl | ⟨x, hp⟩
      · exact .inl rfl
      · exact .inr ⟨x, p, hp, .inl rfl⟩
    · replace h : compositeOf start code kind i payload after = .error e := h
      obtain ⟨d, hd⟩ | ⟨offset, fault, hd, hplace⟩ := compositeOf_cases hkind start i after payload
      all_goals rw [hd] at h
      all_goals cases h
      refine ⟨offset, .decode offset fault, .inr ?_⟩
      rcases hplace with rfl | ⟨p, hp, ho⟩
      · exact ⟨i, .inl rfl, rfl⟩
      · exact ⟨p, .inr ⟨payload, after, hi, .inr hp⟩, ho⟩

theorem locates_payloadBehind (n byte : Nat) :
    Locates FoundAt
      (fun _ => match Kind.ofCode? (signed 1 byte) with
        | none => stay
        | some kind => payloadTrace n kind)
      (fun start => payloadBehind start n byte) := by
  unfold payloadBehind
  cases hkind : Kind.ofCode? (signed 1 byte) with
  | none => exact locates_error (fun _ _ => rfl) fun start => .unknownExtension start _
  | some kind => exact (locates_readPayload hkind n).mono foundAt_of_decodeAt

theorem locates_readExtension (size : Count) :
    Locates FoundAt (fun start => extensionTrace start size)
      (fun start => readExtension start size) :=
  ((locates_readCount size).mono foundAt_of_decodeAt).bind
    (g := fun start n i => readNumber start 1 i >>= fun byte => payloadBehind start n byte.1 byte.2)
    fun n => ((locates_readNumber 1).mono foundAt_of_decodeAt).bind
      (g := fun start byte => payloadBehind start n byte) fun byte => locates_payloadBehind n byte

/-! ## Values -/

theorem locates_readField {value : Reader α} {t : Trace}
    (h : Locates fails (fun _ => t) (fun _ => value))
    (hfails : ∀ e offset, DecodeAt e offset → fails e offset) :
    Locates fails (fun _ => fieldTrace t) (fun _ => readField value) :=
  (locates_readKey.mono hfails).bind
    (g := fun _ name i => value i >>= fun (x, i) => .ok ((name, x), i))
    fun name => h.map fun x => (name, x)

/-- Behind the markers of scalars, and of those that no value has, only the bytes can be wrong. -/
theorem locates_readBehind_scalar (nested : Option (Reader State × Trace)) {m : Marker}
    (hm : ∀ c, m ≠ .array c ∧ m ≠ .map c ∧ m ≠ .extension c) :
    Locates DecodeAt (fun start => behindTrace nested start m)
      (fun start => readBehind (nested.map Prod.fst) start m) := by
  cases m with
  | bool b => exact locates_pure _
  | small n => exact (locates_readInt (.small n)).map State.int
  | unsigned width =>
    by_cases hw : width = 8
    · subst hw
      exact (locates_readLong (.unsigned 8)).map State.long
    · simp only [readBehind]
      exact (locates_readInt (.unsigned width)).map State.int
  | signed width =>
    by_cases hw : width = 8
    · subst hw
      exact (locates_readLong (.signed 8)).map State.long
    · simp only [readBehind]
      exact (locates_readInt (.signed width)).map State.int
  | float => exact (locates_readFloat .float).map State.float
  | double => exact locates_readDouble.map State.double
  | text length => exact (locates_readText length).map State.string
  | array c => exact absurd rfl (hm c).1
  | map c => exact absurd rfl (hm c).2.1
  | extension c => exact absurd rfl (hm c).2.2
  | _ => exact locates_failAt _

/-- A reader behind a marker knows where it stands if the reader of the values inside lists and
objects does. -/
theorem locates_readBehind (nested : Option (Reader State × Trace))
    (h : ∀ value t, nested = some (value, t) → Locates FoundAt (fun _ => t) (fun _ => value))
    (m : Marker) :
    Locates FoundAt (fun start => behindTrace nested start m)
      (fun start => readBehind (nested.map Prod.fst) start m) := by
  have hcount := fun c => (locates_readCount c).mono foundAt_of_decodeAt
  cases m with
  | array c =>
    rcases nested with _ | ⟨value, t⟩
    · exact (locates_failAt .tooDeep).mono foundAt_of_decodeAt
    · exact (hcount c).bind
        (g := fun _ n i => readMany value #[] n i >>= fun r => .ok (State.list r.1.toList, r.2))
        fun n => (locates_readMany (h value t rfl) #[] n).map fun xs => State.list xs.toList
  | map c =>
    rcases nested with _ | ⟨value, t⟩
    · exact (locates_failAt .tooDeep).mono foundAt_of_decodeAt
    · exact (hcount c).bind
        (g := fun _ n i => readMany (readField value) #[] n i >>= fun r =>
          .ok (State.object (Fields.ofPairs r.1.toList), r.2))
        fun n => (locates_readMany (locates_readField (h value t rfl) foundAt_of_decodeAt) #[] n).map
          fun fs => State.object (Fields.ofPairs fs.toList)
  | extension c => exact (locates_readExtension c).map State.composite
  | _ => exact (locates_readBehind_scalar nested (by simp)).mono foundAt_of_decodeAt

theorem locates_readValue (levels : Nat) :
    Locates FoundAt (fun _ => valueTrace levels) (fun _ => readValue levels) := by
  induction levels with
  | zero =>
    exact locates_marked (f := readBehind none) foundAt_of_decodeAt
      (locates_readBehind none nofun)
  | succ levels ih =>
    refine locates_marked (f := readBehind (some (readValue levels))) foundAt_of_decodeAt
      (locates_readBehind (some (readValue levels, valueTrace levels)) ?_)
    rintro value t ⟨⟩
    exact ih

/-- The reader of values fails at a place by which it came. -/
theorem exists_place_of_readValue {levels : Nat} {i : Input} {e : Error}
    (h : readValue levels i = .error e) : ∃ p, valueTrace levels i p ∧ FoundAt e p.offset := by
  obtain ⟨offset, hfound, rfl | ⟨p, hp, rfl⟩⟩ := (locates_readValue levels).failed i.offset i e h
  · refine ⟨i, ?_, hfound⟩
    cases levels <;> exact .inl (.inl rfl)
  · exact ⟨p, hp, hfound⟩

end SaveTree.Wire
