/-
  What a reader accepts.

  `Accepts read P`: the reader succeeds with `x` exactly on inputs that start with a block that
  `P` describes as `x`, and stops behind that block. Readers put together from others accept
  the blocks put together, so each reader of the codec gets one lemma here and its body is not
  opened again.
-/
import SaveTree.Wire.Read
import SaveTree.Proofs.Text.Utf8
import SaveTree.Proofs.Wire.Lead

namespace SaveTree.Wire

variable {α β γ : Type}

/-- Reading from `i` to `j` uses up the block. -/
def Uses (i : Input) (block : Bytes) (j : Input) : Prop :=
  i.rest = block ++ j.rest ∧ j.offset = i.offset + block.length

theorem uses_nil_iff {i j : Input} : Uses i [] j ↔ j = i := by
  refine ⟨fun h => ?_, fun h => ?_⟩
  · obtain ⟨hr, ho⟩ := h
    cases i; cases j
    simp_all
  · obtain rfl := h
    exact ⟨rfl, rfl⟩

theorem uses_append_iff {i k : Input} {b c : Bytes} :
    Uses i (b ++ c) k ↔ ∃ j, Uses i b j ∧ Uses j c k := by
  refine ⟨fun h => ?_, fun h => ?_⟩
  · obtain ⟨hr, ho⟩ := h
    refine ⟨⟨i.offset + b.length, c ++ k.rest⟩, ⟨by rw [hr, List.append_assoc], rfl⟩, rfl, ?_⟩
    rw [ho, List.length_append, Nat.add_assoc]
  · obtain ⟨j, ⟨hr, ho⟩, hr', ho'⟩ := h
    exact ⟨by rw [hr, hr', List.append_assoc],
      by rw [ho', ho, List.length_append, Nat.add_assoc]⟩

/-- The reader succeeds exactly on the blocks that `P` describes. -/
def Accepts (read : Reader α) (P : Bytes → α → Prop) : Prop :=
  ∀ i x j, read i = .ok (x, j) ↔ ∃ block, P block x ∧ Uses i block j

theorem Accepts.congr {read : Reader α} {P Q : Bytes → α → Prop} (h : Accepts read P)
    (hPQ : ∀ block x, P block x ↔ Q block x) : Accepts read Q := by
  intro i x j
  simp only [h i x j, hPQ]

/-- What stands behind an accepted block is left as it is. -/
theorem Accepts.read_append {read : Reader α} {P : Bytes → α → Prop} {block : Bytes} {x : α}
    (h : Accepts read P) (hx : P block x) (offset : Nat) (rest : Bytes) :
    read ⟨offset, block ++ rest⟩ = .ok (x, ⟨offset + block.length, rest⟩) :=
  (h _ _ _).2 ⟨block, hx, rfl, rfl⟩

/-! ## Readers put together -/

/-- A block of `P` followed by a block of what `Q` makes of its value. -/
def Then (P : Bytes → α → Prop) (Q : α → Bytes → β → Prop) (block : Bytes) (y : β) : Prop :=
  ∃ x b c, P b x ∧ Q x c y ∧ block = b ++ c

theorem accepts_pure (x : α) : Accepts (fun i => .ok (x, i)) (fun b y => b = [] ∧ y = x) := by
  intro i y j
  refine ⟨fun h => ?_, fun hx => ?_⟩
  · cases h
    exact ⟨[], ⟨rfl, rfl⟩, uses_nil_iff.2 rfl⟩
  · obtain ⟨block, ⟨rfl, rfl⟩, hu⟩ := hx
    rw [uses_nil_iff.1 hu]

theorem accepts_error {read : Reader α} (h : ∀ i, ∃ e, read i = .error e) :
    Accepts read (fun _ _ => False) := by
  intro i x j
  obtain ⟨e, he⟩ := h i
  rw [he]
  refine ⟨fun h => ?_, fun hx => ?_⟩
  · cases h
  · obtain ⟨_, hf, _⟩ := hx
    exact hf.elim

/-- One reader after the other; the second may look at where the first started. -/
theorem Accepts.bind {f : Reader α} {g : Input → α → Reader β} {P : Bytes → α → Prop}
    {Q : α → Bytes → β → Prop} (hf : Accepts f P) (hg : ∀ i x, Accepts (g i x) (Q x)) :
    Accepts (fun i => f i >>= fun (x, j) => g i x j) (Then P Q) := by
  intro i y k
  dsimp only
  refine ⟨fun h => ?_, fun hx => ?_⟩
  · cases hi : f i with
    | error e => rw [hi] at h; cases h
    | ok r =>
      obtain ⟨x, j⟩ := r
      rw [hi] at h
      obtain ⟨b, hb, hib⟩ := (hf i x j).1 hi
      obtain ⟨c, hc, hjc⟩ := (hg i x j y k).1 h
      exact ⟨b ++ c, ⟨x, b, c, hb, hc, rfl⟩, uses_append_iff.2 ⟨j, hib, hjc⟩⟩
  · obtain ⟨_, ⟨x, b, c, hb, hc, rfl⟩, hu⟩ := hx
    obtain ⟨j, hib, hjc⟩ := uses_append_iff.1 hu
    rw [(hf i x j).2 ⟨b, hb, hib⟩]
    exact (hg i x j y k).2 ⟨c, hc, hjc⟩

/-- A reader whose value is changed. -/
theorem Accepts.map {f : Reader α} {P : Bytes → α → Prop} (hf : Accepts f P) (g : α → β) :
    Accepts (fun i => f i >>= fun (x, j) => .ok (g x, j)) (fun b y => ∃ x, P b x ∧ y = g x) := by
  apply (hf.bind fun _ x => accepts_pure (g x)).congr
  intro block y
  refine ⟨fun h => ?_, fun h => ?_⟩
  · obtain ⟨x, b, _, hb, ⟨rfl, rfl⟩, rfl⟩ := h
    exact ⟨x, by rwa [List.append_nil], rfl⟩
  · obtain ⟨x, hb, rfl⟩ := h
    exact ⟨x, block, [], hb, ⟨rfl, rfl⟩, (List.append_nil _).symm⟩

/-- A reader whose value must pass a test. -/
theorem Accepts.filter {f : Reader α} {P : Bytes → α → Prop} (hf : Accepts f P) (p : α → Prop)
    [DecidablePred p] (fault : Error) :
    Accepts (fun i => f i >>= fun (x, j) => if p x then .ok (x, j) else .error fault)
      (fun b x => P b x ∧ p x) := by
  have hg : ∀ x, Accepts (fun i => if p x then .ok (x, i) else .error fault)
      (fun b y => p x ∧ b = [] ∧ y = x) := by
    intro x
    by_cases hp : p x
    · simpa [hp] using accepts_pure x
    · simpa [hp] using accepts_error fun _ => ⟨fault, rfl⟩
  apply (hf.bind fun _ x => hg x).congr
  intro block y
  refine ⟨fun h => ?_, fun h => ?_⟩
  · obtain ⟨x, b, _, hb, ⟨hp, rfl, rfl⟩, rfl⟩ := h
    exact ⟨by rwa [List.append_nil], hp⟩
  · obtain ⟨hb, hp⟩ := h
    exact ⟨y, block, [], hb, ⟨hp, rfl, rfl⟩, (List.append_nil _).symm⟩

/-! ## Blocks of known length -/

theorem take?_eq_some_iff {i j : Input} {n : Nat} {bytes : Bytes} :
    i.take? n = some (bytes, j) ↔ bytes.length = n ∧ Uses i bytes j := by
  unfold Input.take? Input.drop
  dsimp only
  refine ⟨fun h => ?_, fun hx => ?_⟩
  · split at h
    · next hn =>
      cases h
      exact ⟨hn, (List.take_append_drop n i.rest).symm, by rw [hn]⟩
    · cases h
  · obtain ⟨rfl, hr, ho⟩ := hx
    obtain ⟨o, rest⟩ := j
    cases ho
    simp [hr]

theorem accepts_readNumber (start width : Nat) :
    Accepts (readNumber start width) fun b n => n < 256 ^ width ∧ b = bigEndian width n := by
  intro i n j
  unfold readNumber
  refine ⟨fun h => ?_, fun hx => ?_⟩
  · split at h
    · next bytes k hk =>
      cases h
      obtain ⟨hl, hu⟩ := take?_eq_some_iff.1 hk
      exact ⟨bytes, length_eq_iff_bigEndian.1 ⟨hl, rfl⟩, hu⟩
    · cases h
  · obtain ⟨b, hb, hu⟩ := hx
    obtain ⟨hl, hn⟩ := length_eq_iff_bigEndian.2 hb
    rw [take?_eq_some_iff.2 ⟨hl, hu⟩]
    dsimp only
    rw [hn]

theorem accepts_readCount (start : Nat) (c : Count) : Accepts (readCount start c) c.Holds := by
  cases c with
  | inline n => exact accepts_pure n
  | field width => exact accepts_readNumber start width

theorem accepts_readBlock (block : Block) (n : Nat) :
    Accepts (readBlock block n) fun b x => b.length = n ∧ x = b := by
  intro i x j
  unfold readBlock
  refine ⟨fun h => ?_, fun hx => ?_⟩
  · split at h
    · next r hr =>
      cases h
      obtain ⟨hl, hu⟩ := take?_eq_some_iff.1 hr
      exact ⟨x, ⟨hl, rfl⟩, hu⟩
    · cases h
  · obtain ⟨b, ⟨hl, rfl⟩, hu⟩ := hx
    rw [take?_eq_some_iff.2 ⟨hl, hu⟩]

theorem accepts_readMarker (missing : DecodeFault) :
    Accepts (readMarker missing) fun b m => ∃ lead, b = [lead] ∧ m = Marker.ofByte lead := by
  intro i m j
  unfold readMarker
  refine ⟨fun h => ?_, fun hx => ?_⟩
  · split at h
    · cases h
    · next b rest hr =>
      cases h
      exact ⟨[b], ⟨b, rfl, rfl⟩, hr, rfl⟩
  · obtain ⟨_, ⟨lead, rfl, rfl⟩, hr, ho⟩ := hx
    obtain ⟨o, rest⟩ := j
    cases ho
    rw [hr]
    rfl

/-- A reader that looks at a marker first. -/
theorem accepts_marked {f : Input → Marker → Reader α} {Q : Marker → Bytes → α → Prop}
    (missing : DecodeFault) (hf : ∀ i m, Accepts (f i m) (Q m)) :
    Accepts (fun i => readMarker missing i >>= fun (m, j) => f i m j)
      fun b x => ∃ lead tail, Q (Marker.ofByte lead) tail x ∧ b = lead :: tail := by
  apply ((accepts_readMarker missing).bind hf).congr
  intro block x
  refine ⟨fun h => ?_, fun h => ?_⟩
  · obtain ⟨_, _, c, ⟨lead, rfl, rfl⟩, hc, rfl⟩ := h
    exact ⟨lead, c, hc, rfl⟩
  · obtain ⟨lead, tail, hq, rfl⟩ := h
    exact ⟨_, [lead], tail, ⟨lead, rfl, rfl⟩, hq, rfl⟩

end SaveTree.Wire
