/-
  Documents read as trees.

  How reading a document ends is decided by its gaps: it succeeds if there is none and otherwise
  fails at the first (`endsBy_ofJson`). What is read holds what the document holds, each integer
  in 32 bits if it fits, and is written back as the document it came from (`toJson_ofJson`).
-/
import SaveTree.Fields.Lemmas
import SaveTree.Proofs.Json.Document
import SaveTree.Proofs.State.Tree
import SaveTree.State.Json

namespace SaveTree.State

/-! ## One reading after the other -/

theorem ofJson_array (js : List Json) :
    ofJson (.array js) = itemsOfJson js >>= fun xs => .ok (list xs) := by
  rw [ofJson]
  cases itemsOfJson js <;> rfl

theorem ofJson_object (ms : List (String × Json)) :
    ofJson (.object ms) = fieldsOfJson ms >>= fun fs => .ok (object (Fields.ofPairs fs)) := by
  rw [ofJson]
  cases fieldsOfJson ms <;> rfl

theorem itemsOfJson_cons (j : Json) (js : List Json) : itemsOfJson (j :: js) =
    ofJson j >>= fun x => itemsOfJson js >>= fun xs => .ok (x :: xs) := by
  rw [itemsOfJson]
  cases ofJson j with
  | error e => rfl
  | ok x => cases itemsOfJson js <;> rfl

theorem fieldsOfJson_cons (m : String × Json) (ms : List (String × Json)) : fieldsOfJson (m :: ms) =
    ofJson m.2 >>= fun x => fieldsOfJson ms >>= fun fs => .ok ((m.1, x) :: fs) := by
  rw [fieldsOfJson]
  cases ofJson m.2 with
  | error e => rfl
  | ok x => cases fieldsOfJson ms <;> rfl

theorem itemsOfJson_eq_ok_iff {js : List Json} {xs : List State} :
    itemsOfJson js = .ok xs ↔ js.map ofJson = xs.map .ok := by
  induction js generalizing xs with
  | nil =>
    rw [itemsOfJson, Except.ok.injEq, List.map_nil, eq_comm, @eq_comm _ [], List.map_eq_nil_iff]
  | cons j js ih =>
    refine ⟨fun h => ?_, fun h => ?_⟩
    · rw [itemsOfJson] at h
      split at h
      · cases h
      next x hx =>
      split at h
      · cases h
      next ys hys =>
      cases h
      rw [List.map_cons, List.map_cons, hx, ih.1 hys]
    · cases xs with
      | nil => cases h
      | cons x xs =>
        rw [List.map_cons, List.map_cons, List.cons.injEq] at h
        obtain ⟨hx, hxs⟩ := h
        rw [itemsOfJson_cons, hx, ih.2 hxs]
        rfl

theorem fieldsOfJson_eq_ok_iff {ms : List (String × Json)} {fs : List (String × State)} :
    fieldsOfJson ms = .ok fs ↔
      ms.map (fun m => (m.1, ofJson m.2)) = fs.map fun f => (f.1, .ok f.2) := by
  induction ms generalizing fs with
  | nil =>
    rw [fieldsOfJson, Except.ok.injEq, List.map_nil, eq_comm, @eq_comm _ [], List.map_eq_nil_iff]
  | cons m ms ih =>
    refine ⟨fun h => ?_, fun h => ?_⟩
    · rw [fieldsOfJson] at h
      split at h
      · cases h
      next x hx =>
      split at h
      · cases h
      next gs hgs =>
      cases h
      rw [List.map_cons, List.map_cons, hx, ih.1 hgs]
    · cases fs with
      | nil => cases h
      | cons f fs =>
        rw [List.map_cons, List.map_cons, List.cons.injEq, Prod.mk.injEq] at h
        obtain ⟨⟨hname, hx⟩, hfs⟩ := h
        rw [fieldsOfJson_cons, hname, hx, ih.2 hfs]
        rfl

section Ending

variable {α β : Type} {gaps more : List JsonGap}

/-- Reading succeeds if there is no gap, and otherwise fails at the first. -/
def EndsBy (gaps : List JsonGap) (r : Except Error α) : Prop :=
  match gaps with
  | [] => ∃ x, r = .ok x
  | gap :: _ => r = .error (.unsupportedJson gap)

theorem EndsBy.bind {r : Except Error α} {next : α → Except Error β} (h : EndsBy gaps r)
    (hnext : ∀ x, EndsBy more (next x)) : EndsBy (gaps ++ more) (r >>= next) := by
  cases gaps with
  | nil =>
    obtain ⟨x, rfl⟩ := h
    exact hnext x
  | cons gap rest =>
    obtain rfl : r = .error (.unsupportedJson gap) := h
    rfl

theorem EndsBy.map {r : Except Error α} (h : EndsBy gaps r) (make : α → β) :
    EndsBy gaps (r >>= fun x => .ok (make x)) := by
  have hmade : ∀ x, EndsBy [] (.ok (make x) : Except Error β) := fun x => ⟨make x, rfl⟩
  have hbind := h.bind hmade
  rwa [List.append_nil] at hbind

end Ending

theorem endsBy_ofNumber {x : JsonNumber} (hx : x.Sound) :
    EndsBy (Json.number x).gaps (ofNumber x) := by
  cases x with
  | float x => exact ⟨_, rfl⟩
  | integer n =>
    obtain ⟨hlow, -⟩ := hx
    rw [Json.gaps, ofNumber]
    split
    · next hn =>
      split
      · exact ⟨_, rfl⟩
      · rw [if_pos ⟨hlow, by omega⟩]
        exact ⟨_, rfl⟩
    · next hn =>
      rw [if_neg (by omega), if_neg (by omega)]
      exact rfl

theorem endsBy_itemsOfJson {js : List Json} (h : ∀ j ∈ js, EndsBy j.gaps (ofJson j)) :
    EndsBy (Json.itemGaps js) (itemsOfJson js) := by
  induction js with
  | nil => exact ⟨[], rfl⟩
  | cons j js ih =>
    obtain ⟨hj, hjs⟩ := List.forall_mem_cons.1 h
    rw [Json.itemGaps, itemsOfJson_cons]
    exact hj.bind fun x => (ih hjs).map fun xs => x :: xs

theorem endsBy_fieldsOfJson {ms : List (String × Json)}
    (h : ∀ m ∈ ms, EndsBy m.2.gaps (ofJson m.2)) :
    EndsBy (Json.memberGaps ms) (fieldsOfJson ms) := by
  induction ms with
  | nil => exact ⟨[], rfl⟩
  | cons m ms ih =>
    obtain ⟨hm, hms⟩ := List.forall_mem_cons.1 h
    rw [Json.memberGaps, fieldsOfJson_cons]
    exact hm.bind fun x => (ih hms).map fun fs => (m.1, x) :: fs

/-- The gaps of a document decide how reading it ends. -/
theorem endsBy_ofJson {j : Json} (hj : j.Sound) : EndsBy j.gaps (ofJson j) := by
  induction hj with
  | null => exact rfl
  | bool b => exact ⟨_, rfl⟩
  | number hx => exact endsBy_ofNumber hx
  | string s => exact ⟨_, rfl⟩
  | array _ ih =>
    rw [ofJson_array]
    exact (endsBy_itemsOfJson ih).map list
  | object _ _ ih =>
    rw [ofJson_object]
    exact (endsBy_fieldsOfJson ih).map fun fs => object (Fields.ofPairs fs)

/-! ## What is read -/

/-- A node that a document gives: no float of 32 bits and no composite, and an integer is an int
exactly if it fits 32 bits. -/
def FromJson : State → Prop
  | float _ | composite _ => False
  | int n => -2 ^ 31 ≤ n.toInt ∧ n.toInt < 2 ^ 31
  | long n => ¬ (-2 ^ 31 ≤ n.toInt ∧ n.toInt < 2 ^ 31)
  | bool _ | double _ | string _ | list _ | object _ => True

/-- The tree is one that documents give, and its document is `j`. -/
def Shows (j : Json) (s : State) : Prop := s.toJson = j ∧ s.Every FromJson

theorem shows_ofNumber {x : JsonNumber} {s : State} (hx : x.Sound) (h : ofNumber x = .ok s) :
    Shows (.number x) s := by
  cases x with
  | float x =>
    cases h
    have hfinite : x.isFinite = true := hx
    refine ⟨?_, (every_leaf_iff rfl).2 trivial⟩
    rw [toJson, Json.ofDouble, if_pos hfinite]
  | integer n =>
    rw [ofNumber] at h
    split at h
    · next hn =>
      cases h
      have hto := Int32.toInt_ofInt_of_le hn.1 hn.2
      refine ⟨by rw [toJson, hto], (every_leaf_iff rfl).2 ?_⟩
      rw [FromJson, hto]
      exact hn
    · next hn =>
      split at h
      · next hn' =>
        cases h
        have hto := Int64.toInt_ofInt_of_le hn'.1 hn'.2
        refine ⟨by rw [toJson, hto], (every_leaf_iff rfl).2 ?_⟩
        rw [FromJson, hto]
        exact hn
      · cases h

theorem shows_itemsOfJson {js : List Json} {xs : List State}
    (hjs : ∀ j ∈ js, ∀ s, ofJson j = .ok s → Shows j s) (h : itemsOfJson js = .ok xs) :
    Shows (.array js) (list xs) := by
  induction js generalizing xs with
  | nil =>
    cases h
    exact ⟨rfl, every_list_iff.2 ⟨trivial, nofun⟩⟩
  | cons j js ih =>
    obtain ⟨hj, hjs⟩ := List.forall_mem_cons.1 hjs
    rw [itemsOfJson] at h
    split at h
    · cases h
    next x hx =>
    split at h
    · cases h
    next ys hys =>
    cases h
    obtain ⟨hdocument, hfrom⟩ := hj x hx
    obtain ⟨hdocuments, hall⟩ := ih hjs hys
    refine ⟨?_, every_list_iff.2 ⟨trivial, List.forall_mem_cons.2 ⟨hfrom, ?_⟩⟩⟩
    · rw [toJson, itemsToJson, hdocument, Json.array.inj hdocuments]
    · exact (every_list_iff.1 hall).2

theorem keys_fieldsOfJson {ms : List (String × Json)} {fs : List (String × State)}
    (h : fieldsOfJson ms = .ok fs) : Fields.keys fs = Fields.keys ms := by
  have hkeys := congrArg (List.map Prod.fst) (fieldsOfJson_eq_ok_iff.1 h)
  rw [List.map_map, List.map_map] at hkeys
  exact hkeys.symm

theorem shows_fieldsOfJson {ms : List (String × Json)} {fs : List (String × State)}
    (hms : ∀ m ∈ ms, ∀ s, ofJson m.2 = .ok s → Shows m.2 s) (h : fieldsOfJson ms = .ok fs) :
    Shows (.object ms) (object fs) := by
  induction ms generalizing fs with
  | nil =>
    cases h
    exact ⟨rfl, every_object_iff.2 ⟨trivial, nofun⟩⟩
  | cons m ms ih =>
    obtain ⟨hm, hms⟩ := List.forall_mem_cons.1 hms
    rw [fieldsOfJson] at h
    split at h
    · cases h
    next x hx =>
    split at h
    · cases h
    next gs hgs =>
    cases h
    obtain ⟨hdocument, hfrom⟩ := hm x hx
    obtain ⟨hdocuments, hall⟩ := ih hms hgs
    refine ⟨?_, every_object_iff.2 ⟨trivial, List.forall_mem_cons.2 ⟨hfrom, ?_⟩⟩⟩
    · rw [toJson, fieldsToJson, hdocument, Json.object.inj hdocuments]
    · exact (every_object_iff.1 hall).2

theorem shows_ofJson {j : Json} {s : State} (hj : j.Sound) (h : ofJson j = .ok s) :
    Shows j s := by
  induction hj generalizing s with
  | null => cases h
  | bool b =>
    cases h
    exact ⟨rfl, (every_leaf_iff rfl).2 trivial⟩
  | number hx => exact shows_ofNumber hx h
  | string t =>
    cases h
    exact ⟨rfl, (every_leaf_iff rfl).2 trivial⟩
  | array _ ih =>
    rw [ofJson] at h
    split at h <;> cases h
    next xs hxs => exact shows_itemsOfJson (fun j hj s hs => ih j hj hs) hxs
  | object hn _ ih =>
    rw [ofJson] at h
    split at h <;> cases h
    next fs hfs =>
    rw [Fields.ofPairs_of_nodup (keys_fieldsOfJson hfs ▸ hn)]
    exact shows_fieldsOfJson (fun m hm s hs => ih m hm hs) hfs

/-- A document can be read as a tree exactly if it has no gap, and fails at the first; what is
read has no float of 32 bits and no composite, holds an integer in 32 bits exactly if it fits,
and is written back as the document it came from. -/
theorem toJson_ofJson {j : Json} (hj : j.Sound) :
    ((∃ s, ofJson j = .ok s) ↔ j.gaps = []) ∧
    (∀ gap rest, j.gaps = gap :: rest → ofJson j = .error (.unsupportedJson gap)) ∧
    ∀ s, ofJson j = .ok s → s.toJson = j ∧ s.Every FromJson := by
  have hends := endsBy_ofJson hj
  refine ⟨⟨fun ⟨s, hs⟩ => ?_, fun h => ?_⟩, fun gap rest h => ?_, fun s hs => shows_ofJson hj hs⟩
  · cases hgaps : j.gaps with
    | nil => rfl
    | cons gap rest =>
      rw [hgaps] at hends
      rw [show ofJson j = _ from hends] at hs
      cases hs
  · rw [h] at hends
    exact hends
  · rw [h] at hends
    exact hends

/-! ## Writing a tree -/

/-- A document with integers on both sides of the limit of 32 bits, a negative zero and an empty
object. -/
def boundaryDocument : Json :=
  .object [
    ("é", .array [.number (.integer (-2147483648)), .number (.integer 2147483648),
      .number (.float ⟨0x8000000000000000#64⟩)]),
    ("", .object [])]

/-- A document whose first gap stands below an array. -/
def gappyDocument : Json :=
  .object [("n", .array [.bool true, .number (.integer 9223372036854775808)]), ("m", .null)]

theorem toJson_ofJson_boundaryDocument :
    boundaryDocument.Sound ∧ gappyDocument.Sound ∧
      (∃ s, ofJson boundaryDocument = .ok s ∧ s.toJson = boundaryDocument ∧ s.Every FromJson) ∧
      ofJson gappyDocument = .error (.unsupportedJson (.integer 9223372036854775808)) := by
  have hboundary : boundaryDocument.Sound := by
    refine .object (by decide) (List.forall_mem_cons.2 ⟨.array ?_, List.forall_mem_cons.2
      ⟨.object (by decide) nofun, nofun⟩⟩)
    refine List.forall_mem_cons.2 ⟨.number ⟨by decide, by decide⟩, List.forall_mem_cons.2
      ⟨.number ⟨by decide, by decide⟩, List.forall_mem_cons.2 ⟨.number ?_, nofun⟩⟩⟩
    exact (by decide +kernel : Binary.isFinite (⟨0x8000000000000000#64⟩ : Binary64) = true)
  have hgappy : gappyDocument.Sound := by
    refine .object (by decide) (List.forall_mem_cons.2 ⟨.array ?_, List.forall_mem_cons.2
      ⟨.null, nofun⟩⟩)
    exact List.forall_mem_cons.2 ⟨.bool true, List.forall_mem_cons.2
      ⟨.number ⟨by decide, by decide⟩, nofun⟩⟩
  obtain ⟨hiff, -, hback⟩ := toJson_ofJson hboundary
  obtain ⟨s, hs⟩ := hiff.2 rfl
  obtain ⟨-, hfail, -⟩ := toJson_ofJson hgappy
  exact ⟨hboundary, hgappy, ⟨s, hs, hback s hs⟩, hfail _ [.null] rfl⟩

end SaveTree.State
