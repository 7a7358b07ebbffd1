/-
  Objects built from pairs.

  An object is built from pairs of a name and a value by collecting them, by setting one after the
  other, by reading them from bytes or by reading them from JSON text. A name may be repeated; in
  each case it stands at its first place with its last value. The readers take all pairs before
  they build the object. That a loop which sets each pair as soon as it is read does the same is
  proved for the wire (`readSetting_eq`) and for documents (`ofJson_object_eq_setting`).
-/
import SaveTree.Proofs.Json.Spelling
import SaveTree.Proofs.State.Edits
import SaveTree.Proofs.State.FromJson
import SaveTree.Proofs.Wire.RoundTrip

namespace SaveTree

/-! ## Setting each pair as soon as it is read -/

namespace Wire

/-- Reads `count` fields and sets each of them as soon as it is read. -/
def readSetting {α : Type} (one : Reader (String × α)) (fs : Fields α) : Nat → Reader (Fields α)
  | 0, i => .ok (fs, i)
  | count + 1, i =>
    match one i with
    | .ok ((name, x), i) => readSetting one (fs.set name x) count i
    | .error e => .error e

theorem readSetting_eq {α : Type} (one : Reader (String × α)) (out : Array (String × α))
    (count : Nat) (i : Input) :
    readSetting one (Fields.ofPairs out.toList) count i =
      readMany one out count i >>= fun (ms, j) => .ok (Fields.ofPairs ms.toList, j) := by
  induction count generalizing out i with
  | zero => rfl
  | succ count ih =>
    rw [readSetting, readMany]
    cases one i with
    | error e => rfl
    | ok r =>
      obtain ⟨⟨name, x⟩, j⟩ := r
      dsimp only
      rw [← ih, Array.toList_push, Fields.ofPairs_append]

end Wire

namespace State

/-- The fields of the members of an object, behind those of `fs`, each set as soon as its value is
known. -/
def settingOfJson (fs : Fields State) : List (String × Json) → Except Error (Fields State)
  | [] => .ok fs
  | m :: ms => ofJson m.2 >>= fun x => settingOfJson (fs.set m.1 x) ms

theorem settingOfJson_eq (ms : List (String × Json)) (done : List (String × State)) :
    settingOfJson (Fields.ofPairs done) ms =
      fieldsOfJson ms >>= fun fs => .ok (Fields.ofPairs (done ++ fs)) := by
  induction ms generalizing done with
  | nil =>
    rw [settingOfJson, fieldsOfJson]
    show Except.ok (Fields.ofPairs done) = Except.ok (Fields.ofPairs (done ++ []))
    rw [List.append_nil]
  | cons m ms ih =>
    rw [settingOfJson, fieldsOfJson_cons]
    cases ofJson m.2 with
    | error e => rfl
    | ok x =>
      show settingOfJson (Fields.set (Fields.ofPairs done) m.1 x) ms = _
      rw [← Fields.ofPairs_append, ih]
      cases fieldsOfJson ms with
      | error e => rfl
      | ok fs =>
        show Except.ok _ = Except.ok _
        rw [List.append_assoc, List.singleton_append]

theorem ofJson_object_eq_setting (ms : List (String × Json)) :
    ofJson (.object ms) = settingOfJson [] ms >>= fun fs => .ok (object fs) := by
  have hloop := settingOfJson_eq ms []
  rw [ofJson_object, show settingOfJson [] ms = _ from hloop]
  cases fieldsOfJson ms <;> rfl

/-! ## From JSON text -/

theorem fieldsOfJson_ofPairs {ms : List (String × Json)} {pairs : List (String × State)}
    (h : fieldsOfJson ms = .ok pairs) :
    fieldsOfJson (Fields.ofPairs ms) = .ok (Fields.ofPairs pairs) := by
  rw [fieldsOfJson_eq_ok_iff] at h ⊢
  have hms := Fields.map_ofPairs ofJson ms
  have hpairs := Fields.map_ofPairs (Except.ok : State → Except Error State) pairs
  exact hms.trans ((congrArg Fields.ofPairs h).trans hpairs.symm)

/-- The text of an object is read as the object of the values of its members. -/
theorem ofJsonText_objectChars {ms : List (String × Json)} {pairs : List (String × State)}
    {texts : List (List Char)} {before gap after : List Char}
    (hpairs : fieldsOfJson ms = .ok pairs)
    (htexts : List.Forall₂ (Json.SpellsMember (Json.maxNesting - 1)) texts ms)
    (hbefore : Json.Blank before) (hgap : Json.Blank gap) (hafter : Json.Blank after) :
    ofJsonText (String.ofList (before ++ (Json.objectChars texts gap ++ after))) =
      .ok (object (Fields.ofPairs pairs)) := by
  have hspells := Json.spells_object htexts hbefore hgap hafter
  rw [← String.toList_ofList (l := before ++ (Json.objectChars texts gap ++ after))] at hspells
  have hparse := Json.spells_maxNesting_iff.1 hspells
  unfold ofJsonText
  rw [hparse]
  show ofJson (.object (Fields.ofPairs ms)) = _
  rw [ofJson_object, fieldsOfJson_ofPairs hpairs]
  show Except.ok (object (Fields.ofPairs (Fields.ofPairs pairs))) = _
  rw [Fields.ofPairs_of_nodup (Fields.nodup_keys_ofPairs pairs)]

end State

/-! ## From bytes -/

namespace Wire

/-- A header with the number of the pairs, then each name and value, is read as the object of the
pairs. -/
theorem decode_of_members {header body : Bytes} {pairs : List (String × State)}
    (hheader : HeaderForm.map.Announces header pairs.length) (hbody : Members 1 body pairs) :
    decode (header ++ body) = .ok (.object (Fields.ofPairs pairs)) := by
  rw [Fields.ofPairs_eq_foldl_set]
  exact decode_of_value (.object (by decide) hheader hbody)

theorem members_flatMap {depth : Nat} {block : State → Bytes} {pairs : List (String × State)}
    (hnames : ∀ p ∈ pairs, (Utf8.encode p.1).length < 2 ^ 32)
    (hvalues : ∀ p ∈ pairs, Value depth (block p.2) p.2) :
    Members depth (pairs.flatMap fun p => textBytes p.1 ++ block p.2) pairs := by
  induction pairs with
  | nil => exact .nil depth
  | cons p pairs ih =>
    obtain ⟨hname, hnames⟩ := List.forall_mem_cons.1 hnames
    obtain ⟨hvalue, hvalues⟩ := List.forall_mem_cons.1 hvalues
    exact .cons (textForm_textBytes hname) hvalue (ih hnames hvalues)

theorem value_of_encode {depth : Nat} {s : State} {bytes : Bytes} (hs : s.Storable)
    (hnesting : s.nesting ≤ maxNesting - depth) (h : encode s = .ok bytes) :
    Value depth bytes s := by
  obtain ⟨⟨-, hfew⟩, rfl⟩ := encode_eq_ok_iff.1 h
  exact value_plainBytes ⟨hnesting, hfew⟩ hs.2 hs.1

end Wire

/-! ## All ways agree -/

open Wire in
/-- Pairs of a name and a value, names repeated or not, build one object in every way there is: in
it each name stands at its first place among the pairs with its last value. The pairs are collected,
or set one after the other on an empty object; or they are decoded from the header of an object
with their number, followed by each name and value encoded; or the values come from JSON documents
and the text of an object with these members, in any layout, is read. Encoded values may nest one
level less than a whole tree, and the texts of members one level less than a whole text. What is
encoded has texts whose lengths their headers can tell. -/
theorem builders_agree (pairs : List (String × State)) :
    let built := Fields.ofPairs pairs
    built.keys = (Fields.keys pairs).eraseDups ∧
    (∀ name, built.get? name = Fields.get? pairs.reverse name) ∧
    Edit.performAll [] (Edit.opening pairs) = built ∧
    (∀ bytes : State → Bytes, pairs.length < 2 ^ 32 →
      (∀ p ∈ pairs, (Utf8.encode p.1).length < 2 ^ 32 ∧ p.2.Storable ∧
        p.2.nesting ≤ Wire.maxNesting - 1 ∧ encode p.2 = .ok (bytes p.2)) →
      decode (mapHeader pairs.length ++ pairs.flatMap fun p => textBytes p.1 ++ bytes p.2) =
        .ok (.object built)) ∧
    ∀ (ms : List (String × Json)) (texts : List (List Char)) (before gap after : List Char),
      (ms.map fun m => (m.1, State.ofJson m.2)) = (pairs.map fun p => (p.1, .ok p.2)) →
      List.Forall₂ (Json.SpellsMember (Json.maxNesting - 1)) texts ms →
      Json.Blank before → Json.Blank gap → Json.Blank after →
      State.ofJsonText (String.ofList (before ++ (Json.objectChars texts gap ++ after))) =
        .ok (.object built) := by
  refine ⟨Fields.keys_ofPairs pairs, Fields.get?_ofPairs pairs, ?_, ?_, ?_⟩
  · rw [Edit.performAll_opening, Fields.ofPairs_eq_foldl_set]
  · intro bytes hcount hvalues
    refine decode_of_members (announces_mapHeader hcount) (members_flatMap ?_ ?_)
    · exact fun p hp => (hvalues p hp).1
    · intro p hp
      obtain ⟨-, hstorable, hnesting, hencode⟩ := hvalues p hp
      exact value_of_encode hstorable hnesting hencode
  · intro ms texts before gap after hms htexts hbefore hgap hafter
    exact State.ofJsonText_objectChars (State.fieldsOfJson_eq_ok_iff.2 hms) htexts hbefore hgap
      hafter

/-- Pairs that name the first of two fields again. -/
def repeatedPairs : List (String × State) :=
  [("a", .int 1), ("b", .list [.bool true]), ("a", .string "x")]

/-- Documents that the values of the pairs come from. -/
def repeatedMembers : List (String × Json) :=
  [("a", .number (.integer 1)), ("b", .array [.bool true]), ("a", .string "x")]

/-- The texts of the members. -/
def repeatedTexts : List (List Char) :=
  repeatedMembers.map (Json.member .compact (Json.chars .compact 0))

open Json in
theorem spells_repeatedTexts :
    List.Forall₂ (SpellsMember (maxNesting - 1)) repeatedTexts repeatedMembers := by
  have hbools : ∀ x ∈ [Json.bool true], x.Exact := List.forall_mem_singleton.2 (.bool true)
  refine .cons ?_ (.cons ?_ (.cons ?_ .nil))
  · exact spellsMember_member (.integer (by decide) (by decide)) (by decide) .compact 0
  · exact spellsMember_member (.array hbools) (by decide) .compact 0
  · exact spellsMember_member (.string "x") (by decide) .compact 0

theorem builders_agree_repeatedPairs :
    decode [0x83, 0xA1, 0x61, 0xD2, 0, 0, 0, 1, 0xA1, 0x62, 0x91, 0xC3, 0xA1, 0x61, 0xA1, 0x78] =
      .ok (.object [("a", .string "x"), ("b", .list [.bool true])]) ∧
    State.ofJsonText "\x7b\"a\":1,\"b\":[true],\"a\":\"x\"\x7d" =
      .ok (.object [("a", .string "x"), ("b", .list [.bool true])]) := by
  have hbuilt : Fields.ofPairs repeatedPairs = [("a", .string "x"), ("b", .list [.bool true])] := by
    rw [Fields.ofPairs_eq_foldl_set]
    rfl
  obtain ⟨-, -, -, hwire, hjson⟩ := builders_agree repeatedPairs
  rw [hbuilt] at hwire hjson
  constructor
  · have hbytes : Wire.mapHeader repeatedPairs.length ++
        (repeatedPairs.flatMap fun p => Wire.textBytes p.1 ++ Wire.plainBytes p.2) =
        [0x83, 0xA1, 0x61, 0xD2, 0, 0, 0, 1, 0xA1, 0x62, 0x91, 0xC3, 0xA1, 0x61, 0xA1, 0x78] := rfl
    have hfits : ∀ p ∈ repeatedPairs, (Utf8.encode p.1).length < 2 ^ 32 ∧ p.2.Storable ∧
        p.2.nesting ≤ Wire.maxNesting - 1 := by decide
    have hencode : ∀ p ∈ repeatedPairs, encode p.2 = .ok (Wire.plainBytes p.2) := by
      unfold repeatedPairs
      simp only [List.forall_mem_cons]
      exact ⟨rfl, rfl, rfl, nofun⟩
    rw [← hbytes]
    refine hwire Wire.plainBytes (by decide) fun p hp => ?_
    obtain ⟨hname, hstorable, hnesting⟩ := hfits p hp
    exact ⟨hname, hstorable, hnesting, hencode p hp⟩
  · have htext : String.ofList ([] ++ (Json.objectChars repeatedTexts [] ++ [])) =
        "\x7b\"a\":1,\"b\":[true],\"a\":\"x\"\x7d" := rfl
    rw [← htext]
    exact hjson repeatedMembers repeatedTexts [] [] [] rfl spells_repeatedTexts nofun nofun nofun

end SaveTree
