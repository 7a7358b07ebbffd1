/-
  Trees without floats through JSON text.

  The numbers of such a tree are printed digit by digit and read back as they were, so its text
  gives back what is left of the tree in a document, unless the document nests deeper than the
  reader goes.
-/
import SaveTree.Proofs.Json.ReadBack
import SaveTree.Proofs.State.Json
import SaveTree.Proofs.State.ThroughJson

namespace SaveTree

/-- The component is an integer. -/
def Component.Whole : Component → Prop
  | float _ => False
  | int _ => True

namespace State

/-- The node is no float, no double and no composite of floats. -/
def Whole : State → Prop
  | float _ | double _ => False
  | composite c => ∀ x ∈ c.components, x.Whole
  | bool _ | int _ | long _ | string _ | list _ | object _ => True

instance : DecidablePred Component.Whole
  | .float _ => isFalse id
  | .int _ => isTrue trivial

instance : DecidablePred Whole
  | float _ | double _ => isFalse id
  | composite c => inferInstanceAs (Decidable (∀ x ∈ c.components, x.Whole))
  | bool _ | int _ | long _ | string _ | list _ | object _ => isTrue trivial

/-! ## The document -/

theorem Whole.finite {s : State} (h : s.Whole) : s.Finite := by
  cases s with
  | float x => exact h.elim
  | double x => exact h.elim
  | composite c =>
    intro x hx
    have hwhole := h x hx
    cases x with
    | float x => exact hwhole.elim
    | int n => exact trivial
  | _ => exact trivial

theorem exact_int (n : Int32) : (Json.number (.integer n.toInt)).Exact := by
  have hlow := n.le_toInt
  have hhigh := n.toInt_lt
  exact .integer (by omega) (by omega)

theorem exact_long (n : Int64) : (Json.number (.integer n.toInt)).Exact := by
  have hlow := n.le_toInt
  have hhigh := n.toInt_lt
  exact .integer (by omega) (by omega)

theorem exact_componentToJson {x : Component} (h : x.Whole) : x.toJson.Exact := by
  cases x with
  | float x => exact h.elim
  | int n => exact exact_int n

/-- The document of a tree without floats is one that a reader keeps. -/
theorem exact_toJson {s : State} (hn : s.Every DistinctNames) (hs : s.Every Whole) :
    s.toJson.Exact := by
  induction s with
  | bool b => exact .bool b
  | int n => exact exact_int n
  | long n => exact exact_long n
  | float x => exact ((every_leaf_iff rfl).1 hs).elim
  | double x => exact ((every_leaf_iff rfl).1 hs).elim
  | string t => exact .string t
  | list xs ih =>
    obtain ⟨-, hn⟩ := every_list_iff.1 hn
    obtain ⟨-, hs⟩ := every_list_iff.1 hs
    rw [toJson, itemsToJson_eq_map]
    exact .array (List.forall_mem_map.2 fun x hx => ih x hx (hn x hx) (hs x hx))
  | object fs ih =>
    obtain ⟨hnames, hn⟩ := every_object_iff.1 hn
    obtain ⟨-, hs⟩ := every_object_iff.1 hs
    rw [toJson, fieldsToJson_eq_map]
    refine .object ?_ (List.forall_mem_map.2 fun f hf => ih f hf (hn f hf) (hs f hf))
    rw [keys_map_values]
    exact hnames
  | composite c =>
    have hc : ∀ x ∈ c.components, x.Whole := (every_leaf_iff rfl).1 hs
    have hfields := forall_mem_fields_iff.2 hc
    rw [toJson]
    refine .object ?_ (List.forall_mem_map.2 fun f hf => exact_componentToJson (hfields f hf))
    exact (keys_map_values c.fields Component.toJson).symm ▸ nodup_keys_fields c

/-! ## What is left of the tree -/

theorem fewEntries_map_fields (c : Composite) :
    (object (c.fields.map fun f => (f.1, f.2.throughJson))).FewEntries := by
  cases c <;> simp [FewEntries, Composite.fields, Composite.names, Composite.components]

theorem every_throughJson_component {p : State → Prop} (hp : ∀ s : State, s.entries = [] → p s)
    (x : Component) : x.throughJson.Every p := by
  cases x with
  | float x => exact (every_leaf_iff rfl).2 (hp _ rfl)
  | int n => exact (every_leaf_iff rfl).2 (hp _ rfl)

/-- What is left of a tree has as many entries in each list and object, and at most four in what
was a composite. -/
theorem every_fewEntries_throughJson {s : State} (hs : s.Every FewEntries) :
    s.throughJson.Every FewEntries := by
  have hleaf : ∀ s : State, s.entries = [] → s.FewEntries := by
    intro s h
    rw [fewEntries_iff, h]
    exact Nat.two_pow_pos 32
  induction s with
  | long n =>
    rw [throughJson]
    split <;> exact (every_leaf_iff rfl).2 (hleaf _ rfl)
  | list xs ih =>
    obtain ⟨hcount, hs⟩ := every_list_iff.1 hs
    rw [throughJson, itemsThroughJson_eq_map, every_list_iff]
    refine ⟨?_, List.forall_mem_map.2 fun x hx => ih x hx (hs x hx)⟩
    rw [FewEntries, List.length_map]
    exact hcount
  | object fs ih =>
    obtain ⟨hcount, hs⟩ := every_object_iff.1 hs
    rw [throughJson, fieldsThroughJson_eq_map, every_object_iff]
    refine ⟨?_, List.forall_mem_map.2 fun f hf => ih f hf (hs f hf)⟩
    rw [FewEntries, List.length_map]
    exact hcount
  | composite c =>
    rw [throughJson, every_object_iff]
    exact ⟨fewEntries_map_fields c,
      List.forall_mem_map.2 fun f _ => every_throughJson_component hleaf f.2⟩
  | _ => exact (every_leaf_iff rfl).2 (hleaf _ rfl)

/-! ## The text -/

/-- The text of a tree without floats, in either layout and with blanks behind it or not, gives
back what is left of the tree if the document nests no deeper than the reader goes. -/
theorem ofJsonText_of_toList {s : State} {text : String} {layout : Json.Layout}
    {blanks : List Char} (hn : s.Every DistinctNames) (hs : s.Every Whole)
    (hblanks : Json.Blank blanks)
    (htext : text.toList = Json.chars layout 0 s.toJson ++ blanks) :
    (s.toJson.nesting ≤ Json.maxNesting → ofJsonText text = .ok s.throughJson) ∧
    (Json.maxNesting < s.toJson.nesting →
      ∃ e, ofJsonText text = .error (.json e) ∧ e.fault = .tooDeep) := by
  obtain ⟨hparse, hdeep⟩ := Json.parse_of_toList (exact_toJson hn hs) hblanks htext
  constructor
  · intro hnesting
    have hfinite : s.Every Finite := hs.mono fun _ h => h.finite
    exact ofJsonText_eq_ok_iff.2 ⟨_, hparse hnesting, ofJson_toJson_of_finite hn hfinite⟩
  · intro hnesting
    obtain ⟨e, he, hfault⟩ := hdeep hnesting
    refine ⟨e, ?_, hfault⟩
    rw [ofJsonText, he]
    rfl

/-- A tree without floats is read back from its text on one line, on many, and on many with a line
break behind it. -/
theorem ofJsonText_printed {s : State} {text : String} (hn : s.Every DistinctNames)
    (hs : s.Every Whole) (htext : text ∈ [s.toJson.compact, s.toJsonText, s.toJsonText ++ "\n"]) :
    (s.toJson.nesting ≤ Json.maxNesting → ofJsonText text = .ok s.throughJson) ∧
    (Json.maxNesting < s.toJson.nesting →
      ∃ e, ofJsonText text = .error (.json e) ∧ e.fault = .tooDeep) := by
  have hnone : Json.Blank [] := List.forall_mem_nil _
  have hline : Json.Blank ['\n'] := List.forall_mem_singleton.2 rfl
  have hpretty : s.toJsonText.toList = Json.chars .pretty 0 s.toJson :=
    Json.toList_write_empty .pretty s.toJson
  simp only [List.mem_cons, List.not_mem_nil, or_false] at htext
  rcases htext with rfl | rfl | rfl
  · have hcompact := Json.toList_write_empty .compact s.toJson
    rw [← List.append_nil (Json.chars _ _ _)] at hcompact
    exact ofJsonText_of_toList hn hs hnone hcompact
  · rw [← List.append_nil (Json.chars _ _ _)] at hpretty
    exact ofJsonText_of_toList hn hs hnone hpretty
  · have hbreak : (s.toJsonText ++ "\n").toList = Json.chars .pretty 0 s.toJson ++ ['\n'] := by
      rw [String.toList_append, hpretty]
      rfl
    exact ofJsonText_of_toList hn hs hline hbreak

/-- What is left of a tree read from bytes can be encoded. -/
theorem exists_encode_throughJson {bytes : Bytes} {s : State} {text : String}
    (h : decode bytes = .ok s) (htext : ofJsonText text = .ok s.throughJson) :
    ∃ written, encode s.throughJson = .ok written := by
  obtain ⟨⟨-, hfew⟩, -⟩ := encode_eq_ok_iff.1 (encode_of_decode h)
  exact (exists_encode_iff_of_ofJsonText htext).2 (every_fewEntries_throughJson hfew)

end State

end SaveTree
