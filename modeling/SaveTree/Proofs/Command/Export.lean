/-
  A save file through its document.

  `decode` prints the document of the tree in a save file and `encode` makes a save file of a
  document. One after the other they leave the encoding of what is left of the tree in a document:
  all of it, for a tree without floats, but the kinds of some nodes.
-/
import SaveTree.Proofs.Command.Document
import SaveTree.Proofs.State.Export

namespace SaveTree.Environment

variable {env : Environment} {args : List String} {input output : Option String} {bytes : Bytes}
  {s : State}

theorem run_decode_eq_conclude (hargs : Request.read args = .run (.decode input output))
    (hread : env.read input = .ok bytes) (hd : decode bytes = .ok s) :
    env.run args = env.conclude output (.ok (Command.render s)) := by
  have hconverts : (Command.decode input output).Converts := trivial
  have hmade : env.read input >>= (Command.decode input output).perform =
      .ok (Command.render s) :=
    bind_eq_ok_iff.2 ⟨bytes, hread, perform_decode hd⟩
  unfold run
  rw [hargs]
  dsimp only
  rw [runCommand_eq_conclude env hconverts, Command.input?, hmade]
  rfl

theorem run_encode_eq_conclude {text : String}
    (hargs : Request.read args = .run (.encode input output))
    (hread : env.read input = .ok (Utf8.encode text)) :
    (∀ {written : Bytes}, State.ofJsonText text = .ok s → encode s = .ok written →
      env.run args = env.conclude output (.ok written)) ∧
    ∀ {e : Error}, State.ofJsonText text = .error e →
      env.run args = env.fail (.ofError "Failed to parse JSON input" e) := by
  have hconverts : (Command.encode input output).Converts := trivial
  have hrun : env.run args = env.conclude output
      ((Command.encode input output).perform (Utf8.encode text)) := by
    unfold run
    rw [hargs]
    dsimp only
    rw [runCommand_eq_conclude env hconverts, Command.input?, hread]
    rfl
  have hdecode : Utf8.decode (Utf8.encode text) = .ok text := Utf8.decode_eq_ok_iff.2 rfl
  rw [hrun]
  constructor
  · intro written hs hwritten
    rw [perform_encode_eq_ok_iff.2 ⟨text, hdecode, s, hs, hwritten⟩]
  · intro e he
    have hperform : (Command.encode input output).perform (Utf8.encode text) =
        .error (.ofError "Failed to parse JSON input" e) := by
      rw [Command.perform, hdecode]
      dsimp only [Except.mapError, bind, Except.bind]
      rw [he]
    rw [hperform]
    rfl

/-- A save file and its text. For a tree without floats, what reads back from either layout of the
text is the tree with each long that fits 32 bits as an int and each composite as an object, if
the document nests no deeper than the reader goes; a deeper one is an error. So of two lines, one
that decodes a file of such a tree and one that encodes what the first left, the second leaves the
encoding of that tree, or fails where the document nests too deep. -/
theorem run_encode_of_run_decode :
    (∀ {s : State} {text : String}, s.Every State.DistinctNames → s.Every State.Whole →
      text ∈ [s.toJson.compact, s.toJsonText] →
      (s.toJson.nesting ≤ Json.maxNesting → State.ofJsonText text = .ok s.throughJson) ∧
      (Json.maxNesting < s.toJson.nesting →
        ∃ e, State.ofJsonText text = .error (.json e) ∧ e.fault = .tooDeep)) ∧
    ∀ {env : Environment} {args : List String} {input output : Option String} {bytes : Bytes}
      {s : State}, Request.read args = .run (.decode input output) →
      env.read input = .ok bytes → decode bytes = .ok s → s.Every State.Whole →
      env.run args = env.conclude output (.ok (Command.render s)) ∧
      ((env.run args).code = 0 → (env.run args).Left (Command.render s) output) ∧
      (s.toJson.nesting ≤ Json.maxNesting → ∃ written, encode s.throughJson = .ok written ∧
        ∀ (later : Environment) (args : List String) (input output : Option String),
          Request.read args = .run (.encode input output) →
          later.read input = .ok (Command.render s) →
          later.run args = later.conclude output (.ok written)) ∧
      (Json.maxNesting < s.toJson.nesting → ∃ e : JsonError, e.fault = .tooDeep ∧
        ∀ (later : Environment) (args : List String) (input output : Option String),
          Request.read args = .run (.encode input output) →
          later.read input = .ok (Command.render s) →
          later.run args = later.fail (.ofError "Failed to parse JSON input" (.json e))) := by
  refine ⟨fun hn hs ht => ?_, fun {env args input output bytes s} hargs hread hd hs => ?_⟩
  · simp only [List.mem_cons, List.not_mem_nil, or_false] at ht
    refine State.ofJsonText_printed hn hs ?_
    simp only [List.mem_cons, List.not_mem_nil, or_false]
    exact ht.imp_right .inl
  · have hrun := run_decode_eq_conclude hargs hread hd
    obtain ⟨hn, -⟩ := storable_of_decode hd
    have hline : s.toJsonText ++ "\n" ∈ [s.toJson.compact, s.toJsonText, s.toJsonText ++ "\n"] := by
      simp
    obtain ⟨hread, hdeep⟩ := State.ofJsonText_printed hn hs hline
    refine ⟨hrun, fun hcode => ?_, fun hnesting => ?_, fun hnesting => ?_⟩
    · rw [hrun] at hcode ⊢
      obtain ⟨written, hwritten, hleft⟩ := exists_left_of_conclude hcode
      cases hwritten
      exact hleft
    · obtain ⟨written, hwritten⟩ := State.exists_encode_throughJson hd (hread hnesting)
      refine ⟨written, hwritten, fun later args input output hargs hlater => ?_⟩
      obtain ⟨hencodes, -⟩ := run_encode_eq_conclude (s := s.throughJson) hargs hlater
      exact hencodes (hread hnesting) hwritten
    · obtain ⟨e, he, hfault⟩ := hdeep hnesting
      refine ⟨e, hfault, fun later args input output hargs hlater => ?_⟩
      obtain ⟨-, hfails⟩ := run_encode_eq_conclude (s := s.throughJson) hargs hlater
      exact hfails he

/-- A tree with a name that has to be escaped, two longs, one of which fits 32 bits, and a vector
of integers. -/
def namedTree : State :=
  .object [
    ("a\"\\\n\x01é", .list [.long 5, .long 4294967296, .string "\t\x7f"]),
    ("v", .composite (.vector2int 7 (-1)))]

/-- A save file of the tree as standard input. -/
def namedEnvironment : Environment := ⟨Disk.empty, Wire.plainBytes namedTree, []⟩

/-- A tree of 128 lists inside one another. -/
def deepTree : State := (fun s => State.list [s])^[127] (.list [])

/-- The environment with other standard input. -/
def given (env : Environment) (input : Bytes) : Environment := { env with input }

theorem decode_namedTree : decode (Wire.plainBytes namedTree) = .ok namedTree :=
  decode_of_encode (by decide) (encode_of_nesting_le (by decide) (by decide))

theorem run_encode_of_run_decode_namedTree :
    State.ofJsonText namedTree.toJson.compact = .ok (.object [
      ("a\"\\\n\x01é", .list [.int 5, .long 4294967296, .string "\t\x7f"]),
      ("v", .object [("x", .int 7), ("y", .int (-1))])]) ∧
    (∃ e, State.ofJsonText deepTree.toJsonText = .error (.json e)) ∧
    namedEnvironment.run ["decode"] = namedEnvironment.succeed (Command.render namedTree) ∧
    ∃ written, encode namedTree.throughJson = .ok written ∧
      (namedEnvironment.given (namedEnvironment.run ["decode"]).output).run ["encode"] =
        (namedEnvironment.given (namedEnvironment.run ["decode"]).output).succeed written := by
  obtain ⟨htext, hrun⟩ := run_encode_of_run_decode
  have hdecode : Request.read ["decode"] = .run (.decode none none) := by cbv
  have hencode : Request.read ["encode"] = .run (.encode none none) := by cbv
  have hread : namedEnvironment.read none = .ok (Wire.plainBytes namedTree) := rfl
  have hpretty : ∀ s : State, s.toJsonText ∈ [s.toJson.compact, s.toJsonText] :=
    fun s => List.mem_cons_of_mem _ List.mem_cons_self
  refine ⟨(htext (by decide) (by decide) List.mem_cons_self).1 (by decide), ?_, ?_⟩
  · have hnames : deepTree.Every State.DistinctNames := by decide +kernel
    have hwhole : deepTree.Every State.Whole := by decide +kernel
    have hdeep : Json.maxNesting < deepTree.toJson.nesting := by decide +kernel
    obtain ⟨-, hstops⟩ := htext hnames hwhole (hpretty deepTree)
    obtain ⟨e, he, -⟩ := hstops hdeep
    exact ⟨e, he⟩
  · obtain ⟨hdecoded, -, hwithin, -⟩ := hrun hdecode hread decode_namedTree (by decide)
    obtain ⟨written, hwritten, hlater⟩ := hwithin (by decide)
    have hprints : ∀ (env : Environment) output,
        env.conclude none (.ok output) = env.succeed output := fun _ _ => rfl
    have hprinted : ∀ output, (namedEnvironment.succeed output).output = output := fun _ => rfl
    have hgiven : ∀ input, (namedEnvironment.given input).read none = .ok input := fun _ => rfl
    rw [hdecoded, hprints, hprinted]
    refine ⟨rfl, written, hwritten, ?_⟩
    rw [hlater _ _ none none hencode (hgiven _), hprints]

end SaveTree.Environment
