/-
  A document through a save file.

  `encode` reads a document as a tree and writes the tree; `decode` reads the tree back and prints
  its document, which is the document that was read. Of two limits on nesting that of the JSON
  reader is the lower one, so what it reads the writer takes.
-/
import Mathlib
import SaveTree.Proofs.Command.Run
import SaveTree.Proofs.State.Json

namespace SaveTree

variable {env : Environment} {args : List String} {input output : Option String}
  {bytes written : Bytes} {text : String} {s : State}

theorem perform_encode_eq_ok_iff : (Command.encode input output).perform bytes = .ok written ↔
    ∃ text, Utf8.decode bytes = .ok text ∧ ∃ s, State.ofJsonText text = .ok s ∧
      encode s = .ok written := by
  unfold Command.perform Command.writeTree
  simp only [bind_eq_ok_iff, mapError_eq_ok_iff]

theorem perform_decode (h : decode bytes = .ok s) :
    (Command.decode input output).perform bytes = .ok (Command.render s) := by
  unfold Command.perform Command.readTree
  simp only [bind_eq_ok_iff, mapError_eq_ok_iff]
  exact ⟨s, h, rfl⟩

/-- A tree that is read from a text shows the document of the text. -/
theorem exists_render_of_ofJsonText (h : State.ofJsonText text = .ok s) :
    ∃ j, Json.parse text = .ok j ∧ Command.render s = Utf8.encode (j.pretty ++ "\n") := by
  obtain ⟨j, hj, hs⟩ := State.ofJsonText_eq_ok_iff.1 h
  obtain ⟨hdocument, -⟩ := State.shows_ofJson (Json.sound_of_parse hj) hs
  exact ⟨j, hj, by rw [Command.render, State.toJsonText, hdocument]⟩

namespace Environment

/-- An encoding that goes well leaves the bytes of a tree that is read from the text. -/
theorem exists_left_of_run_encode (hargs : Request.read args = .run (.encode input output))
    (hread : env.read input = .ok (Utf8.encode text)) (hcode : (env.run args).code = 0) :
    ∃ s written, State.ofJsonText text = .ok s ∧ encode s = .ok written ∧
      (env.run args).Left written output := by
  have hrun : env.run args = env.runCommand (.encode input output) := by
    unfold run
    rw [hargs]
  have hconverts : (Command.encode input output).Converts := trivial
  rw [hrun] at hcode ⊢
  obtain ⟨bytes, written, hbytes, hperform, hleft⟩ := exists_left_of_runCommand hconverts hcode
  obtain rfl : Utf8.encode text = bytes := Except.ok.inj (hread.symm.trans hbytes)
  obtain ⟨text', htext, s, hs, hwritten⟩ := perform_encode_eq_ok_iff.1 hperform
  obtain rfl : text = text' :=
    Except.ok.inj ((Utf8.decode_eq_ok_iff.2 rfl).symm.trans htext)
  exact ⟨s, written, hs, hwritten, hleft⟩

/-- Decoding prints the tree in the bytes it reads. -/
theorem run_decode (hargs : Request.read args = .run (.decode input none))
    (hread : env.read input = .ok bytes) (hd : decode bytes = .ok s) :
    env.run args = env.succeed (Command.render s) := by
  have hconverts : (Command.decode input none).Converts := trivial
  unfold run
  rw [hargs]
  exact runCommand_of_print hconverts hread (perform_decode hd) rfl

/-- What a line has encoded from a text, a line that decodes it prints as the document of the
text. A tree that is read from a text nests less deep than the writer allows, so it can be encoded
exactly if each list and object has few enough entries for a header, as they have in a text that
is not too long for one. -/
theorem run_decode_of_run_encode :
    (∀ {env : Environment} {args : List String} {input output : Option String} {text : String},
      Request.read args = .run (.encode input output) →
      env.read input = .ok (Utf8.encode text) → (Utf8.encode text).length < 2 ^ 32 →
      (env.run args).code = 0 →
      ∃ j written, Json.parse text = .ok j ∧ (env.run args).Left written output ∧
        ∀ (later : Environment) (args : List String) (input : Option String),
          Request.read args = .run (.decode input none) → later.read input = .ok written →
          later.run args = later.succeed (Utf8.encode (j.pretty ++ "\n"))) ∧
    ∀ {text : String} {s : State}, State.ofJsonText text = .ok s →
      s.nesting ≤ Json.maxNesting ∧ Json.maxNesting < Wire.maxNesting ∧
      ((∃ bytes, encode s = .ok bytes) ↔ s.Every State.FewEntries) ∧
      ((Utf8.encode text).length < 2 ^ 32 → ∃ bytes, encode s = .ok bytes) := by
  refine ⟨fun hargs hread hsize hcode => ?_, fun hs => ?_⟩
  · obtain ⟨s, written, hs, hwritten, hleft⟩ := exists_left_of_run_encode hargs hread hcode
    obtain ⟨j, hj, hrender⟩ := exists_render_of_ofJsonText hs
    have hdecode := decode_of_encode (State.storable_of_ofJsonText hsize hs) hwritten
    refine ⟨j, written, hj, hleft, fun later args input hargs hread => ?_⟩
    rw [← hrender]
    exact run_decode hargs hread hdecode
  · obtain ⟨hnesting, -⟩ := State.within_of_ofJsonText hs
    have hencode := State.exists_encode_iff_of_ofJsonText hs
    exact ⟨hnesting, by decide, hencode,
      fun hsize => hencode.2 (State.fewEntries_of_ofJsonText hsize hs)⟩

/-- A text in which a name comes twice, with two values. -/
def repeatedText : String := "\x7b\"b\":true,\"a\":[],\"b\":false\x7d"

/-- The document of the text: the name keeps its place and has the later value. -/
def lastDocument : Json := .object [("b", .bool false), ("a", .array [])]

/-- The tree of the document. -/
def lastTree : State := .object [("b", .bool false), ("a", .list [])]

/-- The encoding of the tree. -/
def lastSave : Bytes := [0x82, 0xA1, 0x62, 0xC2, 0xA1, 0x61, 0x90]

/-- A working directory with the text in a file. -/
def repeatedEnvironment : Environment :=
  ⟨⟨.directory [("work", .directory [("in.json", .file (Utf8.encode repeatedText))])], ["work"]⟩,
    [], []⟩

/-- The line that encodes the text into another file. -/
def encodeLine : List String := ["encode", "-i", "in.json", "-o", "out.save"]

theorem ofJsonText_repeatedText : State.ofJsonText repeatedText = .ok lastTree := by
  cbv

theorem read_encodeLine :
    Request.read encodeLine = .run (.encode (some "in.json") (some "out.save")) := by
  cbv

theorem code_run_encodeLine : (repeatedEnvironment.run encodeLine).code = 0 := by
  have hconverts : (Command.encode (some "in.json") (some "out.save")).Converts := trivial
  have hread : repeatedEnvironment.disk.read "in.json" = .ok (Utf8.encode repeatedText) := rfl
  have hperform : (Command.encode (some "in.json") (some "out.save")).perform
      (Utf8.encode repeatedText) = .ok lastSave :=
    perform_encode_eq_ok_iff.2
      ⟨repeatedText, Utf8.decode_eq_ok_iff.2 rfl, lastTree, ofJsonText_repeatedText, rfl⟩
  unfold run
  rw [read_encodeLine]
  dsimp only
  rw [runCommand_of_write hconverts (read_file_eq_ok_iff.2 hread) hperform rfl rfl]
  rfl

theorem run_decode_of_run_encode_repeatedText :
    (repeatedEnvironment.run encodeLine).code = 0 ∧
      (repeatedEnvironment.after encodeLine).run ["decode", "-i", "out.save"] =
        (repeatedEnvironment.after encodeLine).succeed
          (Utf8.encode "\x7b\n  \"b\": false,\n  \"a\": []\n\x7d\n") ∧
      State.ofJsonText repeatedText = .ok lastTree ∧ ∃ bytes, encode lastTree = .ok bytes := by
  obtain ⟨hshown, hencoded⟩ := run_decode_of_run_encode
  refine ⟨code_run_encodeLine, ?_, ofJsonText_repeatedText, ?_⟩
  · have hread : repeatedEnvironment.read (some "in.json") = .ok (Utf8.encode repeatedText) := rfl
    have hparse : Json.parse repeatedText = .ok lastDocument := by cbv
    have hpretty : lastDocument.pretty ++ "\n" =
        "\x7b\n  \"b\": false,\n  \"a\": []\n\x7d\n" := by cbv
    obtain ⟨j, written, hj, hleft, hlater⟩ :=
      hshown read_encodeLine hread (by decide) code_run_encodeLine
    obtain rfl : lastDocument = j := Except.ok.inj (hparse.symm.trans hj)
    rw [← hpretty]
    exact hlater _ _ (some "out.save") (by cbv) (read_file_eq_ok_iff.2 hleft)
  · obtain ⟨-, -, -, hshort⟩ := hencoded ofJsonText_repeatedText
    exact hshort (by decide)

end Environment

end SaveTree
