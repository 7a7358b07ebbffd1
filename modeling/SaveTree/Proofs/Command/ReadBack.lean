/-
  The command line reads back what it wrote.

  A line that writes to a file decodes it, writes at the path and stores the tree that comes out;
  a line that reads decodes what is stored. The tree that comes out can be stored, since the file
  held one that was read and the value comes from JSON text, so what is read is what was written,
  unless the path ends below a composite that drops the value.
-/
import SaveTree.Proofs.Command.Line
import SaveTree.Proofs.Command.Run
import SaveTree.Proofs.Path.ReadBack
import SaveTree.Proofs.Path.Storable
import SaveTree.Proofs.State.Json

namespace SaveTree

variable {env later : Environment} {f p j : String} {bytes output : Bytes} {root value t : State}
  {path : Path}

/-! ## JSON arguments -/

/-- What starts with a minus sign and no digit behind it is no JSON text. -/
theorem parse_of_minus {text : String} {c : Char} {cs : List Char}
    (ht : text.toList = '-' :: c :: cs) (hc : c.isDigit = false) :
    ∃ e, Json.parse text = .error e := by
  have hnumber : Json.readNumber true (c :: cs) =
      Json.stopBefore .invalidNumber (c :: cs) := by
    rw [Json.readNumber, hc]
    rfl
  have hvalue : ∀ fuel levels, Json.readValue fuel levels ('-' :: c :: cs) =
      Json.stopBefore .invalidNumber (c :: cs) := by
    intro fuel levels
    have hblanks : Json.skipBlanks ('-' :: c :: cs) = '-' :: c :: cs := rfl
    unfold Json.readValue
    rw [hblanks]
    dsimp only [bind, Except.bind]
    rw [if_neg (by decide), if_neg (by decide), if_neg (by decide), if_neg (by decide),
      if_pos rfl, hnumber]
    rfl
  unfold Json.parse Json.readDocument
  rw [ht, hvalue]
  exact ⟨_, rfl⟩

/-- JSON text is no request for help. -/
theorem not_asksHelp_of_ofJsonText (h : State.ofJsonText j = .ok value) : ¬ AsksHelp j := by
  have hparse : ∀ e, Json.parse j ≠ .error e := by
    intro e he
    rw [State.ofJsonText, he] at h
    cases h
  rintro (hj | ⟨cs, hcs⟩)
  · obtain ⟨e, he⟩ := parse_of_minus (congrArg String.toList hj) rfl
    exact hparse e he
  · obtain ⟨e, he⟩ := parse_of_minus hcs.symm rfl
    exact hparse e he

/-! ## Single runs -/

theorem perform_set_eq_ok_iff {input target : Option String} :
    (Command.set input target p j).perform bytes = .ok output ↔
      ∃ root, decode bytes = .ok root ∧ ∃ path, Path.parse p = .ok path ∧
        ∃ value, State.ofJsonText j = .ok value ∧ ∃ t, path.set root value = .ok t ∧
          encode t = .ok output := by
  unfold Command.perform Command.readTree Command.readPath Command.writeTree
  simp only [bind_eq_ok_iff, mapError_eq_ok_iff]

theorem perform_get {input : Option String} (hd : decode bytes = .ok root)
    (hp : Path.parse p = .ok path) (ht : path.get root = .ok value) :
    (Command.get input p).perform bytes = .ok (Command.render value) := by
  unfold Command.perform Command.readTree Command.readPath
  simp only [bind_eq_ok_iff, mapError_eq_ok_iff]
  exact ⟨root, hd, path, hp, value, ht, rfl⟩

/-- What is read depends on the tree in the file, not on its bytes. -/
theorem perform_get_congr {input : Option String} {kept : Bytes}
    (h : decode kept = decode bytes) :
    (Command.get input p).perform kept = (Command.get input p).perform bytes := by
  unfold Command.perform Command.readTree
  rw [h]

namespace Environment

theorem runCommand_get (hr : env.disk.read f = .ok bytes)
    (hp : (Command.get (some f) p).perform bytes = .ok output) :
    env.runCommand (.get (some f) p) = env.succeed output :=
  runCommand_of_print trivial (read_file_eq_ok_iff.2 hr) hp rfl

/-- A read ends the same way on any disk whose file holds the same tree. -/
theorem runCommand_get_congr {kept : Bytes} (hr : env.disk.read f = .ok bytes)
    (hr' : later.disk.read f = .ok kept) (hd : decode kept = decode bytes) :
    later.runCommand (.get (some f) p) =
      { env.runCommand (.get (some f) p) with disk := later.disk } := by
  unfold runCommand
  dsimp only [Command.input?]
  rw [read_file_eq_ok_iff.2 hr, read_file_eq_ok_iff.2 hr']
  dsimp only [bind, Except.bind]
  rw [perform_get_congr hd]
  cases (Command.get (some f) p).perform bytes <;> rfl

theorem runCommand_set {stored : Bytes} {after : Disk} (hr : env.disk.read f = .ok bytes)
    (hp : (Command.set (some f) none p j).perform bytes = .ok stored)
    (hw : env.disk.write f stored = .ok after) :
    env.runCommand (.set (some f) none p j) = { env with disk := after }.succeed [] :=
  runCommand_of_write trivial (read_file_eq_ok_iff.2 hr) hp rfl hw

/-! ## A write and a read -/

/-- A line that writes JSON with success has its words taken as the file, the path and the
value. -/
theorem plain_of_code_run_set (hhelp : ¬ AsksHelp p) (hj : State.ofJsonText j = .ok value)
    (hcode : (env.run ["set", "-i", f, p, j]).code = 0) :
    (Plain f ∧ f ≠ "") ∧ Plain p ∧ Plain j := by
  refine Classical.byContradiction fun h => ?_
  unfold run at hcode
  rw [Request.read_set_of_not hhelp (not_asksHelp_of_ofJsonText hj) h] at hcode
  cases hcode

/-- A write that goes well leaves the tree after the write in the file. -/
theorem exists_stored_of_runCommand_set (hr : env.disk.read f = .ok bytes)
    (hd : decode bytes = .ok root) (hp : Path.parse p = .ok path)
    (hj : State.ofJsonText j = .ok value) (hpSize : (Utf8.encode p).length < 2 ^ 32)
    (hjSize : (Utf8.encode j).length < 2 ^ 32)
    (hcode : (env.runCommand (.set (some f) none p j)).code = 0) :
    ∃ t stored, path.set root value = .ok t ∧ decode stored = .ok t ∧
      (env.runCommand (.set (some f) none p j)).disk.read f = .ok stored := by
  have hconverts : (Command.set (some f) none p j).Converts := trivial
  obtain ⟨bytes', stored, hr', hperform, hleft⟩ := exists_left_of_runCommand hconverts hcode
  obtain rfl : bytes = bytes' := Except.ok.inj (hr.symm.trans (read_file_eq_ok_iff.1 hr'))
  obtain ⟨root', hd', path', hp', value', hj', t, ht, hstored⟩ := perform_set_eq_ok_iff.1 hperform
  obtain rfl : root = root' := Except.ok.inj (hd.symm.trans hd')
  obtain rfl : path = path' := Except.ok.inj (hp.symm.trans hp')
  obtain rfl : value = value' := Except.ok.inj (hj.symm.trans hj')
  have hstorable : t.Storable :=
    Path.storable_set (storable_of_decode hd) (State.storable_of_ofJsonText hjSize hj)
      (fun name hname => Nat.lt_of_le_of_lt (Path.length_name_le_of_parse hp hname) hpSize) ht
  exact ⟨t, stored, ht, decode_of_encode hstorable hstored, hleft⟩

/-- After a line has written a JSON value at a path of a file, a line that reads the path prints
the value, unless the path ends below a composite that does not take it: then the file holds the
tree it held, and the read ends as it would have before. -/
theorem run_get_of_run_set (hr : env.disk.read f = .ok bytes) (hd : decode bytes = .ok root)
    (hp : Path.parse p = .ok path) (hj : State.ofJsonText j = .ok value)
    (hhelp : ¬ AsksHelp p) (hpSize : (Utf8.encode p).length < 2 ^ 32)
    (hjSize : (Utf8.encode j).length < 2 ^ 32)
    (hcode : (env.run ["set", "-i", f, p, j]).code = 0)
    (hlater : later.disk = (env.run ["set", "-i", f, p, j]).disk) :
    (¬ path.Drops root value →
      later.run ["get", "-i", f, p] = later.succeed (Command.render value)) ∧
    (path.Drops root value →
      (∃ kept, later.disk.read f = .ok kept ∧ decode kept = .ok root) ∧
      later.run ["get", "-i", f, p] =
        { env.run ["get", "-i", f, p] with disk := later.disk }) := by
  obtain ⟨⟨hf, hne⟩, hpPlain, hjPlain⟩ := plain_of_code_run_set hhelp hj hcode
  have hset : env.run ["set", "-i", f, p, j] = env.runCommand (.set (some f) none p j) := by
    unfold run
    rw [Request.read_set hf hne hpPlain hjPlain]
  have hget : ∀ e : Environment,
      e.run ["get", "-i", f, p] = e.runCommand (.get (some f) p) := by
    intro e
    unfold run
    rw [Request.read_get hf hne hpPlain]
  rw [hset] at hcode hlater
  obtain ⟨t, stored, ht, hdecode, hread⟩ :=
    exists_stored_of_runCommand_set hr hd hp hj hpSize hjSize hcode
  rw [← hlater] at hread
  rw [hget later, hget env]
  refine ⟨fun hkept => ?_, fun hdropped => ?_⟩
  · exact runCommand_get hread (perform_get hdecode hp (Path.get_of_set ht hkept))
  · obtain rfl := Path.set_of_drops ht hdropped
    exact ⟨⟨stored, hread, hdecode⟩, runCommand_get_congr hr hread (hdecode.trans hd.symm)⟩

/-- A file with a vector of two floats, 1 and 2. -/
def vectorSave : Bytes := [0xC7, 10, 1, 0xCA, 0x3F, 0x80, 0, 0, 0xCA, 0x40, 0, 0, 0]

/-- The tree of the file. -/
def vectorTree : State := .composite (.vector2 ⟨0x3F800000#32⟩ ⟨0x40000000#32⟩)

/-- A working directory with the file in it. -/
def vectorEnvironment : Environment :=
  ⟨⟨.directory [("work", .directory [("f.save", .file vectorSave)])], ["work"]⟩, [], []⟩

/-- The double 5.5, which is what JSON text has for a float. -/
def doubleSample : State := .double ⟨0x4016000000000000#64⟩

theorem parse_x : Path.parse "x" = .ok (Path.root.field "x") := by
  have hspells : Path.Spells (['x'] ++ []) [.field (String.ofList ['x'])] :=
    .first (by decide) .nil
  exact Path.parse_eq_ok_iff.2 hspells

theorem ofJsonText_doubleSample : State.ofJsonText "5.5" = .ok doubleSample := by
  have hscale : Json.scale (BinaryFormat.double.nearest 55 1) (-1) = some 0x4016000000000000 := by
    rw [Json.scale]
    decide +kernel
  have hnumber : Json.readNumber false ['5', '.', '5'] =
      .ok (.float ⟨0x4016000000000000#64⟩, []) := by
    have hwhole : Json.absorb Json.maxSignificand 0 0 ['5', '.', '5'] = (5, 1, ['.', '5']) := by
      decide +kernel
    have hfraction : Json.absorb Json.maxSignificand 5 0 ['5'] = (55, 1, []) := by decide +kernel
    rw [Json.readNumber, if_neg (by decide), if_neg (by decide), hwhole]
    show Json.readFraction false 5 0 ['5'] = _
    rw [Json.readFraction, hfraction]
    show Json.makeFloat false 55 (-1) [] = _
    rw [Json.makeFloat, hscale]
    rfl
  have hvalue : ∀ fuel levels, Json.readValue fuel levels ['5', '.', '5'] =
      .ok (.number (.float ⟨0x4016000000000000#64⟩), []) := by
    intro fuel levels
    have hblanks : Json.skipBlanks ['5', '.', '5'] = ['5', '.', '5'] := by decide
    unfold Json.readValue
    rw [hblanks]
    dsimp only [bind, Except.bind]
    rw [if_neg (by decide), if_neg (by decide), if_neg (by decide), if_neg (by decide),
      if_neg (by decide), if_pos (by decide), hnumber]
  have htext : ("5.5" : String).toList = ['5', '.', '5'] := rfl
  unfold State.ofJsonText Json.parse Json.readDocument
  rw [htext, hvalue]
  rfl

/-- The float of the vector is no place for a double. -/
theorem drops_x : (Path.root.field "x").Drops vectorTree doubleSample :=
  ⟨.root, .field "x", _, rfl, rfl, by decide⟩

theorem run_set_x : vectorEnvironment.run ["set", "-i", "f.save", "x", "5.5"] =
    vectorEnvironment.succeed [] := by
  have hf : Plain "f.save" := rfl
  have hp : Plain "x" := rfl
  have hj : Plain "5.5" := rfl
  have hset : (Path.root.field "x").set vectorTree doubleSample = .ok vectorTree := rfl
  have hperform : (Command.set (some "f.save") none "x" "5.5").perform vectorSave =
      .ok vectorSave :=
    perform_set_eq_ok_iff.2
      ⟨vectorTree, rfl, _, parse_x, doubleSample, ofJsonText_doubleSample, _, hset, rfl⟩
  unfold run
  rw [Request.read_set hf (by decide) hp hj]
  exact runCommand_set rfl hperform rfl

theorem run_get_x : vectorEnvironment.run ["get", "-i", "f.save", "x"] =
    vectorEnvironment.succeed (Command.render (.float ⟨0x3F800000#32⟩)) := by
  have hf : Plain "f.save" := rfl
  have hp : Plain "x" := rfl
  unfold run
  rw [Request.read_get hf (by decide) hp]
  exact runCommand_get rfl (perform_get rfl parse_x rfl)

theorem code_run_set_root :
    (vectorEnvironment.run ["set", "-i", "f.save", "", "true"]).code = 0 := by
  have hf : Plain "f.save" := rfl
  have hp : Plain "" := rfl
  have hj : Plain "true" := rfl
  have hperform : (Command.set (some "f.save") none "" "true").perform vectorSave =
      .ok [0xC3] :=
    perform_set_eq_ok_iff.2 ⟨vectorTree, rfl, .root, rfl, .bool true, rfl, _, rfl, rfl⟩
  unfold run
  rw [Request.read_set hf (by decide) hp hj]
  dsimp only
  rw [runCommand_set rfl hperform rfl]
  rfl

theorem run_get_of_run_set_vector :
    (vectorEnvironment.after ["set", "-i", "f.save", "", "true"]).run ["get", "-i", "f.save", ""] =
      (vectorEnvironment.after ["set", "-i", "f.save", "", "true"]).succeed
        (Command.render (.bool true)) ∧
    ∃ kept, (vectorEnvironment.after ["set", "-i", "f.save", "x", "5.5"]).disk.read "f.save" =
      .ok kept ∧ decode kept = .ok vectorTree := by
  have hread : vectorEnvironment.disk.read "f.save" = .ok vectorSave := rfl
  constructor
  · have hhelp : ¬ AsksHelp "" := by
      rintro (h | ⟨cs, h⟩)
      · exact absurd h (by decide)
      · cases h
    refine (run_get_of_run_set hread rfl rfl rfl hhelp (by decide) (by decide) code_run_set_root
      rfl).1 ?_
    rintro ⟨q, key, c, hq, -⟩
    cases hq
  · have hhelp : ¬ AsksHelp "x" := by
      rintro (h | ⟨cs, h⟩)
      · exact absurd h (by decide)
      · cases h
    have hcode : (vectorEnvironment.run ["set", "-i", "f.save", "x", "5.5"]).code = 0 := by
      rw [run_set_x]
      rfl
    exact ((run_get_of_run_set hread rfl parse_x ofJsonText_doubleSample hhelp (by decide)
      (by decide) hcode rfl).2 drops_x).1

/-- A value can be written with success and not be read back. -/
theorem not_forall_run_get_of_run_set : ¬ ∀ (env later : Environment) (f p j : String)
    (bytes : Bytes) (root value : State) (path : Path), env.disk.read f = .ok bytes →
      decode bytes = .ok root → Path.parse p = .ok path → State.ofJsonText j = .ok value →
      (env.run ["set", "-i", f, p, j]).code = 0 →
      later.disk = (env.run ["set", "-i", f, p, j]).disk →
      later.run ["get", "-i", f, p] = later.succeed (Command.render value) := by
  intro h
  have hget := h vectorEnvironment vectorEnvironment "f.save" "x" "5.5" vectorSave vectorTree
    doubleSample _ rfl rfl parse_x ofJsonText_doubleSample (by rw [run_set_x]; rfl)
    (by rw [run_set_x]; rfl)
  rw [run_get_x] at hget
  have houtput := congrArg Outcome.output hget
  exact absurd houtput (by decide +kernel)

end Environment

end SaveTree
