/-
  The files a command line changes.

  A command other than a listing stops before it writes if its input cannot be read (`Stops`) or is
  refused (`Refuses`), and then all is as it was. Otherwise all it does is to print its output or to
  leave it in one file, so the file it reads changes only if the output goes to the same place.
-/
import SaveTree.Proofs.Command.Document
import SaveTree.Proofs.Command.ReadBack
import SaveTree.Proofs.Storage.Places

namespace SaveTree

/-! ## Where a write goes -/

namespace Disk

open FileTree

variable {d e : Disk} {path : String} {place : List String} {bytes : Bytes}

/-- The file is at the place, and all that stands elsewhere stands there as before. -/
structure ChangesAt (d e : Disk) (place : List String) (bytes : Bytes) : Prop where
  workingDirectory : e.workingDirectory = d.workingDirectory
  holds : e.tree.occupant? place = some (.file bytes)
  keeps : ∀ l, l ≠ place → e.tree.occupant? l = d.tree.occupant? l

/-- A write changes one place, which its path leads to afterwards, and before if anything was
there. -/
theorem exists_changesAt_of_write (h : d.write path bytes = .ok e) :
    ∃ place, e.locate path = .ok place ∧ d.ChangesAt e place bytes ∧
      ((d.tree.occupant? place).isSome → d.locate path = .ok place) := by
  obtain ⟨directory, name, hl, hd, rfl⟩ := write_eq_ok_iff.1 h
  have hself : (d.putEntry ⟨directory, name, false⟩ (.file bytes)).tree.occupant?
      (directory ++ [name]) = some (.file bytes) := occupant?_put_self hl.2.1 _
  refine ⟨directory ++ [name], ?_, ⟨rfl, hself, fun l hne => ?_⟩, locate_of_leads hl⟩
  · exact locate_of_leads ((keepsBut_put hd _ false).leads hl) (by rw [hself]; rfl)
  · exact occupant?_put hl.2.1 hd (fun m hm => get?_file_of_ne hm bytes) hne

/-- A file is still read after a write to another place. -/
theorem read_of_write_elsewhere {input : String} {kept : Bytes} (hr : d.read input = .ok kept)
    (h : d.write path bytes = .ok e) (hne : d.locate path ≠ d.locate input) :
    e.read input = .ok kept := by
  obtain ⟨location, hl, hf⟩ := read_eq_ok_iff_bytesAt?.1 hr
  obtain ⟨place, -, hchange, hbefore⟩ := exists_changesAt_of_write h
  have hother : location ≠ place := by
    rintro rfl
    refine hne ((hbefore ?_).trans hl.symm)
    rw [bytesAt?_eq_some_iff.1 hf]
    rfl
  refine read_eq_ok_iff_bytesAt?.2 ⟨location, (puts_write h).finds input location kept hl hf, ?_⟩
  rw [bytesAt?_congr (hchange.keeps location hother), hf]

end Disk

/-! ## What a command refuses -/

theorem error_or_ok {ε α : Type} (x : Except ε α) : (∃ e, x = .error e) ∨ ∃ a, x = .ok a := by
  cases x with
  | error e => exact .inl ⟨e, rfl⟩
  | ok a => exact .inr ⟨a, rfl⟩

namespace Command

/-- The command starts from the bytes of a save file. -/
def ReadsSave : Command → Prop
  | encode .. | list .. => False
  | decode .. | get .. | set .. => True

/-- The path text a command follows. -/
def path? : Command → Option String
  | get _ path | set _ _ path _ => some path
  | encode .. | decode .. | list .. => none

/-- The command finds a mistake in the bytes it reads or in its arguments. -/
inductive Refuses (bytes : Bytes) : Command → Prop
  | notText {input output : Option String} {fault : Utf8.Fault}
      (h : Utf8.decode bytes = .error fault) : Refuses bytes (encode input output)
  | notDocument {input output : Option String} {text : String} {e : Error}
      (ht : Utf8.decode bytes = .ok text) (h : State.ofJsonText text = .error e) :
      Refuses bytes (encode input output)
  | documentNotEncoded {input output : Option String} {text : String} {s : State} {e : Error}
      (ht : Utf8.decode bytes = .ok text) (hs : State.ofJsonText text = .ok s)
      (h : SaveTree.encode s = .error e) : Refuses bytes (encode input output)
  | notSave {c : Command} {e : Error} (hc : c.ReadsSave) (h : SaveTree.decode bytes = .error e) :
      Refuses bytes c
  | badPath {c : Command} {path : String} {e : Error} (hc : c.path? = some path)
      (h : Path.parse path = .error e) : Refuses bytes c
  | notRead {input : Option String} {path : String} {s : State} {p : Path} {e : Error}
      (hs : SaveTree.decode bytes = .ok s) (hp : Path.parse path = .ok p)
      (h : p.get s = .error e) : Refuses bytes (get input path)
  | badValue {input output : Option String} {path value : String} {e : Error}
      (h : State.ofJsonText value = .error e) : Refuses bytes (set input output path value)
  | notWritten {input output : Option String} {path value : String} {s x : State} {p : Path}
      {e : Error} (hs : SaveTree.decode bytes = .ok s) (hp : Path.parse path = .ok p)
      (hx : State.ofJsonText value = .ok x) (h : p.set s x = .error e) :
      Refuses bytes (set input output path value)
  | notEncoded {input output : Option String} {path value : String} {s x t : State} {p : Path}
      {e : Error} (hs : SaveTree.decode bytes = .ok s) (hp : Path.parse path = .ok p)
      (hx : State.ofJsonText value = .ok x) (ht : p.set s x = .ok t)
      (h : SaveTree.encode t = .error e) : Refuses bytes (set input output path value)

variable {c : Command} {bytes written : Bytes} {input output : Option String}
  {path value : String}

theorem perform_decode_eq_ok_iff : (decode input output).perform bytes = .ok written ↔
    ∃ s, SaveTree.decode bytes = .ok s ∧ render s = written := by
  unfold perform readTree
  simp only [bind_eq_ok_iff, mapError_eq_ok_iff, pure, Except.pure, Except.ok.injEq]

theorem perform_get_eq_ok_iff : (get input path).perform bytes = .ok written ↔
    ∃ s, SaveTree.decode bytes = .ok s ∧ ∃ p, Path.parse path = .ok p ∧
      ∃ node, p.get s = .ok node ∧ render node = written := by
  unfold perform readTree readPath
  simp only [bind_eq_ok_iff, mapError_eq_ok_iff, pure, Except.pure, Except.ok.injEq]

/-- A command that starts from a save file needs one. -/
theorem exists_tree_of_perform (hc : c.ReadsSave) (h : c.perform bytes = .ok written) :
    ∃ s, SaveTree.decode bytes = .ok s := by
  cases c with
  | encode => exact hc.elim
  | list => exact hc.elim
  | decode =>
    obtain ⟨s, hs, -⟩ := perform_decode_eq_ok_iff.1 h
    exact ⟨s, hs⟩
  | get =>
    obtain ⟨s, hs, -⟩ := perform_get_eq_ok_iff.1 h
    exact ⟨s, hs⟩
  | set =>
    obtain ⟨s, hs, -⟩ := perform_set_eq_ok_iff.1 h
    exact ⟨s, hs⟩

/-- A command that follows a path needs one. -/
theorem exists_path_of_perform (hc : c.path? = some path) (h : c.perform bytes = .ok written) :
    ∃ p, Path.parse path = .ok p := by
  cases c with
  | encode => cases hc
  | list => cases hc
  | decode => cases hc
  | get =>
    cases hc
    obtain ⟨-, -, p, hp, -⟩ := perform_get_eq_ok_iff.1 h
    exact ⟨p, hp⟩
  | set =>
    cases hc
    obtain ⟨-, -, p, hp, -⟩ := perform_set_eq_ok_iff.1 h
    exact ⟨p, hp⟩

/-- What is refused has no output. -/
theorem Refuses.perform_ne_ok (h : c.Refuses bytes) : c.perform bytes ≠ .ok written := by
  intro hp
  cases h with
  | notText h =>
    obtain ⟨text, ht, -⟩ := perform_encode_eq_ok_iff.1 hp
    cases h.symm.trans ht
  | notDocument ht h =>
    obtain ⟨text, ht', s, hs, -⟩ := perform_encode_eq_ok_iff.1 hp
    cases ht.symm.trans ht'
    cases h.symm.trans hs
  | documentNotEncoded ht hs h =>
    obtain ⟨text, ht', s, hs', hw⟩ := perform_encode_eq_ok_iff.1 hp
    cases ht.symm.trans ht'
    cases hs.symm.trans hs'
    cases h.symm.trans hw
  | notSave hc h =>
    obtain ⟨s, hs⟩ := exists_tree_of_perform hc hp
    cases h.symm.trans hs
  | badPath hc h =>
    obtain ⟨p, hp'⟩ := exists_path_of_perform hc hp
    cases h.symm.trans hp'
  | notRead hs hpath h =>
    obtain ⟨s, hs', p, hpath', node, hnode, -⟩ := perform_get_eq_ok_iff.1 hp
    cases hs.symm.trans hs'
    cases hpath.symm.trans hpath'
    cases h.symm.trans hnode
  | badValue h =>
    obtain ⟨-, -, -, -, x, hx, -⟩ := perform_set_eq_ok_iff.1 hp
    cases h.symm.trans hx
  | notWritten hs hpath hx h =>
    obtain ⟨s, hs', p, hpath', x, hx', t, ht, -⟩ := perform_set_eq_ok_iff.1 hp
    cases hs.symm.trans hs'
    cases hpath.symm.trans hpath'
    cases hx.symm.trans hx'
    cases h.symm.trans ht
  | notEncoded hs hpath hx ht h =>
    obtain ⟨s, hs', p, hpath', x, hx', t, ht', hw⟩ := perform_set_eq_ok_iff.1 hp
    cases hs.symm.trans hs'
    cases hpath.symm.trans hpath'
    cases hx.symm.trans hx'
    cases ht.symm.trans ht'
    cases h.symm.trans hw

/-- A command refuses its input or makes its output of it, one step after the other. -/
theorem refuses_or_exists (hc : c.Converts) (bytes : Bytes) :
    c.Refuses bytes ∨ ∃ written, c.perform bytes = .ok written := by
  cases c with
  | list => exact hc.elim
  | encode input output =>
    obtain ⟨fault, h⟩ | ⟨text, ht⟩ := error_or_ok (Utf8.decode bytes)
    · exact .inl (.notText h)
    obtain ⟨e, h⟩ | ⟨s, hs⟩ := error_or_ok (State.ofJsonText text)
    · exact .inl (.notDocument ht h)
    obtain ⟨e, h⟩ | ⟨written, hw⟩ := error_or_ok (SaveTree.encode s)
    · exact .inl (.documentNotEncoded ht hs h)
    exact .inr ⟨written, perform_encode_eq_ok_iff.2 ⟨text, ht, s, hs, hw⟩⟩
  | decode input output =>
    obtain ⟨e, h⟩ | ⟨s, hs⟩ := error_or_ok (SaveTree.decode bytes)
    · exact .inl (.notSave trivial h)
    exact .inr ⟨render s, perform_decode_eq_ok_iff.2 ⟨s, hs, rfl⟩⟩
  | get input path =>
    obtain ⟨e, h⟩ | ⟨s, hs⟩ := error_or_ok (SaveTree.decode bytes)
    · exact .inl (.notSave trivial h)
    obtain ⟨e, h⟩ | ⟨p, hp⟩ := error_or_ok (Path.parse path)
    · exact .inl (.badPath rfl h)
    obtain ⟨e, h⟩ | ⟨node, hnode⟩ := error_or_ok (p.get s)
    · exact .inl (.notRead hs hp h)
    exact .inr ⟨render node, perform_get_eq_ok_iff.2 ⟨s, hs, p, hp, node, hnode, rfl⟩⟩
  | set input output path value =>
    obtain ⟨e, h⟩ | ⟨s, hs⟩ := error_or_ok (SaveTree.decode bytes)
    · exact .inl (.notSave trivial h)
    obtain ⟨e, h⟩ | ⟨p, hp⟩ := error_or_ok (Path.parse path)
    · exact .inl (.badPath rfl h)
    obtain ⟨e, h⟩ | ⟨x, hx⟩ := error_or_ok (State.ofJsonText value)
    · exact .inl (.badValue h)
    obtain ⟨e, h⟩ | ⟨t, ht⟩ := error_or_ok (p.set s x)
    · exact .inl (.notWritten hs hp hx h)
    obtain ⟨e, h⟩ | ⟨written, hw⟩ := error_or_ok (SaveTree.encode t)
    · exact .inl (.notEncoded hs hp hx ht h)
    exact .inr ⟨written, perform_set_eq_ok_iff.2 ⟨s, hs, p, hp, x, hx, t, ht, hw⟩⟩

end Command

/-! ## Runs -/

namespace Environment

variable {env : Environment} {c : Command} {args : List String}

/-- The command fails before it writes: its input cannot be read or is refused. -/
inductive Stops (env : Environment) (c : Command) : Prop
  | unread (path : String) (fault : DiskFault) (hc : c.input? = some path)
      (h : env.disk.read path = .error fault)
  | refused (bytes : Bytes) (hr : env.read c.input? = .ok bytes) (h : c.Refuses bytes)

/-- A command stops, or it has read its input and made its output. -/
theorem stops_or_exists (env : Environment) (hc : c.Converts) : env.Stops c ∨
    ∃ bytes written, env.read c.input? = .ok bytes ∧ c.perform bytes = .ok written := by
  cases hi : c.input? with
  | none =>
    have hr : env.read none = .ok env.input := rfl
    obtain h | ⟨written, hp⟩ := c.refuses_or_exists hc env.input
    · exact .inl (.refused env.input (hi ▸ hr) h)
    · exact .inr ⟨env.input, written, hr, hp⟩
  | some path =>
    obtain ⟨fault, h⟩ | ⟨bytes, hb⟩ := error_or_ok (env.disk.read path)
    · exact .inl (.unread path fault hi h)
    have hr : env.read (some path) = .ok bytes := read_file_eq_ok_iff.2 hb
    obtain h | ⟨written, hp⟩ := c.refuses_or_exists hc bytes
    · exact .inl (.refused bytes (hi ▸ hr) h)
    · exact .inr ⟨bytes, written, hr, hp⟩

theorem Stops.exists_error (h : env.Stops c) :
    ∃ f, env.read c.input? >>= c.perform = .error f := by
  obtain ⟨f, hf⟩ | ⟨written, hw⟩ := error_or_ok (env.read c.input? >>= c.perform)
  · exact ⟨f, hf⟩
  obtain ⟨bytes, hr, hp⟩ := bind_eq_ok_iff.1 hw
  cases h with
  | unread path fault hc h =>
    rw [hc, read_file_eq_ok_iff] at hr
    cases h.symm.trans hr
  | refused bytes' hr' h =>
    cases hr'.symm.trans hr
    exact absurd hp h.perform_ne_ok

/-- A command that stops fails and leaves all as it was. -/
theorem runCommand_of_stops (hc : c.Converts) (h : env.Stops c) :
    ∃ f, env.runCommand c = env.fail f := by
  obtain ⟨f, hf⟩ := h.exists_error
  refine ⟨f, ?_⟩
  rw [runCommand_eq_conclude env hc, hf]
  rfl

/-- How a run of a command ends: it fails, since it stops or the disk refuses its file, or it
prints its output, or the disk takes its file. -/
theorem runCommand_cases (env : Environment) (hc : c.Converts) :
    (∃ f, env.runCommand c = env.fail f ∧ (env.Stops c ∨
      ∃ bytes written target fault, env.read c.input? = .ok bytes ∧
        c.perform bytes = .ok written ∧ c.output? = some target ∧
        env.disk.write target written = .error fault)) ∨
    ∃ bytes written, env.read c.input? = .ok bytes ∧ c.perform bytes = .ok written ∧
      ((c.output? = none ∧ env.runCommand c = env.succeed written) ∨
        ∃ target disk, c.output? = some target ∧ env.disk.write target written = .ok disk ∧
          env.runCommand c = { env with disk }.succeed []) := by
  obtain h | ⟨bytes, written, hr, hp⟩ := env.stops_or_exists hc
  · obtain ⟨f, hf⟩ := runCommand_of_stops hc h
    exact .inl ⟨f, hf, .inl h⟩
  cases ho : c.output? with
  | none => exact .inr ⟨bytes, written, hr, hp, .inl ⟨rfl, runCommand_of_print hc hr hp ho⟩⟩
  | some target =>
    obtain ⟨fault, h⟩ | ⟨disk, hw⟩ := error_or_ok (env.disk.write target written)
    · refine .inl ⟨⟨"Failed to write file: " ++ target, [fault.message]⟩, ?_,
        .inr ⟨bytes, written, target, fault, hr, hp, rfl, h⟩⟩
      rw [runCommand_eq_conclude env hc, bind_eq_ok_iff.2 ⟨bytes, hr, hp⟩, ho, conclude, h]
    · exact .inr ⟨bytes, written, hr, hp,
        .inr ⟨target, disk, rfl, hw, runCommand_of_write hc hr hp ho hw⟩⟩

/-- Whatever a command line asks for, a run that fails has changed nothing and printed nothing. -/
theorem run_of_failed (h : (env.run args).code ≠ 0) :
    (env.run args).output = [] ∧ (env.run args).disk = env.disk := by
  cases hargs : Request.read args with
  | help c =>
    rw [run, hargs] at h
    exact absurd rfl h
  | version =>
    rw [run, hargs] at h
    exact absurd rfl h
  | mistake =>
    rw [run, hargs]
    exact ⟨rfl, rfl⟩
  | run c =>
    rw [run, hargs] at h ⊢
    dsimp only at h ⊢
    by_cases hc : c.Converts
    · obtain ⟨f, hf, -⟩ | ⟨_, _, _, _, ⟨_, hends⟩ | ⟨_, disk, _, _, hends⟩⟩ :=
        env.runCommand_cases hc
      · rw [hf]
        exact ⟨rfl, rfl⟩
      · rw [hends] at h
        exact absurd rfl h
      · rw [hends] at h
        exact absurd rfl h
    · cases c with
      | list =>
        rw [runCommand] at h ⊢
        split at h
        · exact absurd rfl h
        · exact ⟨rfl, rfl⟩
      | _ => exact absurd trivial hc

end Environment

/-- All a run has done is to leave its output where it goes, and the disk is as it was but for
that. -/
def Outcome.OnlyLeft (o : Outcome) (d : Disk) (written : Bytes) : Option String → Prop
  | none => o.output = written ∧ o.disk = d
  | some target => o.output = [] ∧
      ∃ place, o.disk.locate target = .ok place ∧ d.ChangesAt o.disk place written

namespace Environment

variable {env : Environment} {c : Command} {args : List String} {input : String} {bytes : Bytes}

/-- A run that ends well did not stop, and has done no more than leave its output. -/
theorem exists_onlyLeft_of_runCommand (hc : c.Converts) (hcode : (env.runCommand c).code = 0) :
    ∃ bytes written, env.read c.input? = .ok bytes ∧ c.perform bytes = .ok written ∧
      (env.runCommand c).OnlyLeft env.disk written c.output? := by
  obtain ⟨f, hf, -⟩ | ⟨bytes, written, hr, hp, hends⟩ := env.runCommand_cases hc
  · rw [hf] at hcode
    cases hcode
  refine ⟨bytes, written, hr, hp, ?_⟩
  obtain ⟨ho, hrun⟩ | ⟨target, disk, ho, hw, hrun⟩ := hends
  · rw [hrun, ho]
    exact ⟨rfl, rfl⟩
  · obtain ⟨place, hplace, hchange, -⟩ := Disk.exists_changesAt_of_write hw
    rw [hrun, ho]
    exact ⟨rfl, place, hplace, hchange⟩

/-- The file a command reads is as it was, if the output goes elsewhere. -/
theorem read_runCommand (hc : c.Converts) (hread : env.disk.read input = .ok bytes)
    (hne : ∀ target, c.output? = some target → env.disk.locate target ≠ env.disk.locate input) :
    (env.runCommand c).disk.read input = .ok bytes := by
  obtain ⟨f, hf, -⟩ | ⟨_, _, _, _, ⟨_, hends⟩ | ⟨target, disk, ho, hw, hends⟩⟩ :=
    env.runCommand_cases hc
  · rw [hf]
    exact hread
  · rw [hends]
    exact hread
  · rw [hends]
    exact Disk.read_of_write_elsewhere hread hw (hne target ho)

/-- A run that fails has changed nothing and printed nothing, and a command that stops before it
writes fails. A command other than a listing fails only if it stops or the disk refuses the file it
writes last. If it ends well, it has printed its output or changed one file, where its output path
leads. So a file is as it was, the one the command reads among them, unless the output path leads
to that file. -/
theorem run_files :
    (∀ (env : Environment) (args : List String), (env.run args).code ≠ 0 →
      (env.run args).output = [] ∧ (env.run args).disk = env.disk) ∧
    ∀ (env : Environment) {args : List String} {c : Command}, Request.read args = .run c →
      c.Converts →
      (env.Stops c → (env.run args).code = 1) ∧
      ((env.run args).code ≠ 0 → env.Stops c ∨
        ∃ bytes written target fault, env.read c.input? = .ok bytes ∧
          c.perform bytes = .ok written ∧ c.output? = some target ∧
          env.disk.write target written = .error fault) ∧
      ((env.run args).code = 0 →
        ∃ bytes written, env.read c.input? = .ok bytes ∧ c.perform bytes = .ok written ∧
          (env.run args).OnlyLeft env.disk written c.output?) ∧
      ∀ input bytes, env.disk.read input = .ok bytes →
        (∀ target, c.output? = some target →
          env.disk.locate target ≠ env.disk.locate input) →
        (env.run args).disk.read input = .ok bytes := by
  refine ⟨fun env args => run_of_failed, fun env args c hargs hc => ?_⟩
  have hrun : env.run args = env.runCommand c := by rw [run, hargs]
  rw [hrun]
  refine ⟨fun hstops => ?_, fun hcode => ?_, exists_onlyLeft_of_runCommand hc,
    fun input bytes => read_runCommand hc⟩
  · obtain ⟨f, hf⟩ := runCommand_of_stops hc hstops
    rw [hf]
    rfl
  · obtain ⟨f, -, hwhy⟩ | ⟨_, _, _, _, ⟨_, hends⟩ | ⟨_, disk, _, _, hends⟩⟩ :=
      env.runCommand_cases hc
    · exact hwhy
    · rw [hends] at hcode
      exact absurd rfl hcode
    · rw [hends] at hcode
      exact absurd rfl hcode

/-- A working directory with a save file and a file that is none. -/
def saveEnvironment : Environment :=
  ⟨⟨.directory [("work", .directory [("f.save", .file [0xC3]), ("g.save", .file [0xC1])])],
    ["work"]⟩, [], []⟩

/-- The line that decodes a file into another. -/
def decodeLine (input output : String) : List String := ["decode", "-i", input, "-o", output]

theorem read_decodeLine_save : Request.read (decodeLine "f.save" "f.json") =
    .run (.decode (some "f.save") (some "f.json")) := by
  cbv

theorem read_decodeLine_other : Request.read (decodeLine "g.save" "f.json") =
    .run (.decode (some "g.save") (some "f.json")) := by
  cbv

theorem run_files_saveEnvironment :
    (saveEnvironment.run (decodeLine "g.save" "f.json")).code = 1 ∧
      (saveEnvironment.run (decodeLine "g.save" "f.json")).disk = saveEnvironment.disk ∧
      (saveEnvironment.run (decodeLine "f.save" "f.json")).disk.read "f.save" = .ok [0xC3] := by
  obtain ⟨hfailed, hconverted⟩ := run_files
  obtain ⟨hstops, -⟩ := hconverted saveEnvironment read_decodeLine_other trivial
  obtain ⟨-, -, -, hkept⟩ := hconverted saveEnvironment read_decodeLine_save trivial
  have hrefused : (Command.decode (some "g.save") (some "f.json")).Refuses [0xC1] :=
    .notSave trivial rfl
  have hcode := hstops (.refused [0xC1] rfl hrefused)
  refine ⟨hcode, (hfailed saveEnvironment _ ?_).2, hkept "f.save" [0xC3] rfl ?_⟩
  · rw [hcode]
    decide
  · rintro target ⟨⟩
    exact nofun

/-- Decoding a file can change it, even if the output is not given under the same path. -/
theorem not_forall_read_of_run_decode : ¬ ∀ (env : Environment) (args : List String)
    (input : String) (output : Option String) (bytes : Bytes),
    Request.read args = .run (.decode (some input) output) → output ≠ some input →
    env.disk.read input = .ok bytes → (env.run args).code = 0 →
    (env.run args).disk.read input = .ok bytes := by
  intro h
  have hargs : Request.read (decodeLine "f.save" "./f.save") =
      .run (.decode (some "f.save") (some "./f.save")) := by cbv
  have hperform : (Command.decode (some "f.save") (some "./f.save")).perform [0xC3] =
      .ok (Utf8.encode "true\n") := by rfl
  have hrun : saveEnvironment.run (decodeLine "f.save" "./f.save") =
      { saveEnvironment with disk := ⟨.directory [("work", .directory
        [("f.save", .file (Utf8.encode "true\n")), ("g.save", .file [0xC1])])], ["work"]⟩ }.succeed
        [] := by
    rw [run, hargs]
    exact runCommand_of_write trivial (read_file_eq_ok_iff.2 rfl) hperform rfl rfl
  have hkept := h saveEnvironment _ "f.save" (some "./f.save") [0xC3] hargs (by decide) rfl
    (by rw [hrun]; rfl)
  rw [hrun] at hkept
  cases hkept

end Environment

end SaveTree
