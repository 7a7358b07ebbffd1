/-
  Runs that end well.

  A command other than a listing reads its input, makes its output of the bytes and lets them go
  where its output goes. A run that ends well has done all three, and one whose input, output and
  disk allow it does.
-/
import SaveTree.Command.Run
import SaveTree.Proofs.Storage.Adapter

namespace SaveTree

/-- The command makes its output of the bytes it reads, as all but a listing do. -/
def Command.Converts : Command → Prop
  | list .. => False
  | encode .. | decode .. | get .. | set .. => True

/-- The run leaves the bytes where its output goes: in a file, or else as what it prints. -/
def Outcome.Left (o : Outcome) (bytes : Bytes) : Option String → Prop
  | none => o.output = bytes
  | some f => o.disk.read f = .ok bytes

namespace Environment

/-- What the next line runs against. -/
def after (env : Environment) (args : List String) : Environment :=
  { env with disk := (env.run args).disk }

variable {env : Environment} {c : Command} {bytes output : Bytes} {f : String} {d : Disk}

theorem read_file_eq_ok_iff : env.read (some f) = .ok bytes ↔ env.disk.read f = .ok bytes := by
  unfold read
  exact mapError_eq_ok_iff

/-- How a run ends, by what was made of its input and where that goes. -/
def conclude (env : Environment) (target : Option String) : Except Failure Bytes → Outcome
  | .error failure => env.fail failure
  | .ok output =>
    match target with
    | none => env.succeed output
    | some f =>
      match env.disk.write f output with
      | .ok disk => { env with disk }.succeed []
      | .error fault => env.fail ⟨"Failed to write file: " ++ f, [fault.message]⟩

theorem runCommand_eq_conclude (env : Environment) (hc : c.Converts) :
    env.runCommand c = env.conclude c.output? (env.read c.input? >>= c.perform) := by
  cases c with
  | list => exact hc.elim
  | _ => rfl

/-- A command that has no file to write prints its output. -/
theorem runCommand_of_print (hc : c.Converts) (hr : env.read c.input? = .ok bytes)
    (hp : c.perform bytes = .ok output) (ho : c.output? = none) :
    env.runCommand c = env.succeed output := by
  rw [runCommand_eq_conclude env hc, bind_eq_ok_iff.2 ⟨bytes, hr, hp⟩, ho]
  rfl

/-- A command that has a file to write leaves its output there. -/
theorem runCommand_of_write (hc : c.Converts) (hr : env.read c.input? = .ok bytes)
    (hp : c.perform bytes = .ok output) (ho : c.output? = some f)
    (hw : env.disk.write f output = .ok d) :
    env.runCommand c = { env with disk := d }.succeed [] := by
  rw [runCommand_eq_conclude env hc, bind_eq_ok_iff.2 ⟨bytes, hr, hp⟩, ho, conclude, hw]

theorem exists_left_of_conclude {target : Option String} {made : Except Failure Bytes}
    (hcode : (env.conclude target made).code = 0) :
    ∃ output, made = .ok output ∧ (env.conclude target made).Left output target := by
  unfold conclude at hcode ⊢
  split at hcode
  · cases hcode
  next output =>
  refine ⟨output, rfl, ?_⟩
  split at hcode
  · exact rfl
  next f =>
  split at hcode
  · next disk hw => exact Disk.read_of_write hw
  · cases hcode

/-- A run that ends well has read its input and left the output made of it. -/
theorem exists_left_of_runCommand (hc : c.Converts) (hcode : (env.runCommand c).code = 0) :
    ∃ bytes output, env.read c.input? = .ok bytes ∧ c.perform bytes = .ok output ∧
      (env.runCommand c).Left output c.output? := by
  rw [runCommand_eq_conclude env hc] at hcode ⊢
  obtain ⟨output, hmade, hleft⟩ := exists_left_of_conclude hcode
  obtain ⟨bytes, hr, hp⟩ := bind_eq_ok_iff.1 hmade
  exact ⟨bytes, output, hr, hp, hleft⟩

end Environment

end SaveTree
