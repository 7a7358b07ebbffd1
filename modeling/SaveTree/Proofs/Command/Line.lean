/-
  Command lines for one save file.

  An argument that is no option is taken as it stands (`Plain`). A line that names a command, a
  file and the command's arguments runs the command if all of these are plain, and otherwise it
  is a mistake, a request for help apart.
-/
import SaveTree.Command.Line

namespace SaveTree

/-- The argument is taken as it stands. -/
def Plain (s : String) : Prop := Argument.ofText s = .plain s

/-- The argument is a request for help on a command. -/
def AsksHelp (s : String) : Prop := s = "--help" ∨ ['-', 'h'] <+: s.toList

namespace Argument

theorem eq_help_of_long {cs : List Char} {s : String} (hs : s.toList = '-' :: '-' :: cs)
    (hname : String.ofList (cs.takeWhile (· ≠ '=')) = "help")
    (hvalue : cs.dropWhile (· ≠ '=') = []) : s = "--help" := by
  have hcs : cs.takeWhile (· ≠ '=') = cs := by
    have h := List.takeWhile_append_dropWhile (p := (· ≠ '=')) (l := cs)
    rwa [hvalue, List.append_nil] at h
  rw [hcs] at hname
  have hhelp : cs = "help".toList := by rw [← hname, String.toList_ofList]
  rw [← String.toList_inj, hs, hhelp]
  rfl

/-- An argument that is not plain ends the options or is an option. -/
theorem ofText_cases (s : String) : Plain s ∨ ofText s = .endOfOptions ∨
    (∃ name value, ofText s = .long name value ∧ (name = "help" → value = none → AsksHelp s)) ∨
    ∃ letter rest, ofText s = .short letter rest ∧ (letter = 'h' → AsksHelp s) := by
  unfold Plain ofText
  split
  · exact .inr (.inl rfl)
  · next cs _ hs =>
    refine .inr (.inr (.inl ?_))
    dsimp only
    split
    · next hvalue =>
      exact ⟨_, none, rfl, fun hname _ => .inl (eq_help_of_long hs hname hvalue)⟩
    · exact ⟨_, some _, rfl, nofun⟩
  · next c cs _ _ hs =>
    refine .inr (.inr (.inr ⟨c, cs, rfl, ?_⟩))
    rintro rfl
    exact .inr ⟨cs, hs.symm⟩
  · exact .inl rfl

end Argument

namespace Request

variable {c : CommandName} {g : Given} {f p j s : String} {args : List String}

/-! ## One argument -/

theorem readCommand_of_plain (hs : Plain s) (hg : g.arguments.length < c.maxArguments) :
    readCommand c g (s :: args) =
      readCommand c { g with arguments := g.arguments ++ [s] } args := by
  rw [readCommand, hs]
  dsimp only
  rw [Given.addArgument, if_pos hg]

theorem readPlain_of_lt (hg : g.arguments.length < c.maxArguments) :
    readPlain c g (s :: args) = readPlain c { g with arguments := g.arguments ++ [s] } args := by
  rw [readPlain, Given.addArgument, if_pos hg]

/-- An argument that is not plain is a mistake, or the rest of the line is read as plain, as the
options go on, or as an option's value. -/
theorem readCommand_of_not_plain (c : CommandName) (g : Given) (hs : ¬ Plain s)
    (hh : ¬ AsksHelp s) (args : List String) : readCommand c g (s :: args) = .mistake ∨
      readCommand c g (s :: args) = readPlain c g args ∨
      (∃ o v, readCommand c g (s :: args) = readCommand.withOption c g o v args) ∨
      ∃ o, readCommand c g (s :: args) = readCommand.withNext c g o args := by
  rw [readCommand]
  obtain hp | he | ⟨name, value, hl, hn⟩ | ⟨letter, rest, hl, hn⟩ := Argument.ofText_cases s
  · exact absurd hp hs
  · rw [he]
    exact .inr (.inl rfl)
  · rw [hl]
    dsimp only
    split
    · next hname =>
      split
      · exact .inl rfl
      · next hvalue => exact absurd (hn hname (by simpa using hvalue)) hh
    · split
      · exact .inl rfl
      · exact .inr (.inr (.inl ⟨_, _, rfl⟩))
      · exact .inr (.inr (.inr ⟨_, rfl⟩))
  · rw [hl]
    dsimp only
    rw [if_neg fun h => hh (hn h)]
    split
    · exact .inl rfl
    · exact .inr (.inr (.inl ⟨_, _, rfl⟩))
    · exact .inr (.inr (.inr ⟨_, rfl⟩))

/-! ## Lines with too few arguments -/

theorem finish_set_of_lt (hg : g.arguments.length < 2) : finish .set g = .mistake := by
  obtain ⟨options, arguments⟩ := g
  unfold finish Given.command?
  rcases arguments with _ | ⟨p, _ | ⟨j, rest⟩⟩
  · rfl
  · rfl
  · rw [List.length_cons, List.length_cons] at hg
    omega

theorem withOption_set_nil (hg : g.arguments.length < 2) (o : OptionForm) (v : String) :
    readCommand.withOption .set g o v [] = .mistake := by
  rw [readCommand.withOption]
  split
  · next g' hg' =>
    unfold Given.addOption at hg'
    split at hg' <;> cases hg'
    rw [readCommand]
    exact finish_set_of_lt hg
  · rfl

theorem readCommand_set_singleton (hg : g.arguments = []) (hh : ¬ AsksHelp s) :
    readCommand .set g [s] = .mistake := by
  by_cases hs : Plain s
  · rw [readCommand_of_plain hs (by rw [hg]; decide), readCommand]
    exact finish_set_of_lt (by simp [hg])
  · obtain h | h | ⟨o, v, h⟩ | ⟨o, h⟩ := readCommand_of_not_plain .set g hs hh []
    · exact h
    · rw [h, readPlain]
      exact finish_set_of_lt (by rw [hg]; decide)
    · rw [h]
      exact withOption_set_nil (by rw [hg]; decide) o v
    · rw [h, readCommand.withNext]

theorem withOption_set_singleton (hg : g.arguments = []) (hh : ¬ AsksHelp s) (o : OptionForm)
    (v : String) : readCommand.withOption .set g o v [s] = .mistake := by
  rw [readCommand.withOption]
  split
  · next g' hg' =>
    unfold Given.addOption at hg'
    split at hg' <;> cases hg'
    exact readCommand_set_singleton hg hh
  · rfl

/-- Two arguments of which one is not plain are not enough. -/
theorem readCommand_set_pair (hg : g.arguments = []) (hp : ¬ AsksHelp p) (hj : ¬ AsksHelp j)
    (h : ¬ (Plain p ∧ Plain j)) : readCommand .set g [p, j] = .mistake := by
  by_cases hs : Plain p
  · have hj' : ¬ Plain j := fun hj' => h ⟨hs, hj'⟩
    rw [readCommand_of_plain hs (by rw [hg]; decide)]
    obtain h | h | ⟨o, v, h⟩ | ⟨o, h⟩ := readCommand_of_not_plain .set _ hj' hj []
    · exact h
    · rw [h, readPlain]
      exact finish_set_of_lt (by simp [hg])
    · rw [h]
      exact withOption_set_nil (by simp [hg]) o v
    · rw [h, readCommand.withNext]
  · obtain h | h | ⟨o, v, h⟩ | ⟨o, h⟩ := readCommand_of_not_plain .set g hs hp [j]
    · exact h
    · rw [h, readPlain_of_lt (by rw [hg]; decide), readPlain]
      exact finish_set_of_lt (by simp [hg])
    · rw [h]
      exact withOption_set_singleton hg hj o v
    · rw [h, readCommand.withNext]
      split
      · exact withOption_set_nil (by rw [hg]; decide) o _
      · rfl

/-! ## Whole lines -/

theorem separateValue?_eq_some_iff {v : String} :
    separateValue? s = some v ↔ Plain s ∧ v = s := by
  unfold separateValue? Plain
  obtain hp | he | ⟨name, value, hl, -⟩ | ⟨letter, rest, hl, -⟩ := Argument.ofText_cases s
  · rw [hp]
    simp [eq_comm]
  · rw [he]
    simp
  · rw [hl]
    simp
  · rw [hl]
    simp

theorem withNext_input_of_plain (c : CommandName) (hf : Plain f) (hne : f ≠ "")
    (args : List String) :
    readCommand.withNext c ⟨[], []⟩ CommandName.inputForm (f :: args) =
      readCommand c ⟨[("input", f)], []⟩ args := by
  rw [readCommand.withNext, separateValue?_eq_some_iff.2 ⟨hf, rfl⟩]
  dsimp only
  rw [readCommand.withOption, Given.addOption, if_neg (by simp [hne, Given.option?])]
  rfl

theorem withNext_input_of_not (c : CommandName) (h : ¬ (Plain f ∧ f ≠ "")) (args : List String) :
    readCommand.withNext c ⟨[], []⟩ CommandName.inputForm (f :: args) = .mistake := by
  rw [readCommand.withNext]
  split
  · next v hv =>
    obtain ⟨hf, rfl⟩ := separateValue?_eq_some_iff.1 hv
    have hempty : v = "" := Classical.byContradiction fun hne => h ⟨hf, hne⟩
    rw [readCommand.withOption, Given.addOption, if_pos (by simp [hempty, CommandName.inputForm])]
  · rfl

theorem read_input_set (args : List String) : read ("set" :: "-i" :: args) =
    readCommand.withNext .set ⟨[], []⟩ CommandName.inputForm args := by
  have hset : read ("set" :: "-i" :: args) = readCommand .set ⟨[], []⟩ ("-i" :: args) := rfl
  rw [hset, readCommand]
  rfl

theorem read_input_get (args : List String) : read ("get" :: "-i" :: args) =
    readCommand.withNext .get ⟨[], []⟩ CommandName.inputForm args := by
  have hget : read ("get" :: "-i" :: args) = readCommand .get ⟨[], []⟩ ("-i" :: args) := rfl
  rw [hget, readCommand]
  rfl

theorem read_get (hf : Plain f) (hne : f ≠ "") (hp : Plain p) :
    read ["get", "-i", f, p] = .run (.get (some f) p) := by
  rw [read_input_get, withNext_input_of_plain .get hf hne,
    readCommand_of_plain hp (by exact Nat.zero_lt_one), readCommand]
  rfl

theorem read_set (hf : Plain f) (hne : f ≠ "") (hp : Plain p) (hj : Plain j) :
    read ["set", "-i", f, p, j] = .run (.set (some f) none p j) := by
  rw [read_input_set, withNext_input_of_plain .set hf hne,
    readCommand_of_plain hp (by exact Nat.zero_lt_two),
    readCommand_of_plain hj (by exact Nat.one_lt_two), readCommand]
  rfl

/-- A line to write to a file is a mistake unless all its arguments are plain. -/
theorem read_set_of_not (hp : ¬ AsksHelp p) (hj : ¬ AsksHelp j)
    (h : ¬ ((Plain f ∧ f ≠ "") ∧ Plain p ∧ Plain j)) :
    read ["set", "-i", f, p, j] = .mistake := by
  rw [read_input_set]
  by_cases hf : Plain f ∧ f ≠ ""
  · rw [withNext_input_of_plain .set hf.1 hf.2]
    exact readCommand_set_pair rfl hp hj fun hpj => h ⟨hf, hpj⟩
  · exact withNext_input_of_not .set hf _

end Request

end SaveTree
