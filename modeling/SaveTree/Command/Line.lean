/-
  The command line.

  A command line names a command, its options and its arguments. An option takes one value,
  attached to it or as the next argument, and may be given once; two hyphens end the options.
  Reading goes from left to right and stops at a request for help or the first mistake.
-/

namespace SaveTree

/-- A command with its options and arguments. -/
inductive Command where
  | encode (input output : Option String)
  | decode (input output : Option String)
  | get (input : Option String) (path : String)
  | set (input output : Option String) (path value : String)
  | list (directory extension start : Option String)
  deriving DecidableEq

/-- The names of the commands. -/
inductive CommandName where
  | encode
  | decode
  | get
  | set
  | list
  deriving DecidableEq

/-- What a command line asks for. -/
inductive Request where
  | run (command : Command)
  | help (command : Option CommandName)
  | version
  | mistake
  deriving DecidableEq

/-- An option: its letter, its name, and whether its value may be empty. -/
structure OptionForm where
  letter : Option Char
  name : String
  mayBeEmpty : Bool

namespace CommandName

/-- The commands, in order. -/
def all : List CommandName := [encode, decode, get, set, list]

/-- The text of a name. -/
def text : CommandName → String
  | encode => "encode"
  | decode => "decode"
  | get => "get"
  | set => "set"
  | list => "list"

/-- The command of a text. -/
def ofText? (s : String) : Option CommandName := all.find? (·.text = s)

/-- The option for a file to read. -/
def inputForm : OptionForm := ⟨some 'i', "input", false⟩

/-- The option for a file to write. -/
def outputForm : OptionForm := ⟨some 'o', "output", false⟩

/-- The options of a command. -/
def options : CommandName → List OptionForm
  | encode | decode | set => [inputForm, outputForm]
  | get => [inputForm]
  | list => [⟨none, "dir", false⟩, ⟨none, "extension", true⟩, ⟨none, "prefix", true⟩]

/-- The most arguments of a command. -/
def maxArguments : CommandName → Nat
  | encode | decode | list => 0
  | get => 1
  | set => 2

end CommandName

/-- The options and arguments read so far. -/
structure Given where
  options : List (String × String)
  arguments : List String

namespace Given

/-- The value of an option. -/
def option? (g : Given) (name : String) : Option String := List.lookup name g.options

/-- One more argument, if the command takes as many. -/
def addArgument (c : CommandName) (g : Given) (s : String) : Option Given :=
  if g.arguments.length < c.maxArguments then
    some { g with arguments := g.arguments ++ [s] }
  else
    none

/-- One more option, if it is new and its value is allowed. -/
def addOption (g : Given) (o : OptionForm) (value : String) : Option Given :=
  if (g.option? o.name).isSome || (value = "" && !o.mayBeEmpty) then none
  else some { g with options := g.options ++ [(o.name, value)] }

/-- The command of what was given. -/
def command? (c : CommandName) (g : Given) : Option Command :=
  match c, g.arguments with
  | .encode, [] => some (.encode (g.option? "input") (g.option? "output"))
  | .decode, [] => some (.decode (g.option? "input") (g.option? "output"))
  | .get, [] => some (.get (g.option? "input") "")
  | .get, [path] => some (.get (g.option? "input") path)
  | .set, [path, value] => some (.set (g.option? "input") (g.option? "output") path value)
  | .list, [] => some (.list (g.option? "dir") (g.option? "extension") (g.option? "prefix"))
  | _, _ => none

end Given

/-- The ways an argument can be meant. -/
inductive Argument where
  | endOfOptions
  | long (name : String) (value : Option String)
  | short (letter : Char) (rest : List Char)
  | plain (text : String)

/-- The way an argument is meant before the options end. -/
def Argument.ofText (s : String) : Argument :=
  match s.toList with
  | ['-', '-'] => endOfOptions
  | '-' :: '-' :: cs =>
    let name := String.ofList (cs.takeWhile (· ≠ '='))
    match cs.dropWhile (· ≠ '=') with
    | [] => long name none
    | _ :: value => long name (some (String.ofList value))
  | '-' :: c :: cs => short c cs
  | _ => plain s

namespace Request

/-- The request of a command whose arguments have all been read. -/
def finish (c : CommandName) (g : Given) : Request :=
  match g.command? c with
  | some command => run command
  | none => mistake

/-- The request of a command whose options have ended. -/
def readPlain (c : CommandName) (g : Given) : List String → Request
  | [] => finish c g
  | s :: args =>
    match g.addArgument c s with
    | some g => readPlain c g args
    | none => mistake

/-- The text of an argument that can be the value of the option before it. -/
def separateValue? (s : String) : Option String :=
  match Argument.ofText s with
  | .plain text => some text
  | _ => none

/-- The value attached to an option letter. -/
def attachedValue? : List Char → Option String
  | [] => none
  | '=' :: cs => some (String.ofList cs)
  | cs => some (String.ofList cs)

/-- The request of a command from its options and arguments. -/
def readCommand (c : CommandName) (g : Given) : List String → Request
  | [] => finish c g
  | s :: args =>
    match Argument.ofText s with
    | .endOfOptions => readPlain c g args
    | .plain text =>
      match g.addArgument c text with
      | some g => readCommand c g args
      | none => mistake
    | .long name value =>
      if name = "help" then
        if value.isSome then mistake else help (some c)
      else
        match c.options.find? (·.name = name), value with
        | none, _ => mistake
        | some o, some value => withOption o value args
        | some o, none => withNext o args
    | .short letter rest =>
      if letter = 'h' then
        help (some c)
      else
        match c.options.find? (·.letter = some letter), attachedValue? rest with
        | none, _ => mistake
        | some o, some value => withOption o value args
        | some o, none => withNext o args
where
  /-- The request with an option and its value given. -/
  withOption (o : OptionForm) (value : String) (args : List String) : Request :=
    match g.addOption o value with
    | some g => readCommand c g args
    | none => mistake
  /-- The request with an option whose value is the next argument. -/
  withNext (o : OptionForm) : List String → Request
    | [] => mistake
    | s :: args =>
      match separateValue? s with
      | some value => withOption o value args
      | none => mistake

/-- The request for help on the command that some words name. -/
def readHelp : List String → Request
  | [] => help none
  | [s] => if s = "help" then help none else
    match CommandName.ofText? s with
    | some c => help (some c)
    | none => mistake
  | _ => mistake

/-- The request of a command line. -/
def read (args : List String) : Request :=
  match args with
  | [] => mistake
  | s :: args =>
    match Argument.ofText s with
    | .plain text =>
      if text = "help" then readHelp args
      else
        match CommandName.ofText? text with
        | some c => readCommand c ⟨[], []⟩ args
        | none => mistake
    | .long "help" none => help none
    | .long "version" none => version
    | .short 'h' _ => help none
    | .short 'V' _ => version
    | _ => mistake

end Request

end SaveTree
