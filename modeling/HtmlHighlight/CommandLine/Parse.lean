import HtmlHighlight.Ansi.Printable
import HtmlHighlight.CommandLine.Grammar
import HtmlHighlight.Source.Basic

/-!
# Reading the command line

Arguments are read one after the other, first those of the program itself and, once a command is named,
those of the command. A switch is settled when the next argument that is not its value is read, so a value
that is missing or given twice is noticed only then; an argument that cannot be one at all is noticed at
once. After `--` every argument is an operand.
-/

namespace HtmlHighlight.CommandLine

/-- What is wrong with a command line. -/
inductive UsageError where
  | unexpectedArgument (argument : Text)
  | unexpectedValue (value : Text) (s : Switch)
  | repeatedSwitch (s : Switch)
  | missingValue (s : Switch)
  | missingSource
  | unknownCommand (word : Text)
  deriving DecidableEq, Repr

namespace UsageError

/-- An argument between quotes, without what could steer a terminal. -/
def quoted (argument : Text) : Text :=
  '\'' :: Ansi.stripControls argument ++ ['\'']

/-- What is wrong, in words. -/
def message : UsageError → Text
  | unexpectedArgument argument => "unexpected argument ".toList ++ quoted argument ++ " found".toList
  | unexpectedValue value s =>
    "unexpected value ".toList ++ quoted value ++ " for ".toList ++ quoted s.display ++
      " found; no more were expected".toList
  | repeatedSwitch s =>
    "the argument ".toList ++ quoted s.display ++ " cannot be used multiple times".toList
  | missingValue s =>
    "a value is required for ".toList ++ quoted s.display ++ " but none was supplied".toList
  | missingSource =>
    "the following required arguments were not provided:\n  ".toList ++ operandName.toList
  | unknownCommand word => "unrecognized subcommand ".toList ++ quoted word

end UsageError

/-- What the program is asked to do. -/
inductive Task where
  /-- Say how the program is called. -/
  | hint
  | help (c? : Option Command)
  | version (c? : Option Command)
  | highlight (wrap : Bool) (source : Source)
  | page (title? : Option Text) (source : Source)
  | preview (raw : Bool) (source : Source)
  | stylesheet
  deriving DecidableEq, Repr

/-- The source that a task reads. -/
def Task.source? : Task → Option Source
  | highlight _ source => some source
  | page _ source => some source
  | preview _ source => some source
  | _ => none

/-- A task, and whether to keep a log of it. -/
structure Invocation where
  debug : Bool
  task : Task
  deriving DecidableEq, Repr

/-- Why no further argument is read: help or the version is asked for, or something is wrong. -/
inductive Stop where
  | help
  | version
  | failed (e : UsageError)
  deriving DecidableEq, Repr

/-- What the arguments read so far say. -/
structure Reading where
  /-- The switches without a value that have been read. -/
  flags : List Switch := []
  /-- The values that are settled. -/
  values : List (Switch × Text) := []
  /-- A switch that waits for its value, or has it and is not settled. -/
  pending? : Option (Switch × Option Text) := none
  /-- The operand. -/
  operand? : Option Text := none
  /-- Whether all further arguments are operands. -/
  operandsOnly : Bool := false

namespace Reading

/-- Settles the switch that is pending. -/
def settle (r : Reading) : Except Stop Reading :=
  match r.pending? with
  | none => .ok r
  | some (s, none) => .error (.failed (.missingValue s))
  | some (s, some value) =>
    if (r.values.lookup s).isSome then .error (.failed (.repeatedSwitch s))
    else .ok { r with pending? := none, values := (s, value) :: r.values }

/-- Reads a switch that takes no value. -/
def turnOn (s : Switch) (r : Reading) : Except Stop Reading := do
  let r ← r.settle
  match s with
  | .help => throw .help
  | .version => throw .version
  | s =>
    if s ∈ r.flags then throw (.failed (.repeatedSwitch s))
    else return { r with flags := s :: r.flags }

/-- Reads a switch by its long name, with the value that an equal sign ties to it. -/
def longSwitch (known : List Switch) (name : Text) (value? : Option Text) (r : Reading) :
    Except Stop Reading :=
  match known.find? fun s => s.name.toList == name with
  | none => throw (.failed (.unexpectedArgument ('-' :: '-' :: name)))
  | some s =>
    if s.takesValue then do
      let r ← r.settle
      match value? with
      | none => return { r with pending? := some (s, none) }
      | some value => settle { r with pending? := some (s, some value) }
    else match value? with
      | some value => throw (.failed (.unexpectedValue value s))
      | none => r.turnOn s

/-- Reads a switch by its letter. -/
def letterSwitch (known : List Switch) (r : Reading) (letter : Char) : Except Stop Reading :=
  match known.find? fun s => s.letter? == some letter with
  | none => throw (.failed (.unexpectedArgument ['-', letter]))
  | some s => r.turnOn s

/-- Reads an operand. The program itself has none: what stands there should have been a command, and after
`--` not even that. -/
def operand (c? : Option Command) (argument : Text) (r : Reading) : Except Stop Reading :=
  match c? with
  | none =>
    if r.operandsOnly ∧ (Command.ofName? argument).isSome then
      throw (.failed (.unexpectedArgument argument))
    else throw (.failed (.unknownCommand argument))
  | some c =>
    if c.takesSource ∧ r.operand?.isNone then do
      let r ← r.settle
      return { r with operand? := some argument }
    else throw (.failed (.unexpectedArgument argument))

/-- The name in a long switch and the value after its first equal sign. -/
def splitValue (body : Text) : Text × Option Text :=
  match Text.cutAt? ['='] body with
  | some (name, value) => (name, some value)
  | none => (body, none)

/-- Reads one argument. -/
def argument (c? : Option Command) (r : Reading) (argument : Text) : Except Stop Reading :=
  if r.operandsOnly then r.operand c? argument
  else match argument with
    | ['-', '-'] => return { r with operandsOnly := true }
    | '-' :: '-' :: body => r.longSwitch (switches c?) (splitValue body).1 (splitValue body).2
    | '-' :: letter :: letters => (letter :: letters).foldlM (letterSwitch (switches c?)) r
    | argument =>
      match r.pending? with
      | some (s, none) => return { r with pending? := some (s, some argument) }
      | _ => r.operand c? argument

/-- Reads the arguments of a command to their end. -/
def arguments (c : Command) (args : List Text) : Except Stop Reading := do
  let r ← args.foldlM (argument (some c)) {}
  let r ← r.settle
  if c.takesSource ∧ r.operand?.isNone then throw (.failed .missingSource)
  return r

/-- The task that the arguments of a command ask for. -/
def task (c : Command) (r : Reading) : Task :=
  let source := Source.ofOperand (r.operand?.getD [])
  match c with
  | .highlight => .highlight (.wrap ∈ r.flags) source
  | .page => .page (r.values.lookup .title) source
  | .preview => .preview (.rawControlChars ∈ r.flags) source
  | .stylesheet => .stylesheet

end Reading

/-- A command line that says what to do, or is wrong. An error knows the command it arose in. -/
abbrev ParseResult := Except (Option Command × UsageError) Invocation

/-- What a command line asks for when reading it has stopped early. -/
def Stop.result (c? : Option Command) : Stop → ParseResult
  | help => .ok ⟨false, .help c?⟩
  | version => .ok ⟨false, .version c?⟩
  | failed e => .error (c?, e)

/-- Reads the arguments of a command. -/
def parseCommand (debug : Bool) (c : Command) (args : List Text) : ParseResult :=
  match Reading.arguments c args with
  | .error stop => stop.result (some c)
  | .ok r => .ok ⟨debug || .debug ∈ r.flags, r.task c⟩

/-- Reads arguments up to a command, and then those of the command. -/
def parseFrom (r : Reading) : List Text → ParseResult
  | [] => .ok ⟨.debug ∈ r.flags, .hint⟩
  | argument :: rest =>
    match if r.operandsOnly then none else Command.ofName? argument with
    | some c => parseCommand (.debug ∈ r.flags) c rest
    | none =>
      match r.argument none argument with
      | .error stop => stop.result none
      | .ok r => parseFrom r rest

/-- Reads a command line. -/
def parse (args : List Text) : ParseResult :=
  parseFrom {} args

end HtmlHighlight.CommandLine
