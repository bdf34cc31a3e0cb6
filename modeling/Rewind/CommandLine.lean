/-
The command line.

A command is `run FILE`, `tokens FILE` or `config`.  Options may stand in front of the command and
among its arguments; there the later place wins.  The value of an option or an argument is checked
when the next one begins, or when the arguments end, so that of several mistakes the first one that
can be told is reported; what stands in front of the command is checked after the command.

* `Command`, `Invocation` — what is asked for;
* `UsageIssue` — why arguments are none of these;
* `Level` — the values given so far in front of the command, or behind it;
* `Invocation.ofArguments` — the reading of all arguments.
-/
import Rewind.Text.Numeral

namespace Rewind

/-- What is to be done. -/
inductive Command where
  | run (file : String)
  | tokens (file : String)
  | config
  deriving DecidableEq

/-- A command and its options. -/
structure Invocation where
  command : Command
  config : Option String := none
  logLevel : Option String := none
  maxCallDepth : Option Nat := none
  deriving DecidableEq

/-- Why arguments cannot be read, or that help is asked for instead. -/
inductive UsageIssue where
  | help
  | nothingGiven
  | missingCommand
  | unknownCommand
  | unknownArgument
  | missingArgument
  | missingValue
  | badValue
  | unexpectedValue
  | repeated
  deriving DecidableEq

namespace CommandLine

/-- What a value can be given for: an option, or the file of a command. -/
inductive Slot where
  | config
  | logLevel
  | maxCallDepth
  | file
  deriving DecidableEq

namespace Slot

/-- The option of a name. -/
def ofName? : String → Option Slot
  | "config" => some config
  | "log-level" => some logLevel
  | "max-call-depth" => some maxCallDepth
  | _ => none

/-- Checks a value: a path is not empty, and a depth is a number. -/
def check (slot : Slot) (value : String) : Except UsageIssue Unit :=
  match slot with
  | config | file => if value.isEmpty then .error .missingValue else .ok ()
  | logLevel => .ok ()
  | maxCallDepth => if (Text.natural64? value.toList).isSome then .ok () else .error .badValue

end Slot

/-- The values given on one side of the command: those checked, and the one that is still open,
which may not have been given yet. -/
structure Level where
  values : List (Slot × String) := []
  pending : Option (Slot × Option String) := none

namespace Level

/-- An option waits for its value. -/
def isWaiting (l : Level) : Bool := l.pending matches some (_, none)

/-- Checks a value and keeps it. -/
def accept (l : Level) (slot : Slot) (value : String) : Except UsageIssue Level := do
  if (l.values.lookup slot).isSome then throw .repeated
  slot.check value
  return { values := (slot, value) :: l.values }

/-- Checks the value that is still open. -/
def settle (l : Level) : Except UsageIssue Level :=
  match l.pending with
  | none => .ok l
  | some (_, none) => .error .missingValue
  | some (slot, some value) => { l with pending := none }.accept slot value

/-- Opens a slot, with its value if that is there already. -/
def begin (l : Level) (slot : Slot) (value : Option String) : Except UsageIssue Level := do
  return { ← l.settle with pending := some (slot, value) }

/-- The value the open slot has waited for. -/
def provide (l : Level) (value : String) : Level :=
  { l with pending := l.pending.map fun (slot, _) => (slot, some value) }

end Level

/-- An argument that starts with two dashes: an option, with its value if that is attached. -/
def longOption (l : Level) (text : List Char) : Except UsageIssue Level :=
  let name := String.ofList (text.takeWhile (· != '='))
  let attached := (text.dropWhile (· != '=')).tail?.map String.ofList
  match Slot.ofName? name, attached with
  | some slot, some value => do (← l.settle).accept slot value
  | some slot, none => l.begin slot none
  | none, none =>
    if name = "help" then do
      let _ ← l.settle
      throw .help
    else throw .unknownArgument
  | none, some _ => throw (if name = "help" then .unexpectedValue else .unknownArgument)

/-- An argument that starts with one dash: only help has a short name. -/
def shortOption (l : Level) (text : List Char) : Except UsageIssue Level := do
  if text.head? ≠ some 'h' then throw .unknownArgument
  let _ ← l.settle
  throw .help

/-- What an argument is, by its first characters. -/
inductive Shape where
  | divider
  | long (text : List Char)
  | short (text : List Char)
  | plain

/-- Two dashes on their own divide; a single one is a plain argument. -/
def shape (arg : String) : Shape :=
  match arg.toList with
  | ['-', '-'] => .divider
  | '-' :: '-' :: text => .long text
  | '-' :: c :: text => .short (c :: text)
  | _ => .plain

/-- A plain argument of a command, which has a file or not. -/
def positional (takesFile : Bool) (l : Level) (arg : String) : Except UsageIssue Level :=
  let given := (l.values.lookup .file).isSome || l.pending.any (·.1 == .file)
  if !takesFile || given then throw .unknownArgument else l.begin .file (some arg)

/-- The arguments behind a command; behind a divider all are plain. -/
def commandArguments (takesFile : Bool) : Bool → Level → List String → Except UsageIssue Level
  | _, l, [] => l.settle
  | true, l, arg :: rest => do
    commandArguments takesFile true (← positional takesFile l arg) rest
  | false, l, arg :: rest =>
    match shape arg with
    | .divider => commandArguments takesFile true l rest
    | .long text => do commandArguments takesFile false (← longOption l text) rest
    | .short text => do commandArguments takesFile false (← shortOption l text) rest
    | .plain =>
      if l.isWaiting then commandArguments takesFile false (l.provide arg) rest
      else do commandArguments takesFile false (← positional takesFile l arg) rest

/-- The names of the commands. -/
def commandNames : List String := ["run", "tokens", "config"]

/-- `help`, alone or with the name of one command. -/
def helpCommand : List String → UsageIssue
  | [] => .help
  | [name] => if commandNames.contains name || name = "help" then .help else .unknownCommand
  | _ => .unknownCommand

/-- The file given to a command. -/
def fileOf (inner : Level) : Except UsageIssue String :=
  match inner.values.lookup .file with
  | some file => .ok file
  | none => .error .missingArgument

/-- The command of a name, with the values behind it. -/
def commandOf (name : String) (inner : Level) : Except UsageIssue Command :=
  match name with
  | "run" => (fileOf inner).map .run
  | "tokens" => (fileOf inner).map .tokens
  | _ => .ok .config

/-- A command and its options; an option behind the command wins over one in front of it. -/
def invocation (command : Command) (outer inner : Level) : Invocation :=
  let value (slot : Slot) := (inner.values.lookup slot).orElse fun _ => outer.values.lookup slot
  { command
    config := value .config
    logLevel := value .logLevel
    maxCallDepth := (value .maxCallDepth).bind (Text.natural64? ·.toList) }

/-- The command of a name and the arguments behind it, and then the values in front of it. -/
def command (outer : Level) (name : String) (rest : List String) :
    Except UsageIssue Invocation := do
  let inner ← commandArguments (name ≠ "config") false {} rest
  let command ← commandOf name inner
  return invocation command (← outer.settle) inner

/-- Arguments that end without a command. -/
def noCommand (outer : Level) : Except UsageIssue Invocation := do
  if (← outer.settle).values.isEmpty then throw .nothingGiven else throw .missingCommand

/-- The first plain argument behind a divider, where no command can stand. -/
def strayArgument (arg : String) : UsageIssue :=
  if commandNames.contains arg || arg = "help" then .unknownArgument else .unknownCommand

/-- The arguments in front of the command and from it on. -/
def arguments : Level → List String → Except UsageIssue Invocation
  | outer, [] => noCommand outer
  | outer, arg :: rest =>
    if !outer.isWaiting && arg = "help" then throw (helpCommand rest)
    else if !outer.isWaiting && commandNames.contains arg then command outer arg rest
    else match shape arg with
      | .divider =>
        match rest with
        | [] => noCommand outer
        | stray :: _ => throw (strayArgument stray)
      | .long text => do arguments (← longOption outer text) rest
      | .short text => do arguments (← shortOption outer text) rest
      | .plain =>
        if outer.isWaiting then arguments (outer.provide arg) rest else throw .unknownCommand

end CommandLine

namespace Invocation

/-- What the arguments of the program ask for. -/
def ofArguments (args : List String) : Except UsageIssue Invocation := CommandLine.arguments {} args

end Invocation

end Rewind
