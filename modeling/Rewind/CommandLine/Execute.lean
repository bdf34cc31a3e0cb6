/-
Commands carried out.

* `Report` — what a command prints and whether it succeeded;
* `tokenLine` — a token as a line of JSON;
* `Invocation.execute` — the report of a command.
-/
import Rewind.CommandLine
import Rewind.Session
import Rewind.Settings
import Rewind.Text.Json
import Rewind.Token.Stream

namespace Rewind

/-- What a command prints, and what it has to complain about if it failed. -/
structure Report where
  output : String := ""
  complaint : Option String := none

namespace Report

/-- A report of success. -/
def ofOutput (output : String) : Report := { output }

/-- A report of something that went wrong before any program ran. -/
def ofError (message : String) : Report := { complaint := some ("Error: " ++ message) }

/-- The report of a run. -/
def ofRun (output : String) : Except Fault Unit → Report
  | .ok () => { output }
  | .error (.failure f) => { output, complaint := some f.display }
  | .error .exhausted => { output, complaint := some "Error: Out of fuel" }

end Report

/-- A position as a JSON object. -/
def positionJson (p : Position) : String :=
  "\x7b\"source_id\":" ++ toString p.source ++ ",\"offset\":" ++ toString p.offset ++
    ",\"line\":" ++ toString p.line ++ ",\"column\":" ++ toString p.column ++ "\x7d"

/-- A token as a line of JSON. -/
def tokenLine (t : Token) : String :=
  "\x7b\"kind\":" ++ Text.jsonString t.kind.name ++ ",\"text\":" ++ Text.jsonString t.text ++
    ",\"start\":" ++ positionJson t.start ++ ",\"end\":" ++ positionJson t.stop ++ "\x7d\n"

namespace Invocation

/-- The text of a file, or the report that there is none. -/
def fileText (files : FileTree) (path : String) : Except Report String :=
  (files.readText path).mapError fun _ => .ofError s!"Cannot read '{path}'"

/-- The report of a program. -/
def runProgram (files : FileTree) (settings : Settings) (path text : String) : Report :=
  let environment : Environment :=
    { maxCallDepth := settings.maxCallDepth, home := settings.home
      searchPaths := settings.searchPaths, files }
  let start := { Machine.new environment with directory := Path.parent? path }
  let (result, m) := start.runSource text
  .ofRun m.output result

/-- The report of the tokens of a text. -/
def listTokens (text : String) : Report :=
  match tokenize ⟨0, text.toList⟩ with
  | .ok tokens => .ofOutput (String.join (tokens.map tokenLine))
  | .error fault => { complaint := some (Failure.ofLex fault).display }

/-- What the options ask for directly. -/
def overrides (i : Invocation) : Overrides :=
  { configPath := i.config, maxCallDepth := i.maxCallDepth, logLevel := i.logLevel }

/-- Carries out a command under given settings. -/
def executeWith (files : FileTree) (settings : Settings) : Command → Except Report Report
  | .run path => return runProgram files settings path (← fileText files path)
  | .tokens path => return listTokens (← fileText files path)
  | .config => (settings.toToml?.map .ofOutput).mapError (.ofError ·.message)

/-- Carries out a command. -/
def execute (files : FileTree) (env : Variables) (i : Invocation) : Report :=
  match Settings.load files env i.overrides with
  | .error issue => .ofError issue.message
  | .ok settings =>
    match executeWith files settings i.command with
    | .ok report | .error report => report

end Invocation

end Rewind
