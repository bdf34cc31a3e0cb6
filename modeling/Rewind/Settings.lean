/-
Settings.

Settings are put together from layers: what is built in, a file, the environment, and what is asked
for directly, each winning over the ones before it.  The directories searched for modules add up
instead.

* `Settings` — the settings of a run;
* `SettingsIssue` — why there are none;
* `Overrides` — what is asked for directly;
* `Settings.load` — the settings from all layers;
* `Settings.toToml?` — settings as a text to be read back.
-/
import Rewind.Files
import Rewind.Settings.Layer
import Rewind.Settings.Toml

namespace Rewind

/-- The settings of a run. -/
structure Settings where
  maxCallDepth : Nat := 512
  home : Option String := none
  searchPaths : List String := []
  logLevel : String := "warn"
  deriving DecidableEq

/-- Why settings cannot be put together or written. -/
inductive SettingsIssue where
  | fileNotFound (path : String)
  | unreadable
  | invalid
  | zeroDepth
  | unwritable

namespace SettingsIssue

def message : SettingsIssue → String
  | fileNotFound path => s!"Config file not found: {path}"
  | unreadable => "Failed to load configuration"
  | invalid => "Invalid configuration"
  | zeroDepth => "runtime.max_call_depth must be greater than zero"
  | unwritable => "Failed to serialize configuration"

end SettingsIssue

/-- Variables of the environment. -/
abbrev Variables := List (String × String)

/-- What is asked for directly, and which file is to be read. -/
structure Overrides where
  configPath : Option String := none
  maxCallDepth : Option Nat := none
  home : Option String := none
  searchPaths : List String := []
  logLevel : Option String := none

namespace Settings

/-- The files that are read if no other is named: the first one that is there. -/
def defaultFiles : List String := ["echoc.toml", "echoc.toml.toml"]

/-- The layer a text stands for. -/
def layerOfText (text : String) : Except SettingsIssue (List (String × Datum)) :=
  (Toml.ofText? text).elim (.error .unreadable) .ok

/-- The layer of a file that is named, which has to be there. -/
def namedLayer (files : FileTree) (path : String) : Except SettingsIssue (List (String × Datum)) :=
  if !files.isFile path then .error (.fileNotFound path)
  else if Path.extension? path ≠ some "toml" then .error .unreadable
  else
    match files.readText path with
    | .error _ => .error .unreadable
    | .ok text => layerOfText text

/-- The layer of a default file, which need not be there; one that is no text does not count. -/
def defaultLayer (files : FileTree) : Except SettingsIssue (List (String × Datum)) :=
  match defaultFiles.find? files.isFile with
  | none => .ok []
  | some path =>
    match files.readText path with
    | .error _ => .ok []
    | .ok text => layerOfText text

/-- The layer of a file. -/
def fileLayer (files : FileTree) : Option String → Except SettingsIssue (List (String × Datum))
  | some path => namedLayer files path
  | none => defaultLayer files

/-- What a variable gives to settings: `ECHOC_LOG__LEVEL` is `log.level`.  Only the search paths can
be a list. -/
def ofVariable? (name value : String) : Option (String × Datum) :=
  let name := name.toLower
  if "echoc_".toList.isPrefixOf name.toList then
    let place := ".".intercalate ((String.ofList (name.toList.drop 6)).splitOn "__")
    match Datum.ofVariable value with
    | .str s =>
      if place = "runtime.search_paths" then some (place, .list ((s.splitOn ":").map .str))
      else some (place, .str s)
    | d => some (place, d)
  else none

/-- The layer of the environment. -/
def variableLayer (env : Variables) : List (String × Datum) :=
  env.filterMap fun (name, value) => ofVariable? name value

/-- What is built in. -/
def builtIn : Datum :=
  .table [("runtime", .table [("max_call_depth", .int 512)]),
    ("log", .table [("level", .str "warn")])]

/-- A setting, which has to be of the right type if it is given. -/
def setting (default : α) (convert : Datum → Option α) : Option Datum → Except SettingsIssue α
  | none => .ok default
  | some v => (convert v).elim (.error .invalid) .ok

/-- The part of the settings called `name`. -/
def part (root : Datum) (name : String) : Except SettingsIssue Datum :=
  match root.entries.lookup name with
  | none => .ok (.table [])
  | some d => if d.isSection then .ok d else .error .invalid

/-- The names of the settings of a run, in the order in which a list gives them. -/
def runtimeNames : List String := ["max_call_depth", "echoc_home", "search_paths"]

/-- The names of the settings of the log. -/
def logNames : List String := ["level"]

/-- The settings in a tree of values. -/
def ofDatum (root : Datum) : Except SettingsIssue Settings := do
  let runtime ← part root "runtime"
  let log ← part root "log"
  let maxCallDepth ← setting 512 Datum.count? (runtime.setting? runtimeNames "max_call_depth")
  let home ← setting none (Datum.optional? Datum.text?) (runtime.setting? runtimeNames "echoc_home")
  let searchPaths ← setting [] Datum.texts? (runtime.setting? runtimeNames "search_paths")
  let logLevel ← setting "warn" Datum.text? (log.setting? logNames "level")
  return { maxCallDepth, home, searchPaths, logLevel }

/-- Adds the variables for the home directory, if there is none yet, and for more directories. -/
def withVariables (s : Settings) (env : Variables) : Settings :=
  let paths := (env.lookup "ECHOC_PATH").elim [] (·.splitOn ":")
  { s with
    home := s.home.orElse fun _ => env.lookup "ECHOC_HOME"
    searchPaths := s.searchPaths ++ paths.filter (!·.isEmpty) }

/-- Adds what is asked for directly. -/
def withOverrides (s : Settings) (o : Overrides) : Settings :=
  { maxCallDepth := o.maxCallDepth.getD s.maxCallDepth
    home := o.home.orElse fun _ => s.home
    searchPaths := s.searchPaths ++ o.searchPaths
    logLevel := o.logLevel.getD s.logLevel }

/-- The settings from all layers. -/
def load (files : FileTree) (env : Variables) (o : Overrides) : Except SettingsIssue Settings := do
  let path := o.configPath.orElse fun _ => env.lookup "ECHOC_CONFIG_PATH"
  let layer ← fileLayer files path
  let root := (builtIn.lay layer).lay (variableLayer env)
  let s := ((← ofDatum root).withVariables env).withOverrides o
  if s.maxCallDepth = 0 then throw .zeroDepth
  return s

/-! ### Writing -/

/-- A list of strings: several stand one a line, each with a comma behind it. -/
def listText : List String → String
  | [] => "[]"
  | [s] => "[" ++ Toml.quote s ++ "]"
  | items => "[\n" ++ String.join (items.map fun s => "    " ++ Toml.quote s ++ ",\n") ++ "]"

/-- The lines of a section. -/
def sectionText (name : String) (settings : List (String × String)) : String :=
  "[" ++ name ++ "]\n" ++ String.join (settings.map fun (key, v) => key ++ " = " ++ v ++ "\n")

/-- Settings as a text, if the call depth is a number the format has. -/
def toToml? (s : Settings) : Except SettingsIssue String :=
  if maxInt < s.maxCallDepth then .error .unwritable
  else
    let home := s.home.elim [] fun path => [("echoc_home", Toml.quote path)]
    let runtime :=
      ("max_call_depth", toString s.maxCallDepth) :: home ++
        [("search_paths", listText s.searchPaths)]
    .ok (sectionText "runtime" runtime ++ "\n" ++
      sectionText "log" [("level", Toml.quote s.logLevel)])

end Settings

end Rewind
