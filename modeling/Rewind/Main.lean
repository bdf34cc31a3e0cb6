/-
The program.

The arguments are read, the files that the command may need are collected, the command is carried
out on them, and its report is printed.
-/
import Rewind.CommandLine.Reach

namespace Rewind.Main

/-- The names of the variables that settings may come from. -/
def variableNames : List String :=
  ["ECHOC_CONFIG_PATH", "ECHOC_HOME", "ECHOC_PATH", "ECHOC_LOG", "ECHOC_LOG__LEVEL",
    "ECHOC_RUNTIME", "ECHOC_RUNTIME__MAX_CALL_DEPTH", "ECHOC_RUNTIME__ECHOC_HOME",
    "ECHOC_RUNTIME__SEARCH_PATHS"]

/-- What is printed when the arguments cannot be read. -/
def usage : String :=
  "Usage: echoc [--config FILE] [--log-level LEVEL] [--max-call-depth N] " ++
    "(run FILE | tokens FILE | config)"

/-- The variables that are set. -/
def setVariables : IO Variables :=
  variableNames.filterMapM fun name => do return (← IO.getEnv name).map (name, ·)

/-- The contents of a file, if it can be read. -/
def contents? (path : String) : IO (Option ByteArray) := do
  try return some (← IO.FS.readBinFile path) catch _ => return none

/-- The files a command may need, found in at most `rounds` rounds. -/
def collect (env : Variables) (i : Invocation) : (rounds : Nat) → FileTree → IO FileTree
  | 0, files => return files
  | rounds + 1, files => do
    let mut found := files
    for path in i.reach files env do
      match ← contents? path with
      | some bytes => found := found.add path bytes
      | none => pure ()
    if found.files.length = files.files.length then return files
    collect env i rounds found

/-- Carries out a command and prints its report. -/
def perform (i : Invocation) : IO UInt32 := do
  let env ← setVariables
  let current := (← IO.currentDir).toString.splitOn "/"
  let files ← collect env i 1000 ⟨current, []⟩
  let report := i.execute files env
  IO.print report.output
  match report.complaint with
  | none => return 0
  | some complaint =>
    IO.eprintln complaint
    return 1

end Rewind.Main

/-- The program: exits with one if the command failed, and with two if there was none. -/
def main (args : List String) : IO UInt32 :=
  match Rewind.Invocation.ofArguments args with
  | .ok i => Rewind.Main.perform i
  | .error .help => do
    IO.println Rewind.Main.usage
    return 0
  | .error _ => do
    IO.eprintln Rewind.Main.usage
    return 2
