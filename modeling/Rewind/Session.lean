/-
Sessions.

A session runs one program after another.  Bindings of the outermost scope, loaded modules and the
numbers of objects and coroutines carry over from each program to the next, also past a failure.

* `Machine.new` — a session at its start;
* `Machine.runSource`, `Machine.runFile` — the run of a text or of a file;
* `Machine.global?` — the value of a global name.
-/
import Rewind.Eval.Engine

namespace Rewind

/-- The fuel of a run, more than any run can use. -/
def plentyOfFuel : Nat := 1000000000000000000

namespace Machine

/-- A session in which nothing has run. -/
def new (environment : Environment) : Machine :=
  { environment, world := { scopes := Arena.push {} {} }, globals := ⟨0⟩ }

/-- How a program ended: an exception that nobody caught is a failure. -/
def ending (w : World) : Status → Except Failure Unit
  | .leaving (.raised r) => .error (.uncaught (w.text r.value) r.line r.column)
  | _ => .ok ()

/-- Runs a program in the outermost scope. -/
def runSource (m : Machine) (text : String) (fuel : Nat := plentyOfFuel) :
    Except Fault Unit × Machine :=
  let id := m.sources
  let m := { m with sources := id + 1 }
  match Cursor.ofSource ⟨id, text.toList⟩ with
  | .error fault => (.error (.failure (.ofLex fault)), m)
  | .ok cursor =>
    match (Eval.jobs fuel).body 1 { m with thread := { cursor, scope := m.globals } } with
    | .ok status m => ((ending m.world status).mapError .failure, m)
    | .error fault m => (.error fault, m)

/-- Runs a file; modules are looked for beside it first. -/
def runFile (m : Machine) (path : String) (fuel : Nat := plentyOfFuel) :
    Except Fault Unit × Machine :=
  match m.environment.files.readText path with
  | .error fault => (.error (.failure (.system (.unreadableFile path fault.message))), m)
  | .ok text => runSource { m with directory := Path.parent? path } text fuel

/-- The value of a global name. -/
def global? (m : Machine) (name : String) : Option Value := m.world.scopes.lookup m.globals name

end Machine

end Rewind
