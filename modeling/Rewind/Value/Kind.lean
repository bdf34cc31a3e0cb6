/-
The kinds of value a program handles, and the stages of a coroutine's life.

* `ValueKind`, `ValueKind.name` — the kinds and the names programs see them under;
* `Stage`, `Stage.name` — how far a coroutine has come;
* `Native`, `Native.name` — the functions that are built in.
-/
namespace Rewind

/-- The kinds of value. -/
inductive ValueKind where
  | integer | float | boolean | null | string | array | tuple | dictionary | function | blueprint
  | object | boundMethod | coroutine | gatherTask | superProxy
  deriving DecidableEq

namespace ValueKind

/-- The name `type` gives a kind. -/
def name : ValueKind → String
  | integer => "integer"
  | float => "float"
  | boolean => "boolean"
  | null => "null"
  | string => "string"
  | array => "array"
  | tuple => "tuple"
  | dictionary => "dictionary"
  | function => "function"
  | blueprint => "blueprint"
  | object => "object"
  | boundMethod => "bound_method"
  | coroutine => "coroutine"
  | gatherTask => "gather_task"
  | superProxy => "super_proxy"

end ValueKind

/-- How far a coroutine has come: not started, waiting for its turn, running, waiting for another
coroutine, for a time or for its gathered children, or finished. -/
inductive Stage where
  | new | runnable | running | suspendedAwait | suspendedTimer | gatherWait | done
  deriving DecidableEq, Inhabited

namespace Stage

/-- The name a deadlock report gives a stage. -/
def name : Stage → String
  | new => "New"
  | runnable => "Runnable"
  | running => "Running"
  | suspendedAwait => "SuspendedAwait"
  | suspendedTimer => "SuspendedTimer"
  | gatherWait => "GatherWait"
  | done => "Done"

end Stage

/-- The built-in functions.  The first four are called by plain name, `append` is the method of
arrays, and the others are the members of the module `weaver`. -/
inductive Native where
  | show | len | slice | type | append | weave | spawnTask | rest | gather | cancel | yieldNow
  deriving DecidableEq

namespace Native

def name : Native → String
  | .show => "show"
  | .len => "len"
  | .slice => "slice"
  | .type => "type"
  | .append => "append"
  | .weave => "weave"
  | .spawnTask => "spawn_task"
  | .rest => "rest"
  | .gather => "gather"
  | .cancel => "cancel"
  | .yieldNow => "yield_now"

/-- The built-in function that a plain call `name(...)` reaches, whatever `name` is bound to. -/
def builtin? : String → Option Native
  | "show" => some .show
  | "len" => some .len
  | "slice" => some .slice
  | "type" => some .type
  | _ => none

/-- The members of the module `weaver`, in order. -/
def weaver : List Native := [.weave, .spawnTask, .rest, .gather, .cancel, .yieldNow]

end Native

end Rewind
