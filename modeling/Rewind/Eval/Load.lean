/-
Modules.

A module is a source file that runs once, in a scope of its own; what it leaves bound there, names
that start with an underscore apart, is its namespace.  The namespace is kept by the full path of
the file and every `load` binds a copy of it.  A module that is still loading is null to the
modules it loads itself.

* `resolveModule` — the file of a module;
* `weaverModule` — the namespace of the built-in module;
* `loadModule` — a copy of the namespace of a module, which is run first if it has not been yet;
* `loadStatement` — `load:` with all its forms.
-/
import Rewind.Eval.Jobs

namespace Rewind.Eval

/-! ### Finding modules -/

/-- What source files are called. -/
def sourceExtension : String := ".ecc"

/-- The directories a module is looked for in, in order. -/
def searchDirectories (m : Machine) : List String :=
  m.directory.getD "." :: Path.join (m.environment.home.getD ".") "lib" :: m.environment.searchPaths

/-- The names a module's file can have: the one with the extension of source files goes first. -/
def candidates (name : String) : List String :=
  if name.endsWith sourceExtension then [name] else [name ++ sourceExtension, name]

/-- The full path of a module's file.  All names are tried in one directory before the next. -/
def resolveModule (m : Machine) (name : String) : Option String :=
  let paths := (searchDirectories m).flatMap fun dir => (candidates name).map (Path.join dir)
  (paths.find? m.environment.files.isFile).map m.environment.files.canonical

/-- The name a plain `load` binds. -/
def bindingName (name : String) : String := (Path.fileStem? name).getD name

/-! ### Namespaces -/

/-- The namespace kept under a path. -/
def namespace? (path : String) : Eval (Option Value) := do
  return ((← get).modules.find? (·.1 == path)).map (·.2)

/-- Drops the namespace kept under a path. -/
def dropNamespace (path : String) : Eval Unit :=
  modify fun m => { m with modules := m.modules.filter (·.1 != path) }

/-- Keeps a namespace under a path. -/
def keepNamespace (path : String) (v : Value) : Eval Unit := do
  dropNamespace path
  modify fun m => { m with modules := (path, v) :: m.modules }

/-- The key of the built-in module, which is no path. -/
def weaverKey : String := "__builtin__:weaver"

/-- The namespace of the built-in module, made when it is loaded first. -/
def weaverModule : Eval Value := do
  match ← namespace? weaverKey with
  | some v => return v
  | none =>
    let members ← Native.weaver.mapM fun native =>
      return (native.name, ← newFunction ⟨native.name, .native native⟩)
    let v ← onHeap (Heap.newDict (members.foldl (fun d (name, f) => d.set name f) {}))
    keepNamespace weaverKey v
    return v

/-- What the bindings of a module's scope make public, copied. -/
def exports (r : Ref .scope) : Eval Value := do
  let entries ← ask fun w => w.scopes.entries r
  -- names that begin with an underscore stay inside
  let copies ← (entries.filter fun e => !e.1.startsWith "_").mapM fun (name, v) =>
    return (name, ← onHeap (Heap.duplicate v))
  onHeap (Heap.newDict (copies.foldl (fun d (name, v) => d.set name v) {}))

/-! ### Loading -/

/-- Runs a computation on a thread of its own that starts at `cursor` in the scope `r`, with
`directory` as the place where modules are looked for first.  Both come back afterwards. -/
def inModule (cursor : Cursor) (r : Ref .scope) (directory : Option String) (x : Run α) :
    Eval (Except Fault α) := do
  let outer ← get
  modify fun m => { m with thread := { cursor, scope := r }, directory }
  let result ← pinning (.thread outer.thread.waiting) (catchFault x)
  modify fun m => { m with thread := outer.thread, directory := outer.directory }
  return result

/-- A cursor on the first token of a module's file. -/
def openModule (name path : String) : Eval (Except Failure Cursor) := do
  match (← get).environment.files.readText path with
  | .error fault => return .error (.system (.unreadableModule name path fault.message))
  | .ok text =>
    let id := (← get).sources
    modify fun m => { m with sources := id + 1 }
    return (Cursor.ofSource ⟨id, text.toList⟩).mapError .ofLex

/-- Runs the file of a module and keeps its namespace; a module that does not come to its end is
forgotten. -/
def runModule (j : Jobs) (name path : String) : Eval Value := do
  -- a module that loads itself on the way finds this
  keepNamespace path .null
  match ← openModule name path with
  | .error failure =>
    dropNamespace path
    fail failure
  | .ok cursor =>
    let r ← newScope none
    match ← inModule cursor r (Path.parent? path) (j.body 1) with
    | .error fault =>
      forget r
      throw (.fault fault)
    | .ok (.leaving (.raised raised)) =>
      forget r
      throw (.raised raised)
    | .ok _ =>
      let v ← exports r
      let bound ← onHeap (Heap.duplicate v)
      keepNamespace path v
      modify fun m => { m with moduleScopes := r :: m.moduleScopes }
      return bound
where
  /-- Drops what an unfinished module has left. -/
  forget (r : Ref .scope) : Eval Unit := do
    dropNamespace path
    modifyScopes (·.clear r)

/-- A copy of the namespace of a module. -/
def loadModule (j : Jobs) (name : String) (site : Token) : Eval Value := do
  if name = "weaver" then return ← onHeap (Heap.duplicate (← weaverModule))
  match resolveModule (← get) name with
  | none => complain (.moduleNotFound name) site
  | some path =>
    match ← namespace? path with
    | some v => onHeap (Heap.duplicate v)
    | none => runModule j name path

/-! ### The statement -/

/-- The name of a module: a plain name or a string. -/
def moduleName : Run Token := do
  match ← kind with
  | .ident | .str => bump
  | _ => malformed .moduleNameExpected (← current)

/-- The name behind `as`, if it stands here. -/
def alias? : Run (Option Token) := do
  if ← skipOver .kwAs then return some (← advance .ident) else return none

/-- The names between the parentheses of `load: (a, b as c) from m`, each with its new name. -/
def selection : Nat → List (Token × Option Token) → Run (List (Token × Option Token))
  | 0, _ => exhausted
  | n + 1, read => do
    if (← kind) = .rparen then return read.reverse
    let item ← advance .ident
    let read := (item, ← alias?) :: read
    if ← skipOver .comma then selection n read else return read.reverse

/-- Binds a copy of each selected member of a namespace. -/
def bindSelection (exported : Value) (module : String) : List (Token × Option Token) → Eval Unit
  | [] => pure ()
  | (item, renamed) :: rest => do
    match ← member? item.text with
    | none => complain (.exportMissing item.text module) item
    | some v =>
      define (renamed.getD item).text (← onHeap (Heap.duplicate v))
      bindSelection exported module rest
where
  /-- A member of the namespace. -/
  member? (name : String) : Eval (Option Value) :=
    match exported with
    | .dict r => ask fun w => (w.heap.dict r).get? name
    | _ => pure none

/-- One item of a `load` statement. -/
def loadItem (j : Jobs) (n : Nat) : Eval Unit := do
  if ← skipOver .lparen then
    let names ← selection n []
    let _ ← advance .rparen
    let _ ← advance .kwFrom
    let module ← moduleName
    bindSelection (← loadModule j module.text module) module.text names
  else
    let module ← moduleName
    let renamed ← alias?
    let v ← loadModule j module.text module
    define ((renamed.map (·.text)).getD (bindingName module.text)) v

/-- The items of a `load` statement, separated by commas. -/
def loadItems (j : Jobs) : Nat → Eval Unit
  | 0 => exhausted
  | n + 1 => do
    loadItem j n
    if ← skipOver .comma then loadItems j n

/-- `load: m`, `load: m as n`, `load: (a, b as c) from m` -/
def loadStatement (j : Jobs) (n : Nat) : Eval Status := do
  let _ ← bump
  let _ ← advance .colon
  loadItems j n
  endStatement
  return .normal

end Rewind.Eval
