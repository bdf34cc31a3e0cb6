/-
Calls.

Arguments are bound in a scope of their own, first those by position, then those by name, then the
defaults.  A plain function runs at once in that scope; an `async` function gives a coroutine that
keeps it.  Inside a coroutine the outcome of every finished call goes on the tape.

* `bindArguments` — fills the parameters of a function, or says what is wrong with the arguments;
* `callScript`, `spawn`, `instantiate` — a plain call, a coroutine, an object;
* `objectText`, `render` — the text of a value, in which objects speak for themselves;
* `replayed`, `settle` — the two ends of the tape.
-/
import Rewind.Eval.Jobs

namespace Rewind.Eval

/-! ### Binding arguments -/

/-- A complaint and the token it is about. -/
abbrev Objection := Complaint × Token

/-- Binds arguments by name to parameters that have none yet; the first `given` parameters are
filled by position. -/
def bindNamed (function : String) (params : List Param) (given : Nat) (r : Ref .scope) :
    List (String × Value × Token) → EStateM Objection World Unit
  | [] => pure ()
  | (name, v, site) :: rest => do
    match params.findIdx? (·.name == name) with
    | none => throw (.unknownParameter function name, site)
    | some place =>
      if place < given || (← get).scopes.hasLocal r name then
        throw (.repeatedArgument name function, site)
      modify (·.onScopes (·.define r name v))
      bindNamed function params given r rest

/-- Binds a copy of its default to every parameter that has no argument. -/
def bindDefaults (function : String) (r : Ref .scope) (site : Token) :
    List Param → EStateM Objection World Unit
  | [] => pure ()
  | p :: rest => do
    if !(← get).scopes.hasLocal r p.name then
      match p.default with
      | some v =>
        let copy ← modifyGet (·.onHeap (Heap.duplicate v))
        modify (·.onScopes (·.define r p.name copy))
      | none => throw (.missingArgument p.name function, site)
    bindDefaults function r site rest

/-- The parameters left to the caller: a receiver takes the place of a leading `self`. -/
def openParams (params : List Param) (receiver : Option Value) : List Param :=
  match receiver, params with
  | some _, p :: rest => if p.name == "self" then rest else params
  | _, _ => params

/-- Binds the arguments of a call in the scope `r`.  A receiver is bound as `self`. -/
def bindArguments (function : String) (params : List Param) (r : Ref .scope)
    (receiver : Option Value) (args : CallArgs) (site : Token) : EStateM Objection World Unit := do
  let params := openParams params receiver
  match receiver with
  | some v => modify (·.onScopes (·.define r "self" v))
  | none => pure ()
  let given := args.positional.length
  if params.length < given then throw (.tooManyArguments function params.length given, site)
  modify (·.onScopes fun s =>
    (params.zip args.positional).foldl (fun s (p, v) => s.define r p.name v) s)
  -- by position first, so that a name given twice is noticed
  bindNamed function params given r args.named
  bindDefaults function r site params

/-- A new scope inside the one of a function, with the arguments of a call bound in it. -/
def argumentScope (f : Function) (body : Script) (receiver : Option Value) (args : CallArgs)
    (site : Token) : Eval (Ref .scope) := do
  let r ← newScope (some body.scope)
  match ← tryWorld (bindArguments f.name body.params r receiver args site) with
  | .ok () => return r
  | .error (c, token) =>
    modifyScopes (·.clear r)
    complain c token

/-! ### The tape -/

/-- The next outcome to replay, while the statement is being replayed. -/
def replayed : Eval (Option Outcome) := do
  let t := (← get).thread
  if !t.mode.inAsync || t.skip != 0 || !t.tape.replaying then return none
  match ← onHeap t.tape.next? with
  | some (outcome, tape) =>
    modifyThread fun t => { t with tape }
    return some outcome
  | none => return none

/-- The value of an outcome, or its exception. -/
def resume : Outcome → Eval Held
  | .ok v => return .fresh v
  | .error r => throw (.raised r)

/-- Records a copy of an outcome that has just been reached in a coroutine, and gives it. -/
def settle (outcome : Outcome) : Eval Held := do
  let t := (← get).thread
  if t.mode.inAsync && t.skip == 0 then
    let copy ← onHeap (Heap.duplicateOutcome outcome)
    modifyThread fun t => { t with tape := t.tape.record copy }
  resume outcome

/-! ### Calling -/

/-- Runs a body in a callee's place: with the cursor, scope and mode given, an empty tape and no
frames.  The caller's are put back afterwards, also when the run fails, and the scope the callee
was in at its end is cleared. -/
def inCallee (cursor : Cursor) (r : Ref .scope) (mode : Mode) (x : Run α) :
    Eval (Except Fault α) := do
  let saved := (← get).thread
  modifyThread fun t =>
    { t with cursor, scope := r, mode, tape := {}, resume := [], parked := [] }
  modify fun m => { m with callDepth := m.callDepth + 1 }
  let result ← pinning (.thread saved.waiting) (catchFault x)
  modify fun m => { m with callDepth := m.callDepth - 1 }
  -- a fault may have ended the body inside a scope of its own
  let inner ← scope
  modifyThread fun t =>
    { t with
      cursor := saved.cursor, scope := saved.scope, mode := saved.mode, tape := saved.tape,
      resume := saved.resume, parked := saved.parked }
  modifyScopes (·.clear inner)
  return result

/-- Runs a function to its end; it is at hand until then. -/
def callScript (j : Jobs) (r : Ref .function) (receiver : Option Value)
    (owner : Option (Ref .blueprint)) (args : CallArgs) (site : Token) : Eval Held :=
  holding [.function r] do
    let f ← ask fun w => w.functions.get r
    match f.body with
    | .native _ => fail (.internal .nativeScript)
    | .script body =>
      let m ← get
      let limit := m.environment.maxCallDepth
      if limit ≤ m.callDepth then fail (.system (.callDepth limit f.name site.line))
      -- the limit goes first: a call too deep binds nothing
      let callee ← argumentScope f body receiver args site
      match Cursor.at? body.source body.entry with
      | .error failure => fail failure
      | .ok cursor =>
        match ← inCallee cursor callee (.functionBody owner) (j.body (body.column + 4)) with
        | .error fault => throw (.fault fault)
        | .ok (.leaving (.result v)) => return .fresh v
        | .ok (.leaving (.raised r)) => throw (.raised r)
        | .ok .yielded => fail (.internal (.suspendedFunction f.name))
        | .ok _ => return Held.null

/-- A coroutine for a call of an `async` function; its body has not begun. -/
def spawn (r : Ref .function) (receiver : Option Value) (owner : Option (Ref .blueprint))
    (args : CallArgs) (site : Token) : Eval Held := do
  let f ← ask fun w => w.functions.get r
  match f.body with
  | .native _ => fail (.internal .nativeCoroutine)
  | .script body =>
    let callee ← argumentScope f body receiver args site
    return .fresh (.coroutine (← newCoroutine f.name (.script r owner) (some callee)))

/-- A new object, after its `init` has run. -/
def instantiate (j : Jobs) (r : Ref .blueprint) (args : CallArgs) (site : Token) : Eval Held := do
  -- the number is taken even if `init` fails
  modify fun m => { m with objects := m.objects + 1 }
  let serial := (← get).objects
  let object ← onWorld fun w =>
    (w.objects.next, { w with objects := w.objects.push { serial, blueprint := r } })
  let name ← ask fun w => (w.blueprints.get r).name
  match ← ask fun w => w.findMember r "init" with
  | some (.function init, owner) =>
    if ← ask fun w => (w.functions.get init).isAsync then malformed (.asyncInit name) site
    let _ ← holding [.object object]
      (callScript j init (some (.object object)) (some owner) args site)
  | _ =>
    if !args.positional.isEmpty || !args.named.isEmpty then complain (.initMissing name) site
  return .fresh (.object object)

/-! ### Text -/

/-- The text an object gives itself through `op_str`. -/
def objectText (j : Jobs) (site : Token) (r : Ref .object) : Eval (Option String) := do
  match ← ask fun w => w.operator? r "op_str" with
  | none => return none
  | some (f, owner) =>
    if ← ask fun w => (w.functions.get f).isAsync then complain .asyncText site
    -- a call like any other, which the tape records if there is one
    let method ← newMethod ⟨.object r, f, some owner⟩
    match (← j.invoke method {} site).value with
    | .str s => return some s
    | v => complain (.textNotString v.kind) site

/-- The text of a value, in which objects speak for themselves.  The value is at hand meanwhile. -/
def render (j : Jobs) (v : Value) (site : Token) : Eval String :=
  holding [v] (World.render (ask id) holding (objectText j site) World.maxTextDepth v)

end Rewind.Eval
