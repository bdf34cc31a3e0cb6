/-
The machine.

A machine is the state of a session: the shared world, what the session keeps between programs, and
the thread of evaluation that runs right now.  Evaluation is a computation on machines.  It either
gives a value or stops; the machine at that point is kept in both cases, so an exception leaves the
cursor where it was raised.

* `Mode` — the kind of body that runs; `Thread` — the evaluation of one body;
* `Pin`, `Machine`, `Machine.roots` — what an evaluation holds, and the whole state;
* `Fault`, `Run` — computations that only end a whole run early;
* `Interrupt`, `Eval` — computations that also raise exceptions and suspend;
* `pinning`, `resolve`, `lookup` — names, seen from the innermost scope;
* `kind`, `bump`, `advance`, `rewind`, … — the moves of the thread's cursor.
-/
import Rewind.Arithmetic
import Rewind.Cursor
import Rewind.Files
import Rewind.Lifetime
import Rewind.Scheduler

namespace Rewind

/-- The kind of body that runs: whether `await`, `return` and only members may stand in it, how many
loops are around, and the blueprint whose method it is. -/
structure Mode where
  inAsync : Bool := false
  inFunction : Bool := false
  inBlueprint : Bool := false
  loopDepth : Nat := 0
  owner : Option (Ref .blueprint) := none
  deriving Inhabited, DecidableEq

namespace Mode

/-- The body of a coroutine. -/
def coroutineBody (owner : Option (Ref .blueprint)) : Mode :=
  { inAsync := true, inFunction := true, owner }

/-- The body of a function that is run to its end. -/
def functionBody (owner : Option (Ref .blueprint)) : Mode := { inFunction := true, owner }

/-- The body of a blueprint. -/
def blueprintBody (owner : Ref .blueprint) : Mode := { inBlueprint := true, owner := some owner }

end Mode

/-- The evaluation of one body: where it stands, the innermost scope, and what it needs to be
suspended and resumed.  Tokens are passed without effect while `skip` is positive.  The head of
`resume` is the outermost frame still to re-enter, the head of `parked` the frame parked last;
`parking` is what the construct that has just yielded asks to be parked.  `task` is the coroutine
the body belongs to, and `driven` tells whether an event loop runs it. -/
structure Thread where
  cursor : Cursor
  scope : Ref .scope
  mode : Mode := {}
  skip : Nat := 0
  resume : List Frame := []
  parked : List Frame := []
  parking : Option FrameKind := none
  tape : Tape := {}
  task : Option (Ref .coroutine) := none
  driven : Bool := false
  deriving Inhabited

namespace Thread

/-- The cells a thread refers to. -/
def cells (t : Thread) : List Cell :=
  t.scope.cell :: t.mode.owner.toList.map Ref.cell ++ t.task.toList.map Ref.cell ++ t.tape.cells ++
    (t.resume ++ t.parked).flatMap (·.kind.cells) ++ t.parking.toList.flatMap (·.cells)

/-- A thread while another one runs: what it goes on with is held, but not where. -/
def waiting (t : Thread) : Thread := { t with cursor := default }

@[simp] theorem waiting_scope (t : Thread) : t.waiting.scope = t.scope := rfl

@[simp] theorem waiting_mode (t : Thread) : t.waiting.mode = t.mode := rfl

@[simp] theorem waiting_tape (t : Thread) : t.waiting.tape = t.tape := rfl

@[simp] theorem waiting_task (t : Thread) : t.waiting.task = t.task := rfl

end Thread

/-- What an evaluation holds while a part of it is running: values it has at hand, or the thread it
goes on with afterwards. -/
inductive Pin where
  | values (vs : List Value)
  | thread (t : Thread)

namespace Pin

/-- The cells that are held. -/
def cells : Pin → List Cell
  | values vs => cellsOf vs
  | thread t => t.cells

end Pin

/-- What a session is set up with.  `lapse` says how many nanoseconds go by before each look at the
clock, the first one being look 0. -/
structure Environment where
  maxCallDepth : Nat := 512
  home : Option String := none
  searchPaths : List String := []
  files : FileTree := default
  lapse : Nat → Nat := fun _ => 1
  deriving Inhabited

/-- The state of a session.  `modules` holds the namespaces of loaded modules by full path, null for
one that is still loading, and `moduleScopes` the scopes they ran in; `directory` is where modules
are looked for first.  `pinned` is what the evaluations around the running one hold, and `looks`
counts the looks at the clock. -/
structure Machine where
  world : World := {}
  thread : Thread := default
  pinned : List Pin := []
  environment : Environment := {}
  globals : Ref .scope := ⟨0⟩
  output : String := ""
  modules : List (String × Value) := []
  moduleScopes : List (Ref .scope) := []
  directory : Option String := none
  callDepth : Nat := 0
  weaving : Bool := false
  objects : Nat := 0
  coroutines : Nat := 0
  sources : Nat := 0
  looks : Nat := 0
  deriving Inhabited

namespace Machine

/-- The cells that are referred to from outside all cells. -/
def roots (m : Machine) : List Cell :=
  m.globals.cell :: m.moduleScopes.map Ref.cell ++ cellsOf (m.modules.map (·.2)) ++
    m.thread.cells ++ m.pinned.flatMap Pin.cells ++ m.world.loop.ready.map Ref.cell ++
    m.world.loop.sleepers.map (·.2.cell)

end Machine

/-! ### Computations -/

/-- What ends a whole run: a failure, or running out of the fuel the run was given. -/
inductive Fault where
  | failure (f : Failure)
  | exhausted

/-- What stops an expression: an exception, the suspension of the coroutine, or a fault. -/
inductive Interrupt where
  | raised (r : Raised)
  | suspended
  | fault (f : Fault)

/-- Computations that can only fail for good. -/
abbrev Run := EStateM Fault Machine

/-- Computations that can raise and suspend as well. -/
abbrev Eval := EStateM Interrupt Machine

instance : MonadLift Run Eval where
  monadLift x m :=
    match x m with
    | .ok a m => .ok a m
    | .error f m => .error (.fault f) m

/-- How an expression or statement came out, faults apart. -/
inductive Attempt (α : Type) where
  | value (a : α)
  | raised (r : Raised)
  | suspended

namespace Eval

variable {ε α : Type}

/-- Runs a computation and hands on its exceptions and suspensions as results. -/
def attempt (x : Eval α) : Run (Attempt α) := fun m =>
  match x m with
  | .ok a m => .ok (.value a) m
  | .error (.raised r) m => .ok (.raised r) m
  | .error .suspended m => .ok .suspended m
  | .error (.fault f) m => .error f m

/-- Runs a computation and hands on its fault as a result. -/
def catchFault (x : Run α) : EStateM ε Machine (Except Fault α) := fun m =>
  match x m with
  | .ok a m => .ok (.ok a) m
  | .error f m => .ok (.error f) m

/-- Stops a run that has used up its fuel. -/
def exhausted : Run α := throw .exhausted

/-- Ends a run. -/
def fail (f : Failure) : Run α := throw (.failure f)

/-- Ends a run at a text that is no program. -/
def malformed (issue : SyntaxIssue) (site : Token) : Run α :=
  fail (.malformed issue site.line site.column)

/-- Raises an exception at a token. -/
def complain (c : Complaint) (site : Token) : Eval α :=
  throw (.raised ⟨.str c.message, site.line, site.column⟩)

/-- The value of a computation that may have a complaint about a token. -/
def orComplain (site : Token) : Except Complaint α → Eval α
  | .ok a => pure a
  | .error c => complain c site

/-! ### The world -/

/-- A part of the world. -/
@[inline] def ask (f : World → α) : EStateM ε Machine α := fun m => .ok (f m.world) m

/-- Changes the world. -/
@[inline] def onWorld (f : World → α × World) : EStateM ε Machine α := fun m =>
  let world := m.world
  let m := { m with world := {} }
  let (a, world) := f world
  .ok a { m with world }

@[inline] def modifyWorld (f : World → World) : EStateM ε Machine Unit :=
  onWorld fun w => ((), f w)

/-- Runs a computation on the world that may object, and hands on the objection as a result. -/
@[inline] def tryWorld {δ : Type} (f : EStateM δ World α) : EStateM ε Machine (Except δ α) :=
  onWorld fun w =>
    match f w with
    | .ok a w => (.ok a, w)
    | .error e w => (.error e, w)

/-- Runs a computation on the containers. -/
@[inline] def onHeap (f : StateM Heap α) : EStateM ε Machine α := onWorld fun w => w.onHeap f

/-- Changes the scopes. -/
@[inline] def modifyScopes (f : Scopes → Scopes) : EStateM ε Machine Unit :=
  modifyWorld (·.onScopes f)

/-- What an expression gave, as something to keep. -/
def own (h : Held) : EStateM ε Machine Value := onHeap (Heap.own h)

/-- Whether what an expression gave counts as true. -/
def truthy (h : Held) : EStateM ε Machine Bool := ask fun w => w.heap.truthy h.value

def newFunction (f : Function) : EStateM ε Machine Value :=
  onWorld fun w => (.function w.functions.next, { w with functions := w.functions.push f })

def newMethod (b : Method) : EStateM ε Machine Value :=
  onWorld fun w => (.method w.methods.next, { w with methods := w.methods.push b })

/-- A new scope inside `parent`. -/
def newScope (parent : Option (Ref .scope)) : EStateM ε Machine (Ref .scope) :=
  onWorld fun w => (w.scopes.next, { w with scopes := w.scopes.push { parent } })

/-- A new coroutine, numbered in the order coroutines are made. -/
def newCoroutine (name : String) (kind : CoroutineKind) (scope : Option (Ref .scope)) :
    EStateM ε Machine (Ref .coroutine) := do
  modify fun m => { m with coroutines := m.coroutines + 1 }
  let serial := (← get).coroutines
  onWorld fun w =>
    (w.coroutines.next,
      { w with coroutines := w.coroutines.push { serial, name, kind, scope } })

/-- Adds to what the program has printed. -/
def emit (text : String) : EStateM ε Machine Unit :=
  modify fun m =>
    let output := m.output
    let m := { m with output := "" }
    { m with output := output ++ text }

/-! ### The thread -/

@[inline] def modifyThread (f : Thread → Thread) : EStateM ε Machine Unit :=
  modify fun m => { m with thread := f m.thread }

/-- Tokens are passed without effect. -/
def isSkipping : EStateM ε Machine Bool := fun m => .ok (m.thread.skip != 0) m

def mode : EStateM ε Machine Mode := fun m => .ok m.thread.mode m

def modifyMode (f : Mode → Mode) : EStateM ε Machine Unit :=
  modifyThread fun t => { t with mode := f t.mode }

/-- The innermost scope. -/
def scope : EStateM ε Machine (Ref .scope) := fun m => .ok m.thread.scope m

/-- Runs a computation while something is held. -/
@[inline] def pinning (p : Pin) (x : EStateM ε Machine α) : EStateM ε Machine α := fun m =>
  let outer := m.pinned
  match x { m with pinned := p :: outer } with
  | .ok a m => .ok a { m with pinned := outer }
  | .error e m => .error e { m with pinned := outer }

/-- Runs a computation while some values are at hand. -/
@[inline] def holding (vs : List Value) (x : EStateM ε Machine α) : EStateM ε Machine α :=
  pinning (.values vs) x

/-- The nearest scope from the innermost one outwards that binds a name.  Members that come into
sight there are dropped first if their blueprint has ended. -/
def resolve (name : String) : EStateM ε Machine (Option (Ref .scope)) := do
  let r ← scope
  match ← ask fun w => w.scopes.resolve r name with
  | none => return none
  | some found =>
    match ← ask fun w => w.scopes.blueprint? found with
    | none => return some found
    | some b =>
      let owner := (← mode).owner
      if ← ask fun w => w.isInUse b owner r then return some found
      let roots := (← get).roots
      if ← ask fun w => w.reaches roots b.cell then return some found
      modifyWorld (·.dissolve roots)
      ask fun w => w.scopes.resolve r name

/-- The value of a name, seen from the innermost scope. -/
def lookup (name : String) : EStateM ε Machine (Option Value) := do
  match ← resolve name with
  | some r => ask fun w => w.scopes.getLocal? r name
  | none => return none

/-- Changes the nearest binding of a name, or binds it in the innermost scope if there is none. -/
def assign (name : String) (v : Value) : EStateM ε Machine Unit := do
  let r := (← holding [v] (resolve name)).getD (← scope)
  modifyScopes (·.define r name v)

/-- Binds a name in the innermost scope. -/
def define (name : String) (v : Value) : EStateM ε Machine Unit := do
  let r ← scope
  modifyScopes (·.define r name v)

/-- Enters a new scope inside the innermost one. -/
def pushScope : EStateM ε Machine Unit := do
  let inner ← newScope (some (← scope))
  modifyThread fun t => { t with scope := inner }

/-- Leaves the innermost scope and drops its bindings; the outermost one stays. -/
def popScope : EStateM ε Machine Unit := do
  let inner ← scope
  match ← ask fun w => w.scopes.parent inner with
  | some outer =>
    modifyThread fun t => { t with scope := outer }
    modifyScopes (·.clear inner)
  | none => pure ()

/-- Runs a computation in which nothing has an effect but the moves of the cursor. -/
def skipping (x : EStateM ε Machine α) : EStateM ε Machine α := fun m =>
  match x { m with thread := { m.thread with skip := m.thread.skip + 1 } } with
  | .ok a m => .ok a { m with thread := { m.thread with skip := m.thread.skip - 1 } }
  | .error e m => .error e { m with thread := { m.thread with skip := m.thread.skip - 1 } }

/-- The tape of a new statement, unless the tape still has outcomes to replay. -/
def resetTapeUnlessReplaying : EStateM ε Machine Unit := do
  modifyThread fun t =>
    if t.mode.inAsync && !t.tape.replaying then { t with tape := Tape.reset } else t

/-- The tape after a statement of a coroutine. -/
def resetTape : EStateM ε Machine Unit := do
  modifyThread fun t => if t.mode.inAsync then { t with tape := Tape.reset } else t

/-! ### The cursor -/

/-- The token stood on. -/
def current : EStateM ε Machine Token := fun m => .ok m.thread.cursor.current m

/-- Its kind. -/
def kind : EStateM ε Machine TokenKind := fun m => .ok m.thread.cursor.kind m

/-- Its place. -/
def capture : EStateM ε Machine Position := fun m => .ok m.thread.cursor.capture m

def setCursor (c : Cursor) : EStateM ε Machine Unit := modifyThread fun t => { t with cursor := c }

/-- Moves the cursor; a move that fails leaves it in place. -/
@[inline] def move (f : Cursor → Except Failure Cursor) : Run Unit := fun m =>
  match f m.thread.cursor with
  | .ok c => .ok () { m with thread := { m.thread with cursor := c } }
  | .error f => .error (.failure f) m

/-- Moves to the next token and gives the one passed. -/
def bump : Run Token := do
  let passed ← current
  move Cursor.bump
  return passed

/-- Passes a token of the kind wanted. -/
def advance (wanted : TokenKind) : Run Token := do
  let passed ← current
  move (·.advance wanted)
  return passed

def rewind (p : Position) : Run Unit := move (·.rewind p)

/-- Passes the current token if it is of the kind `k`. -/
def skipOver (k : TokenKind) : Run Bool := do
  if (← kind) = k then
    let _ ← bump
    return true
  return false

/-- Past the tokens of a body at a column. -/
def skipBody (column : Nat) : Run Unit := move (·.skipBody column 0)

/-- Past the colon that may end a simple statement. -/
def endStatement : Run Unit := do
  let _ ← skipOver .colon

/-- Past the colon of a header at `column`.  The body follows on a new line, four columns further
right. -/
def enterBlock (column : Nat) : Run Unit := do
  let colon ← advance .colon
  let next ← current
  if next.kind ≠ .eof ∧ next.line = colon.stop.line then malformed .tokenAfterHeader next
  if next.kind = .eof ∨ next.column ≠ column + 4 then
    malformed (.blockExpected (column + 4)) next

end Eval

end Rewind
