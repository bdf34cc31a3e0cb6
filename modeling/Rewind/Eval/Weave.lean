/-
The event loop and the functions of the module `weaver`.

`weave` runs a loop with a coroutine at its root: as long as there is something to do, the timers
that are due finish and the coroutine at the head of the queue takes its turn.  A turn goes from
where the coroutine stands to its end or to the next `await` that has to wait.

* `runTurn`, `readClock`, `drive` — one turn, the time, and the loop;
* `weave`, `spawnTask`, `rest`, `yieldNow`, `gather`, `cancel` — the functions programs call.
-/
import Rewind.Eval.Call

namespace Rewind.Eval

/-! ### Turns -/

/-- What a coroutine that is about to take its turn goes on with. -/
structure Turn where
  function : Ref .function
  owner : Option (Ref .blueprint)
  scope : Ref .scope
  frames : List Frame
  tape : Tape

/-- Takes out of a coroutine what its turn goes on with and marks it as running.  One that is done
or has no body takes no turn, and one cancelled before its first turn is finished right away. -/
def beginTurn (r : Ref .coroutine) : Run (Option Turn) := do
  let c ← ask fun w => w.coroutines.get r
  if c.isDone then return none
  match c.kind with
  | .script function owner =>
    -- its body has not begun, so there is no statement that could meet the exception
    if c.isCancelled && c.frames.isEmpty then
      modifyWorld (·.finish r (.error (Coroutine.cancellation 0 0)))
      return none
    match c.scope with
    | none => fail (.internal (.scopeMissing c.name))
    | some scope =>
      modifyWorld (·.modifyCoroutine r fun c =>
        { c with stage := .running, scope := none, frames := [], tape := {} })
      return some ⟨function, owner, scope, c.frames, c.tape⟩
  | _ => return none

/-- Keeps in a coroutine that has yielded what its next turn goes on with.  One that waits for
nothing goes back into the queue. -/
def keepTurn (r : Ref .coroutine) (t : Thread) (w : World) : World :=
  let w := w.modifyCoroutine r fun c =>
    { c with scope := some t.scope, frames := t.parked, tape := t.tape }
  if (w.coroutines.get r).stage = .running then
    (w.modifyCoroutine r fun c => { c with stage := .runnable }).enqueue r
  else w

/-- The outcome of a body that has ended. -/
def bodyOutcome : Status → Outcome
  | .leaving (.result v) => .ok v
  | .leaving (.raised r) => .error r
  | _ => .ok .null

/-- Lets a coroutine take its turn. -/
def runTurn (j : Jobs) (r : Ref .coroutine) : Run Unit := do
  match ← beginTurn r with
  | none => return
  | some turn =>
    match (← ask fun w => w.functions.get turn.function).body with
    | .native _ => fail (.internal .bodyMissing)
    | .script body =>
      match Cursor.at? body.source body.entry with
      | .error failure => fail failure
      | .ok cursor =>
        -- nothing of the thread that has had the turn before is left
        modifyThread fun _ =>
          { cursor, scope := turn.scope, mode := .coroutineBody turn.owner, resume := turn.frames,
            tape := turn.tape, task := some r, driven := true }
        let status ← j.body (body.column + 4)
        let t := (← get).thread
        match status with
        | .yielded => modifyWorld (keepTurn r t)
        | ended => modifyWorld fun w => (w.clearScope t.scope).finish r (bodyOutcome ended)

/-- The time.  The clock goes on between any two looks at it, by as much as the environment says. -/
def readClock {ε : Type} : EStateM ε Machine Nat := do
  let m ← get
  let lapse := m.environment.lapse m.looks
  modify fun m => { m with looks := m.looks + 1 }
  onWorld fun w =>
    let now := w.loop.now + lapse
    (now, { w with loop := { w.loop with now } })

/-- Takes the coroutine at the head of the queue. -/
def dequeue : Run (Option (Ref .coroutine)) := do
  match (← ask fun w => w.loop.ready) with
  | [] => return none
  | r :: rest =>
    modifyWorld fun w => { w with loop := { w.loop with ready := rest } }
    return some r

/-- Runs the loop until nothing is ready and nothing sleeps.  Before every turn the clock is looked
at, and when only timers are left, it moves on to the first of them. -/
def drive (j : Jobs) : Nat → Run Unit
  | 0 => exhausted
  | n + 1 => do
    let _ ← readClock
    -- timers go before the queue is looked at, so those they wake are in it
    modifyWorld (·.pollSleepers)
    match ← dequeue with
    | some r =>
      runTurn j r
      drive j n
    | none =>
      match ← ask fun w => w.loop.sleepers with
      | [] => return
      | (wake, _) :: _ =>
        modifyWorld fun w => { w with loop := { w.loop with now := max w.loop.now wake } }
        drive j n

/-- Runs a loop with `root` as its first coroutine; if the loop comes to rest before `root` is done,
nothing can ever wake it. -/
def runLoop (j : Jobs) (n : Nat) (root : Ref .coroutine) : Run Unit := do
  modifyWorld fun w => w.openLoop.start root
  drive j n
  let c ← ask fun w => w.coroutines.get root
  -- others may be stuck as well; the root is the one that is reported
  if !c.isDone then fail (.deadlock c.name c.stage)

/-! ### Functions -/

/-- Checks the number of arguments of a built-in function. -/
def checkArity (native : Native) (args : List Value) (least most : Nat) (site : Token) :
    Eval Unit := do
  if args.length < least || most < args.length then
    complain (.wrongArity native least most args.length) site

/-- The coroutine an argument stands for. -/
def coroutineArg (native : Native) (v : Value) (site : Token) : Eval (Ref .coroutine) := do
  match ← ask fun w => w.coroutine? v with
  | some r => return r
  | none => complain (.coroutineExpected native v.kind) site

/-- Runs a loop with a new coroutine at its root and gives its result.  An exception that ends the
root is a failure of the whole run. -/
def weave (j : Jobs) (n : Nat) (args : List Value) (site : Token) : Eval Held := do
  checkArity .weave args 1 1 site
  let root ← coroutineArg .weave (args.headD .null) site
  let m ← get
  if m.thread.driven || m.weaving then complain .loopAlreadyRunning site
  let c ← ask fun w => w.coroutines.get root
  if c.stage ≠ .new then complain (.rootAlreadyStarted c.name) site
  if c.isCancelled then complain (.rootCancelled c.name) site
  let saved := m.thread
  modify fun m => { m with weaving := true }
  let result ← pinning (.thread saved.waiting) (catchFault (runLoop j n root))
  -- also behind a failure, which leaves coroutines suspended
  modifyWorld (·.teardown)
  modify fun m => { m with thread := saved, weaving := false }
  match result with
  | .error fault => throw (.fault fault)
  | .ok () =>
    let c ← ask fun w => w.coroutines.get root
    match ← onHeap (Heap.duplicateOutcome c.outcome) with
    | .ok v => return .fresh v
    | .error r => fail (.workflow c.name (← ask fun w => w.text r.value))

/-- Starts a new coroutine without waiting for it. -/
def spawnTask (args : List Value) (site : Token) : Eval Held := do
  checkArity .spawnTask args 1 1 site
  let task ← coroutineArg .spawnTask (args.headD .null) site
  let c ← ask fun w => w.coroutines.get task
  if c.stage ≠ .new then complain .taskAlreadyStarted site
  if !(← get).thread.driven then complain .loopNotRunning site
  modifyWorld (·.start task)
  match c.kind with
  | .gather _ => return .fresh (.gather task)
  | _ => return .fresh (.coroutine task)

/-- The number of seconds the clock cannot reach any more. -/
def lastSecond : Nat := 9223372036854775808

/-- The delay of so many milliseconds in whole nanoseconds, if it is a time the clock can reach. -/
def nanoseconds? (milliseconds : Float) : Option Nat :=
  match Decimal.Reading.ofFloat (milliseconds / 1000) with
  | .finite _ m q =>
    let (num, den) := Decimal.Reading.fraction m q
    if lastSecond * den ≤ num then none else some (Decimal.roundQuot (num * 1000000000) den)
  | _ => none

/-- A timer that ends so many milliseconds from now. -/
def rest (args : List Value) (site : Token) : Eval Held := do
  checkArity .rest args 1 1 site
  let v := args.headD .null
  match v.number? with
  | none => complain (.restNotNumber v.kind) site
  | some ms =>
    if ms < 0 then complain .negativeRest site
    match nanoseconds? ms with
    | none => complain (.restTooLong (Decimal.floatText ms)) site
    | some delay =>
      let now ← readClock
      return .fresh (.coroutine (← newCoroutine "weaver.rest" (.timer (now + delay)) none))

/-- A timer that ends at once, so that whatever is ready goes first. -/
def yieldNow (args : List Value) (site : Token) : Eval Held := do
  checkArity .yieldNow args 0 0 site
  return .fresh (.coroutine (← newCoroutine "weaver.yield_now" (.timer (← readClock)) none))

/-- What the named arguments of `gather` say about exceptions; `positional` is the number of its
other arguments. -/
def returnExceptions (positional : Nat) : List (String × Value × Token) → Bool → Eval Bool
  | [], chosen => pure chosen
  | (name, v, site) :: rest, _ => do
    if name ≠ "return_exceptions" then complain (.unexpectedNamed .gather name) site
    if 1 < positional then complain .returnExceptionsTwice site
    returnExceptions positional rest (← truthy (.view v))

/-- A task that waits for all coroutines of an array. -/
def gather (args : CallArgs) (site : Token) : Eval Held := do
  let values := args.positional
  checkArity .gather values 1 2 site
  let second ←
    match values[1]? with
    | some v => truthy (.view v)
    | none => pure false
  let chosen ← returnExceptions values.length args.named second
  match values.headD .null with
  | .array r =>
    let tasks ← ask fun w => w.heap.array r
    let children ← tasks.toList.mapM fun v => coroutineArg .gather v site
    let state := GatherState.ofChildren children chosen
    return .fresh (.gather (← newCoroutine "gather_task" (.gather state) none))
  | v => complain (.gatherNotArray v.kind) site

/-- Cancels a coroutine; tells whether anything was newly cancelled.  Without a running loop it is
only flagged. -/
def cancel (args : List Value) (site : Token) : Eval Held := do
  checkArity .cancel args 1 1 site
  let task ← coroutineArg .cancel (args.headD .null) site
  if (← get).thread.driven then return .fresh (.bool (← onWorld (·.cancel task)))
  else
    let flagged ← onWorld (·.flagCancelled task)
    return .fresh (.bool !flagged.isEmpty)

end Rewind.Eval
