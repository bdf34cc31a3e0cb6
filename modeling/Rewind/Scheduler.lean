/-
Transitions of the event loop.

Coroutines wait in a queue for their turn.  Each operation here is one step of the loop's
bookkeeping: it moves coroutines between the stages of their life and keeps the links between them.

* `World.start` — a new coroutine joins the loop, a gather task with all its children;
* `World.finish` — a coroutine is done: its waiters wake and its gather tasks get its outcome;
* `World.wake` — a suspended coroutine gets the outcome it waited for;
* `World.pollSleepers` — the timers whose time has come finish;
* `World.cancel` — a coroutine and everything it gathers is cancelled;
* `World.suspendOn` — a running coroutine waits for another one;
* `World.teardown` — the loop ends and drops every link.

A gather task is younger than its children, so both recursions, down to the children and up to the
gather tasks, go no deeper than there are coroutines.
-/
import Rewind.World

namespace Rewind.World

/-- Changes a coroutine. -/
@[inline] def modifyCoroutine (w : World) (r : Ref .coroutine) (f : Coroutine → Coroutine) :
    World :=
  { w with coroutines := w.coroutines.modify r f }

/-- Puts a coroutine at the end of the queue. -/
def enqueue (w : World) (r : Ref .coroutine) : World :=
  { w with loop := { w.loop with ready := w.loop.ready ++ [r] } }

/-- Drops the bindings of a scope. -/
@[inline] def clearScope (w : World) (r : Ref .scope) : World :=
  { w with scopes := w.scopes.clear r }

/-- Drops everything that leads from a coroutine to others or into a scope. -/
def releaseLinks (w : World) (r : Ref .coroutine) : World :=
  let scope := (w.coroutines.get r).scope
  let w := w.modifyCoroutine r fun c =>
    { c with waiters := [], awaiting := none, scope := none, frames := [], tape := Tape.reset }
  match scope with
  | some s => w.clearScope s
  | none => w

/-! ### Completion -/

/-- Gives a suspended coroutine the outcome it waits for and a place in the queue. -/
def wake (w : World) (r : Ref .coroutine) (outcome : Outcome) : World :=
  if (w.coroutines.get r).stage = .suspendedAwait then
    (w.modifyCoroutine r fun c =>
      { c with tape := c.tape.inject outcome, awaiting := none, stage := .runnable }).enqueue r
  else w

/-- Reports the outcome of the child in a slot to a gather task that is not done. -/
def fillSlot (w : World) (r : Ref .coroutine) (slot : Nat) (outcome : Outcome) : World :=
  w.modifyCoroutine r fun c =>
    match c.kind with
    | .gather g => if c.isDone then c else { c with kind := .gather (g.fill slot outcome) }
    | _ => c

/-- The gather state of a task to which all children have reported and which is not done. -/
def completeGather? (w : World) (r : Ref .coroutine) : Option GatherState :=
  let c := w.coroutines.get r
  match c.kind with
  | .gather g => if c.isDone ∨ g.pending ≠ 0 then none else some g
  | _ => none

/-- A copy of the outcome for every one it is handed to. -/
def copyOutcome (w : World) (outcome : Outcome) : Outcome × World :=
  w.onHeap (Heap.duplicateOutcome outcome)

/-- What a coroutine that came to an outcome ends with: a cancelled one never ends with a value. -/
def finalOutcome (c : Coroutine) : Outcome → Outcome
  | .ok v => if c.isCancelled then .error (Coroutine.cancellation 0 0) else .ok v
  | .error e => .error e

/-- A coroutine is done with an outcome, of which it keeps a copy; its links are dropped. -/
def complete (w : World) (r : Ref .coroutine) (outcome : Outcome) : World :=
  let (kept, w) := w.copyOutcome outcome
  let w := w.modifyCoroutine r fun c =>
    match kept with
    | .ok v => { c with stage := .done, result := v, parents := [] }
    | .error e => { c with stage := .done, exception := some e, parents := [] }
  w.releaseLinks r

/-- Wakes a coroutine with a copy of an outcome. -/
def wakeWithCopy (outcome : Outcome) (w : World) (r : Ref .coroutine) : World :=
  let (copy, w) := w.copyOutcome outcome
  w.wake r copy

/-- A coroutine is done with an outcome, and those that waited for it wake in the order they came. -/
def settle (w : World) (r : Ref .coroutine) (outcome : Outcome) : World :=
  (w.coroutines.get r).waiters.foldl (wakeWithCopy outcome) (w.complete r outcome)

/-- Reports a copy of an outcome to a slot of a gather task. -/
def report (outcome : Outcome) (w : World) (r : Ref .coroutine) (slot : Nat) : World :=
  let (copy, w) := w.copyOutcome outcome
  w.fillSlot r slot copy

/-- Marks a coroutine as done.  Its waiters wake in the order they came, then its gather tasks get
the outcome, and each that is complete is done too. -/
def finishWithin : (depth : Nat) → World → Ref .coroutine → Outcome → World
  | 0, w, _, _ => w
  | depth + 1, w, r, outcome =>
    let c := w.coroutines.get r
    if c.isDone then w
    else
      let outcome := finalOutcome c outcome
      let w := w.settle r outcome
      -- the gather tasks it had before its links were dropped
      c.parents.foldl (fun w (parent, slot) =>
        let w := w.report outcome parent slot
        match w.completeGather? parent with
        | some g =>
          let (total, w) := w.onHeap g.outcome
          finishWithin depth w parent total
        | none => w) w

/-- Marks a coroutine as done with the outcome it came to. -/
def finish (w : World) (r : Ref .coroutine) (outcome : Outcome) : World :=
  finishWithin (w.coroutines.size + 1) w r outcome

/-- Finishes a gather task if all its children have reported. -/
def finishIfComplete (w : World) (r : Ref .coroutine) : World :=
  match w.completeGather? r with
  | some g =>
    let (total, w) := w.onHeap g.outcome
    w.finish r total
  | none => w

/-! ### Starting -/

/-- Puts a timer among the sleepers, behind all that wake no later. -/
def insertSleeper (sleepers : List (Nat × Ref .coroutine)) (wake : Nat) (r : Ref .coroutine) :
    List (Nat × Ref .coroutine) :=
  sleepers.takeWhile (·.1 ≤ wake) ++ (wake, r) :: sleepers.dropWhile (·.1 ≤ wake)

/-- Notes that the loop has started a coroutine. -/
def noteStarted (w : World) (r : Ref .coroutine) : World :=
  { w with loop := { w.loop with started := r :: w.loop.started } }

/-- A gather task turns to a child: one that is done reports at once, any other gets it as a
parent and is then brought into the loop by `begin`. -/
def enlist (begin : World → Ref .coroutine → World) (r : Ref .coroutine) (w : World)
    (child : Ref .coroutine) (slot : Nat) : World :=
  let c := w.coroutines.get child
  if c.isDone then w.report c.outcome r slot
  else
    begin (w.modifyCoroutine child fun c => { c with parents := c.parents ++ [(r, slot)] }) child

/-- Puts a new coroutine into a stage of the loop. -/
def enroll (w : World) (r : Ref .coroutine) (stage : Stage) : World :=
  (w.modifyCoroutine r fun c => { c with stage }).noteStarted r

/-- Brings a new coroutine into the loop; any other is left alone.  The children of a gather task
are started in order. -/
def startWithin : (depth : Nat) → World → Ref .coroutine → World
  | 0, w, _ => w
  | depth + 1, w, r =>
    let c := w.coroutines.get r
    if c.stage ≠ .new then w
    else match c.kind with
      | .script _ _ => (w.enroll r .runnable).enqueue r
      | .timer wake =>
        let w := w.enroll r .suspendedTimer
        { w with loop := { w.loop with sleepers := insertSleeper w.loop.sleepers wake r } }
      | .gather g =>
        let w := g.children.zipIdx.foldl (fun w (child, slot) =>
          enlist (startWithin depth) r w child slot) (w.enroll r .gatherWait)
        -- its children may all be done by now, or it has none
        w.finishIfComplete r

/-- Brings a new coroutine into the loop. -/
def start (w : World) (r : Ref .coroutine) : World :=
  startWithin (w.coroutines.size + 1) w r

/-! ### Time -/

/-- Finishes every timer whose time has come, in the order they sleep in. -/
def pollSleepers (w : World) : World :=
  let now := w.loop.now
  let due := w.loop.sleepers.takeWhile (·.1 ≤ now)
  let w := { w with loop := { w.loop with sleepers := w.loop.sleepers.dropWhile (·.1 ≤ now) } }
  due.foldl (fun w (_, timer) => w.finish timer (.ok .null)) w

/-! ### Waiting and cancelling -/

/-- The coroutine `r` waits for `target`. -/
def suspendOn (w : World) (r target : Ref .coroutine) : World :=
  let w := w.modifyCoroutine r fun c =>
    { c with stage := .suspendedAwait, awaiting := some target }
  w.modifyCoroutine target fun c => { c with waiters := c.waiters ++ [r] }

/-- Flags a coroutine and everything it gathers as cancelled, and lists what was newly flagged, a
gather task before its children. -/
def flagWithin : (depth : Nat) → World → Ref .coroutine → List (Ref .coroutine) × World
  | 0, w, _ => ([], w)
  | depth + 1, w, r =>
    let c := w.coroutines.get r
    if c.isDone || c.isCancelled then ([], w)
    else
      let w := w.modifyCoroutine r fun c => { c with isCancelled := true }
      c.children.foldl (fun (flagged, w) child =>
        let (more, w) := flagWithin depth w child
        (flagged ++ more, w)) ([r], w)

/-- Flags a coroutine and everything it gathers as cancelled. -/
def flagCancelled (w : World) (r : Ref .coroutine) : List (Ref .coroutine) × World :=
  flagWithin (w.coroutines.size + 1) w r

/-- The coroutine `r` waits no more for the one it has waited for. -/
def forgo (w : World) (r : Ref .coroutine) (awaited : Option (Ref .coroutine)) : World :=
  match awaited with
  | some t => w.modifyCoroutine t fun c => { c with waiters := c.waiters.filter (· != r) }
  | none => w

/-- Delivers a cancellation to a coroutine that waits: a suspended one wakes with the exception,
and a sleeping timer is done at once. -/
def deliverCancellation (w : World) (r : Ref .coroutine) : World :=
  match (w.coroutines.get r).stage with
  | .suspendedAwait =>
    let awaited := (w.coroutines.get r).awaiting
    let w := w.modifyCoroutine r fun c => { c with cancelDelivered := true, awaiting := none }
    (w.forgo r awaited).wake r (.error (Coroutine.cancellation 0 0))
  | .suspendedTimer =>
    let w := { w with
      loop := { w.loop with sleepers := w.loop.sleepers.filter (·.2 != r) } }
    -- it is flagged, so this ends it with the cancellation
    w.finish r (.ok .null)
  | _ => w

/-- Cancels a coroutine and everything it gathers; tells whether anything was newly cancelled. -/
def cancel (w : World) (r : Ref .coroutine) : Bool × World :=
  let (flagged, w) := w.flagCancelled r
  -- nobody is woken before all of them are flagged
  (!flagged.isEmpty, flagged.foldl deliverCancellation w)

/-! ### The ends of a loop -/

/-- A loop with nothing in it; the clock goes on. -/
def openLoop (w : World) : World := { w with loop := { now := w.loop.now } }

/-- Drops every link between the coroutines the loop has started, and empties it. -/
def teardown (w : World) : World :=
  (w.loop.started.foldl releaseLinks w).openLoop

end Rewind.World
