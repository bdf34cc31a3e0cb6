/-
Coroutines.

A coroutine is a call of an `async` function that has not finished, a timer, or a gather task that
waits for several others.

* `GatherState`, `GatherState.outcome` — the slots of a gather task and what they add up to;
* `CoroutineKind`, `Coroutine` — the three kinds and the record all of them share;
* `Coroutine.outcome` — how a finished coroutine came out.
-/
import Rewind.Frame
import Rewind.Tape
import Rewind.Failure.Complaint

namespace Rewind

/-- The children of a gather task and the outcomes they have reported so far. -/
structure GatherState where
  children : List (Ref .coroutine)
  slots : List (Option Outcome)
  pending : Nat
  returnExceptions : Bool

namespace GatherState

/-- A gather task of which no child has reported. -/
def ofChildren (children : List (Ref .coroutine)) (returnExceptions : Bool) : GatherState :=
  ⟨children, List.replicate children.length none, children.length, returnExceptions⟩

/-- Fills an empty slot; a slot filled before keeps its outcome. -/
def fill (g : GatherState) (slot : Nat) (outcome : Outcome) : GatherState :=
  match g.slots[slot]? with
  | some none => { g with slots := g.slots.set slot (some outcome), pending := g.pending - 1 }
  | _ => g

/-- The values of the slots in order, an exception standing for itself if exceptions are returned
and ending the list if not; a slot never filled counts as null. -/
def collect (returnExceptions : Bool) : List (Option Outcome) → Except Raised (List Value)
  | [] => .ok []
  | slot :: slots =>
    match slot with
    | some (.ok v) => (collect returnExceptions slots).map (v :: ·)
    | some (.error r) =>
      if returnExceptions then (collect returnExceptions slots).map (r.value :: ·) else .error r
    | none => (collect returnExceptions slots).map (.null :: ·)

/-- What a gather task comes to: the array of its children's results in order, or the exception of
the first child that failed. -/
def outcome (g : GatherState) : StateM Heap Outcome := do
  match collect g.returnExceptions g.slots with
  | .ok values => return .ok (← Heap.newArray values.toArray)
  | .error r => return .error r

end GatherState

/-- The body of an `async` function and the blueprint it is a method of, a timer and the time it
ends at, or a gather task. -/
inductive CoroutineKind where
  | script (function : Ref .function) (owner : Option (Ref .blueprint))
  | timer (wake : Nat)
  | gather (state : GatherState)

/-- A coroutine: its stage, its outcome once it is done, who waits for it, whom it waits for, and
what it needs to go on. -/
structure Coroutine where
  serial : Nat
  name : String
  kind : CoroutineKind
  stage : Stage := .new
  result : Value := .null
  exception : Option Raised := none
  isCancelled : Bool := false
  cancelDelivered : Bool := false
  waiters : List (Ref .coroutine) := []
  awaiting : Option (Ref .coroutine) := none
  parents : List (Ref .coroutine × Nat) := []
  scope : Option (Ref .scope) := none
  frames : List Frame := []
  tape : Tape := {}

namespace Coroutine

instance : Inhabited Coroutine := ⟨{ serial := 0, name := "", kind := .timer 0 }⟩

def isDone (c : Coroutine) : Bool := c.stage == .done

/-- How a finished coroutine came out. -/
def outcome (c : Coroutine) : Outcome :=
  match c.exception with
  | some r => .error r
  | none => .ok c.result

/-- The children of a gather task; other coroutines have none. -/
def children (c : Coroutine) : List (Ref .coroutine) :=
  match c.kind with
  | .gather g => g.children
  | _ => []

/-- The exception a cancelled coroutine ends with. -/
def cancellation (line column : Nat) : Raised := ⟨.str Complaint.cancelled.message, line, column⟩

end Coroutine

end Rewind
