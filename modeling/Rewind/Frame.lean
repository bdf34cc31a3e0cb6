/-
Control flow between statements.

A statement ends normally, suspends the coroutine it runs in, or leaves its body with a signal.
When it suspends, every construct around it parks a frame; resuming re-enters the constructs from
the outside in, frame by frame, and runs the suspended statement again.

* `Signal`, `Status` — how a statement ends;
* `FrameKind` — what a construct needs to be re-entered;
* `Frame` — a parked construct and the place it starts at.
-/
import Rewind.Position
import Rewind.Value

namespace Rewind

/-- What can leave a body before its end. -/
inductive Signal where
  | stop
  | again
  | result (v : Value)
  | raised (r : Raised)
  deriving Inhabited

/-- How a statement ends. -/
inductive Status where
  | normal
  | yielded
  | leaving (s : Signal)
  deriving Inhabited

namespace Status

/-- The status of a statement left with a pending signal, if there is one. -/
def ofPending : Option Signal → Status
  | some s => leaving s
  | none => normal

end Status

/-- A loop over a range of numbers: the number of the current round, the end and the step. -/
structure RangeLoop where
  var : String
  current : Value
  last : Value
  step : Value
  body : Position
  deriving Inhabited

/-- A loop over the items a collection had when the loop began. -/
structure EachLoop where
  var : String
  items : Array Value
  next : Nat
  body : Position
  deriving Inhabited

/-- The part of a `try` statement that runs; `finally` keeps the signal that was pending when it
began. -/
inductive TryPhase where
  | body
  | handler
  | cleanup (pending : Option Signal)
  deriving Inhabited

/-- What is needed to go on inside a construct.  A simple statement is run again from its start. -/
inductive FrameKind where
  | simple
  | block
  | branch
  | whileLoop (header : Position)
  | rangeLoop (state : RangeLoop)
  | eachLoop (state : EachLoop)
  | attempt (phase : TryPhase)
  deriving Inhabited

/-- A construct parked around a suspended statement; `start` is its first token. -/
structure Frame where
  start : Position
  kind : FrameKind
  deriving Inhabited

end Rewind
