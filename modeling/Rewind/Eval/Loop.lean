/-
Loops.

A loop re-enters its source once a round: `while` at its condition, the others at the first token
of the body.  A loop over a range or a collection has a scope of its own for its variable, which
lasts for all rounds.

* `whileRound`, `whileRounds` — `loop: while condition:`;
* `RangeLoop.continues`, `RangeLoop.advance?`, `rangeRounds` — `loop: for i from a to b step c:`;
* `iterable`, `eachRound`, `eachRounds` — `loop: for x in xs:`;
* `loopStatement` — the statement.
-/
import Rewind.Eval.Branch

namespace Rewind

namespace RangeLoop

/-- The number of the current round has not passed the end. -/
def continues (l : RangeLoop) : Bool :=
  match l.current, l.last, l.step with
  | .int current, .int last, .int step => if 0 < step then current ≤ last else last ≤ current
  | current, last, step =>
    match current.number?, last.number?, step.number? with
    | some current, some last, some step => if 0 < step then current ≤ last else last ≤ current
    | _, _, _ => false

/-- The loop at its next number; the loop ends where that is no integer of 64 bits any more. -/
def advance? (l : RangeLoop) : Option RangeLoop :=
  match l.current, l.step with
  | .int current, .int step =>
    let next := current + step
    if minInt ≤ next ∧ next ≤ maxInt then some { l with current := .int next } else none
  | current, step =>
    some { l with current := .float (current.number?.getD 0 + step.number?.getD 0) }

end RangeLoop

namespace Eval

/-- Runs a computation inside one more loop. -/
def inLoop {α : Type} (x : Eval α) : Eval α := fun m =>
  match (do modifyMode fun mode => { mode with loopDepth := mode.loopDepth + 1 }; x : Eval α) m with
  | .ok a m => .ok a (leave m)
  | .error e m => .error e (leave m)
where
  /-- Out of the innermost loop. -/
  leave (m : Machine) : Machine :=
    let mode := m.thread.mode
    { m with thread := { m.thread with mode := { mode with loopDepth := mode.loopDepth - 1 } } }

/-! ### While -/

/-- Whether a `while` loop has another round; the cursor is at the body then. -/
def whileCondition (j : Jobs) (column : Nat) (header : Position) : Eval Bool := do
  rewind header
  -- what an earlier round recorded is not for this condition
  resetTapeUnlessReplaying
  let site ← current
  match (← j.expression).value with
  | .bool proceed =>
    enterBlock column
    return proceed
  | other => complain (.conditionNotBoolean other.kind) site

/-- One round of a `while` loop; `again` are the rounds behind it. -/
def whileRound (header : Position) (again : Eval Status) (body : Run Status) : Eval Status := do
  match ← body with
  | .normal | .leaving .again => again
  | .yielded => park (.whileLoop header)
  | .leaving .stop => return .normal
  | status => return status

/-- The rounds of a `while` loop, from its condition on. -/
def whileRounds (j : Jobs) (column : Nat) (header : Position) : Nat → Eval Status
  | 0 => exhausted
  | n + 1 => do
    if ← whileCondition j column header then
      whileRound header (whileRounds j column header n) (j.body (column + 4))
    else
      skipBody (column + 4)
      return .normal

/-! ### Ranges and collections -/

/-- Drops the scope of a loop and moves behind its body. -/
def leaveLoop (column : Nat) (body : Position) : Eval Unit := do
  popScope
  rewind body
  skipBody (column + 4)

/-- One round of a loop over a range; `again` are the rounds behind it. -/
def rangeRound (column : Nat) (l : RangeLoop) (again : RangeLoop → Eval Status)
    (body : Run Status) : Eval Status := do
  match ← body with
  | .normal | .leaving .again =>
    match l.advance? with
    | some l => again l
    | none =>
      leaveLoop column l.body
      return .normal
  | .yielded => park (.rangeLoop l)
  | .leaving .stop =>
    leaveLoop column l.body
    return .normal
  | status =>
    leaveLoop column l.body
    return status

/-- The rounds of a loop over a range. -/
def rangeRounds (j : Jobs) (column : Nat) : Nat → RangeLoop → Eval Status
  | 0, _ => exhausted
  | n + 1, l => do
    if !l.continues then
      leaveLoop column l.body
      return .normal
    define l.var l.current
    rewind l.body
    rangeRound column l (rangeRounds j column n) (j.body (column + 4))

/-- One round of a loop over a collection; `again` are the rounds behind it. -/
def eachRound (column : Nat) (l : EachLoop) (again : EachLoop → Eval Status)
    (body : Run Status) : Eval Status := do
  match ← body with
  | .normal | .leaving .again => again { l with next := l.next + 1 }
  | .yielded => park (.eachLoop l)
  | .leaving .stop =>
    leaveLoop column l.body
    return .normal
  | status =>
    leaveLoop column l.body
    return status

/-- The rounds of a loop over a collection.  The variable is bound to a copy of each item. -/
def eachRounds (j : Jobs) (column : Nat) : Nat → EachLoop → Eval Status
  | 0, _ => exhausted
  | n + 1, l => do
    match l.items[l.next]? with
    | none =>
      leaveLoop column l.body
      return .normal
    | some item =>
      -- the copy is made now, not when the loop began
      define l.var (← onHeap (Heap.duplicate item))
      rewind l.body
      eachRound column l (eachRounds j column n) (j.body (column + 4))

/-- Runs a loop over a collection, whose items are at hand until it is over. -/
def overItems (l : EachLoop) (x : Eval Status) : Eval Status :=
  holding l.items.toList (inLoop x)

/-- What a loop over a value goes through: items, characters or keys. -/
def iterable (heap : Heap) : Value → Except Complaint (Array Value)
  | .array r => .ok (heap.array r)
  | .tuple r => .ok (heap.tuple r)
  -- by characters, as a slice is
  | .str s => .ok (s.toList.map fun c => .str (String.singleton c)).toArray
  | .dict r => .ok ((heap.dict r).keys.map .str).toArray
  | other => .error (.notIterable other.kind)

/-- Raises an exception unless three bounds are numbers and the step is not zero. -/
def checkBounds (first last step : Value) (site : Token) : Eval Unit := do
  for bound in [first, last, step] do
    if bound.number?.isNone then complain (.boundNotNumber bound.kind) site
  if step.isZero then complain .zeroStep site

/-- `from first to last step step:` and the loop -/
def rangeLoop (j : Jobs) (n : Nat) (column : Nat) (var : String) : Eval Status := do
  let _ ← bump
  let site ← current
  let first ← own (← j.expression)
  let _ ← advance .kwTo
  let last ← own (← holding [first] j.expression)
  let step ←
    if ← skipOver .kwStep then own (← holding [first, last] j.expression) else pure (.int 1)
  enterBlock column
  checkBounds first last step site
  -- the rounds come back to the first token of the body
  let l := { var, current := first, last, step, body := ← capture }
  pushScope
  inLoop (rangeRounds j column n l)

/-- `in collection:` and the loop -/
def eachLoop (j : Jobs) (n : Nat) (column : Nat) (var : String) : Eval Status := do
  let _ ← bump
  let site ← current
  let collection ← j.expression
  enterBlock column
  let items ← orComplain site (← ask fun w => iterable w.heap collection.value)
  let l := { var, items, next := 0, body := ← capture }
  pushScope
  overItems l (eachRounds j column n l)

/-- `for variable` and the two forms of loop behind it -/
def forLoop (j : Jobs) (n : Nat) (column : Nat) : Eval Status := do
  let _ ← advance .kwFor
  let var ← advance .ident
  match ← kind with
  | .kwFrom => rangeLoop j n column var.text
  | .kwIn => eachLoop j n column var.text
  | _ => malformed .loopSourceExpected (← current)

/-- `loop: while …` and `loop: for …` -/
def loopStatement (j : Jobs) (n : Nat) : Eval Status := do
  let column := (← bump).column
  let _ ← advance .colon
  match ← kind with
  | .kwWhile =>
    let _ ← bump
    let header ← capture
    inLoop (whileRounds j column header n)
  | .kwFor => forLoop j n column
  | _ => malformed .loopFormExpected (← current)

end Eval

end Rewind
