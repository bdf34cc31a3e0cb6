/-
Statements and bodies.

A statement starts with the cursor on its first token and leaves it on the first token behind it,
unless it yields.  A body is the statements at one column.  Whatever leaves a body early, the cursor
ends up on the first token behind it.

* `statement` — the statement under the cursor;
* `reenter` — a construct taken up again from its frame;
* `enter`, `conclude`, `execute` — a statement, with the frames and the tape it needs to be suspended;
* `runBody` — a body.
-/
import Rewind.Eval.Assignment
import Rewind.Eval.Definition
import Rewind.Eval.Load
import Rewind.Eval.Loop

namespace Rewind.Eval

/-! ### Simple statements -/

/-- The values behind the first one of a `return`, up to the last comma; `read` has the last one
first. -/
def resultItems (j : Jobs) : Nat → List Value → Eval (List Value)
  | 0, _ => exhausted
  | n + 1, read => do
    if ← skipOver .comma then resultItems j n ((← own (← holding read j.expression)) :: read)
    else return read.reverse

/-- `return: values`; several values are a tuple, and none on the line is null. -/
def returnStatement (j : Jobs) (n : Nat) : Eval Status := do
  let keyword ← bump
  if !(← mode).inFunction then malformed .returnOutsideFunction keyword
  let _ ← advance .colon
  let next ← current
  -- what stands on the next line is a statement of its own
  if next.kind = .eof ∨ next.line ≠ keyword.line then return .leaving (.result .null)
  let first ← own (← j.expression)
  let v ←
    if (← kind) = .comma then
      let values ← resultItems j n [first]
      onHeap (Heap.newTuple values.toArray)
    else pure first
  endStatement
  return .leaving (.result v)

/-- `raise: text` -/
def raiseStatement (j : Jobs) : Eval Status := do
  let keyword ← bump
  let _ ← advance .colon
  let v ← own (← j.expression)
  endStatement
  match v with
  | .str _ => return .leaving (.raised ⟨v, keyword.line, keyword.column⟩)
  | other => complain (.raisedNonString other.kind) keyword

/-- `break` or `continue` -/
def loopSignal (signal : Signal) : Eval Status := do
  let token ← current
  if (← mode).loopDepth = 0 then malformed (.outsideLoop token.kind) token
  let _ ← bump
  endStatement
  return .leaving signal

/-- `skip` -/
def skipStatement : Eval Status := do
  let _ ← bump
  endStatement
  return .normal

/-- An expression whose value is dropped. -/
def expressionStatement (j : Jobs) : Eval Status := do
  let _ ← j.expression
  endStatement
  return .normal

/-! ### Any statement -/

/-- The statements a blueprint body may hold start with this kind of token. -/
def startsMember (k : TokenKind) : Bool := k == .kwLet || k == .kwFunct || k == .kwAsync

/-- The statement under the cursor. -/
def statement (j : Jobs) (n : Nat) : Eval Status := do
  let token ← current
  if (← mode).inBlueprint && !startsMember token.kind then malformed .membersOnly token
  match token.kind with
  | .kwLet => letStatement j n
  | .kwFunct | .kwAsync => functStatement j n
  | .kwReturn => returnStatement j n
  | .kwIf => ifStatement j n
  | .kwLoop => loopStatement j n
  | .kwBreak => loopSignal .stop
  | .kwContinue => loopSignal .again
  | .kwSkip => skipStatement
  | .lbrace => blockStatement j
  | .kwRaise => raiseStatement j
  | .kwTry => tryStatement j
  | .kwBlueprint => blueprintStatement j
  | .kwLoad => loadStatement j n
  | .ident | .kwSuper | .kwAwait => expressionStatement j
  | .eof => return .normal
  | .kwElif | .kwElse => malformed (.danglingBranch token.kind) token
  | .kwCatch | .kwFinally => malformed (.danglingClause token.kind) token
  | other => malformed (.unexpectedStart other) token

/-- Goes on inside a construct at `column` that was suspended; `body` is the rest of the body it was
suspended in.  A simple statement has none and runs again. -/
def reenter (j : Jobs) (n : Nat) (column : Nat) (body : Run Status) : FrameKind → Eval Status
  | .simple => statement j n
  | .block => finishBlock column body
  | .branch => finishBranch n column body
  | .whileLoop header => inLoop (whileRound header (whileRounds j column header n) body)
  | .rangeLoop l => inLoop (rangeRound column l (rangeRounds j column n) body)
  | .eachLoop l => overItems l (eachRound column l (eachRounds j column n) body)
  | .attempt phase => runTry j column body phase

/-! ### Execution -/

/-- Takes the frame to re-enter next off the list, if it is the one of the construct at `start`. -/
def takeFrame (start : Position) : Run (Option FrameKind) := do
  match (← get).thread.resume with
  | frame :: rest =>
    if frame.start = start then
      modifyThread fun t => { t with resume := rest }
      return some frame.kind
    else return none
  | [] => return none

/-- The exception a cancelled coroutine gets at the next statement of its body, once. -/
def takeCancellation : Run (Option Raised) := do
  let t := (← get).thread
  match t.mode.inAsync, t.task with
  | true, some task =>
    let c ← ask fun w => w.coroutines.get task
    if !c.isCancelled || c.cancelDelivered then return none
    modifyWorld (·.modifyCoroutine task fun c => { c with cancelDelivered := true })
    let token := t.cursor.current
    return some (Coroutine.cancellation token.line token.column)
  | _, _ => return none

/-- Runs a statement from its first token, or from its frame. -/
def enter (j : Jobs) (n : Nat) (start : Position) : Eval Status := do
  match ← takeFrame start with
  | some kind => reenter j n start.column (j.body (start.column + 4)) kind
  | none =>
    -- a statement that is replayed keeps the outcomes it has come to
    resetTapeUnlessReplaying
    match ← takeCancellation with
    | some raised => return .leaving (.raised raised)
    | none => statement j n

/-- Parks a frame for the construct at `start`: the one it has asked for, else that of a simple
statement. -/
def parkFrame (start : Position) : Run Unit :=
  modifyThread fun t =>
    { t with parking := none, parked := ⟨start, t.parking.getD .simple⟩ :: t.parked }

/-- Ends the statement that started at `start`.  One that yields or suspends parks its frame; any
other end of a statement of a coroutine empties the tape. -/
def conclude (start : Position) (x : Eval Status) : Run Status := do
  match ← attempt x with
  | .value .yielded =>
    parkFrame start
    return .yielded
  | .value status =>
    resetTape
    return status
  | .raised r =>
    resetTape
    return .leaving (.raised r)
  | .suspended =>
    -- an `await` inside it: the statement runs again from its first token
    modifyThread fun t => { t with parked := ⟨start, .simple⟩ :: t.parked }
    return .yielded

/-- Runs the statement under the cursor. -/
def execute (j : Jobs) (n : Nat) : Run Status := do
  move Cursor.skipColons
  let start ← capture
  conclude start (enter j n start)

/-- What follows the run of a statement of the body at `column`: `next`, unless it ends the body. -/
def goOn (column : Nat) (next : Run Status) (x : Run Status) : Run Status := do
  match ← x with
  | .normal => next
  | .yielded => return .yielded
  | .leaving signal =>
    -- the cursor may stand anywhere in the statement that was left
    skipBody column
    return .leaving signal

/-- Runs statements up to a token that starts a line left of `column`. -/
def statements (j : Jobs) (column : Nat) : Nat → Run Status
  | 0 => exhausted
  | n + 1 => do
    move Cursor.skipColons
    let cursor := (← get).thread.cursor
    let token := cursor.current
    if token.kind = .eof then return .normal
    -- a statement behind a colon shares its line, and its column says nothing
    if cursor.atLineStart then
      if token.column < column then return .normal
      if column < token.column then
        malformed (.unexpectedIndentation column token.column) token
    goOn column (statements j column n) (execute j n)

/-- Runs the body at `column` that starts under the cursor.  A body that is resumed starts at the
frame to re-enter next. -/
def runBody (j : Jobs) (n : Nat) (column : Nat) : Run Status := do
  match (← get).thread.resume with
  | frame :: _ => rewind frame.start
  | [] => pure ()
  statements j column n

end Rewind.Eval
