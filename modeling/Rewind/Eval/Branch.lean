/-
Blocks, branches and `try`.

The bodies of these constructs may suspend.  A construct whose body has yielded asks for a frame
and yields itself; its second entry point, the one that takes up after the header, is where it is
re-entered from that frame.  It is given the run of the body, which may start inside it.

* `park` — asks for a frame;
* `blockStatement`, `finishBlock` — `{ … }`;
* `ifStatement`, `finishBranch` — `if:`, `elif:`, `else:`;
* `tryStatement`, `runTry` — `try:`, `catch`, `finally`.
-/
import Rewind.Eval.Jobs

namespace Rewind.Eval

/-- Yields from a construct that is to be re-entered in the way `kind` says. -/
def park (kind : FrameKind) : Eval Status := do
  modifyThread fun t => { t with parking := some kind }
  return .yielded

/-! ### Blocks -/

/-- The statements of a block whose brace stands at `column`, and its closing brace right below. -/
def finishBlock (column : Nat) (body : Run Status) : Eval Status := do
  match ← body with
  | .yielded => park .block
  | status =>
    popScope
    -- also behind a body that was left, which ends on the same token
    let close ← current
    if close.kind ≠ .rbrace then malformed .unclosedBlock close
    if close.column ≠ column then malformed (.misalignedBrace close.column column) close
    let _ ← bump
    return status

/-- A block, in a scope of its own. -/
def blockStatement (j : Jobs) : Eval Status := do
  let brace ← bump
  pushScope
  finishBlock brace.column (j.body (brace.column + 4))

/-! ### Branches -/

/-- Past the branches that follow the one taken. -/
def skipBranches (column : Nat) : Nat → Run Unit
  | 0 => exhausted
  | n + 1 => do
    let token ← current
    if (token.kind = .kwElif ∨ token.kind = .kwElse) ∧ token.column = column then
      let _ ← bump
      skipBody (column + 4)
      skipBranches column n

/-- Runs the branch taken and passes the others. -/
def finishBranch (n : Nat) (column : Nat) (body : Run Status) : Eval Status := do
  match ← body with
  | .yielded => park .branch
  | status =>
    skipBranches column n
    return status

/-- From the colon behind `if` or `elif` on: the first branch whose condition holds runs, or the one
behind `else`. -/
def branches (j : Jobs) (column : Nat) : Nat → Eval Status
  | 0 => exhausted
  | n + 1 => do
    let _ ← advance .colon
    let taken ← truthy (← j.expression)
    enterBlock column
    if taken then return ← finishBranch n column (j.body (column + 4))
    skipBody (column + 4)
    let token ← current
    -- an `elif` further left belongs to a construct around this one
    if token.column ≠ column then return .normal
    match token.kind with
    | .kwElif =>
      let _ ← bump
      branches j column n
    | .kwElse =>
      let _ ← bump
      enterBlock column
      finishBranch n column (j.body (column + 4))
    | _ => return .normal

/-- `if: condition:` and its branches -/
def ifStatement (j : Jobs) (n : Nat) : Eval Status := do
  let keyword ← bump
  branches j keyword.column n

/-! ### Exceptions -/

/-- A clause of a `try` statement at `column` stands here. -/
def isClause (k : TokenKind) (column : Nat) : Run Bool := do
  let token ← current
  return token.kind == k && token.column == column

/-- The body of `finally`.  A signal that leaves it takes the place of the pending one, whose value
is at hand meanwhile. -/
def finallyBody (pending : Option Signal) (body : Run Status) : Eval Status := do
  -- the pending signal is kept in the frame if the body is suspended
  match ← holding (pending.toList.flatMap Signal.carried) (body : Eval Status) with
  | .yielded => park (.attempt (.cleanup pending))
  | .normal => return .ofPending pending
  | status => return status

/-- `finally`, if it stands here, behind a body or handler that ended with `pending`; without a
handler it has to. -/
def finallyClause (j : Jobs) (column : Nat) (handled : Bool) (pending : Option Signal) :
    Eval Status := do
  if ← isClause .kwFinally column then
    let _ ← bump
    enterBlock column
    return ← finallyBody pending (j.body (column + 4))
  if !handled then malformed .clauseMissing (← current)
  return .ofPending pending

/-- The body of a handler, in the scope made for it, and what follows. -/
def handlerBody (j : Jobs) (column : Nat) (body : Run Status) : Eval Status := do
  match ← body with
  | .yielded => park (.attempt .handler)
  | .normal =>
    popScope
    finallyClause j column true none
  | .leaving signal =>
    popScope
    finallyClause j column true (some signal)

/-- `catch` behind a body that ended with `pending`, and what follows: an exception is handled,
any other signal passes the handler by. -/
def handlerClause (j : Jobs) (column : Nat) (pending : Option Signal) : Eval Status := do
  let _ ← bump
  let name ← if ← skipOver .kwAs then some <$> advance .ident else pure none
  enterBlock column
  match pending with
  | some (.raised r) =>
    pushScope
    match name with
    | some token => define token.text r.value
    | none => pure ()
    handlerBody j column (j.body (column + 4))
  | other =>
    -- nothing was raised: the handler is passed and its name not bound
    skipBody (column + 4)
    finallyClause j column true other

/-- What follows the body of a `try` statement that ended with `pending`. -/
def tryClauses (j : Jobs) (column : Nat) (pending : Option Signal) : Eval Status := do
  -- a body that was left ends on the token behind it, as one that ran to its end
  if ← isClause .kwCatch column then handlerClause j column pending
  else finallyClause j column false pending

/-- A `try` statement from a phase on. -/
def runTry (j : Jobs) (column : Nat) (body : Run Status) : TryPhase → Eval Status
  | .body => do
    match ← body with
    | .yielded => park (.attempt .body)
    | .normal => tryClauses j column none
    | .leaving signal => tryClauses j column (some signal)
  | .handler => handlerBody j column body
  | .cleanup pending => finallyBody pending body

/-- `try:`, its body and its clauses -/
def tryStatement (j : Jobs) : Eval Status := do
  let keyword ← bump
  enterBlock keyword.column
  runTry j keyword.column (j.body (keyword.column + 4)) .body

end Rewind.Eval
