/-
Expressions.

One function per level of precedence, the loosest first.  In skip mode every level still passes its
tokens, so that the cursor ends where evaluation would have left it, but nothing is looked up,
called or computed.

* `conditional` — `a if c else b`, of which only the chosen side is evaluated;
* `orExpr`, `andExpr`, `equality`, `identity`, `comparison`, `additive`, `multiplicative` — the
  binary operators;
* `unaryExpr`, `power`, `chain`, `primary` — operands;
* `interpolate` — the text of a string literal with its holes filled;
* `launch`, `waitFor`, `awaitExpr` — waiting for a coroutine.
-/
import Rewind.Template
import Rewind.Eval.Access
import Rewind.Eval.Call

namespace Rewind.Eval

/-- A value on its own, or null while skipping: nothing is made then. -/
def unlessSkipping (x : Eval Held) : Eval Held := do
  if ← isSkipping then return Held.null else x

/-! ### Operands -/

/-- Items up to a closing bracket, separated by commas; a comma may stand behind the last one. -/
def items (j : Jobs) (close : TokenKind) : Nat → List Value → Eval (List Value)
  | 0, _ => exhausted
  | n + 1, read => do
    if (← kind) = close then return read.reverse
    let read := (← own (← holding read j.expression)) :: read
    if ← skipOver .comma then items j close n read else return read.reverse

/-- The arguments of a call up to and including the closing parenthesis. -/
def arguments (j : Jobs) : Nat → CallArgs → Eval CallArgs
  | 0, _ => exhausted
  | n + 1, args => do
    if (← kind) = .rparen then return ← finish args
    let args ←
      if ← isNamed then do
        let name ← bump
        let _ ← bump
        let v ← own (← holding args.values j.expression)
        pure { args with named := args.named ++ [(name.text, v, name)] }
      else do
        -- the first named argument is the one that is complained about
        match args.named with
        | (_, _, first) :: _ => malformed .positionalAfterNamed first
        | [] =>
          let v ← own (← holding args.values j.expression)
          pure { args with positional := args.positional ++ [v] }
    if ← skipOver .comma then arguments j n args else finish args
where
  /-- The argument ahead is of the form `name = value`. -/
  isNamed : Run Bool := do
    if (← kind) ≠ .ident then return false
    match (← get).thread.cursor.peek with
    | .ok next => return next.kind == .assign
    | .error failure => fail failure
  /-- Past the closing parenthesis. -/
  finish (args : CallArgs) : Run CallArgs := do
    let _ ← advance .rparen
    return args

/-- The rest of a tuple whose first items are `read`, the last one first. -/
def tupleItems (j : Jobs) : Nat → List Value → Eval (List Value)
  | 0, _ => exhausted
  | n + 1, read => do
    if !(← skipOver .comma) then return read.reverse
    if (← kind) = .rparen then return read.reverse
    tupleItems j n ((← own (← holding read j.expression)) :: read)

/-- Behind an opening parenthesis: nothing, one expression, or the items of a tuple. -/
def parenthesized (j : Jobs) (n : Nat) : Eval Held := do
  if ← skipOver .rparen then
    return ← unlessSkipping (return .fresh (← onHeap (Heap.newTuple #[])))
  let first ← j.expression
  if (← kind) ≠ .comma then
    let _ ← advance .rparen
    return first
  let values ← tupleItems j n [← own first]
  let _ ← advance .rparen
  unlessSkipping (return .fresh (← onHeap (Heap.newTuple values.toArray)))

/-- Behind an opening bracket: the items of an array. -/
def arrayLiteral (j : Jobs) (n : Nat) : Eval Held := do
  let values ← items j .rbracket n []
  let _ ← advance .rbracket
  unlessSkipping (return .fresh (← onHeap (Heap.newArray values.toArray)))

/-- The entries of a dictionary. -/
def dictEntries (j : Jobs) : Nat → Dict Value → Eval (Dict Value)
  | 0, _ => exhausted
  | n + 1, d => do
    if (← kind) = .rbrace then return d
    let site ← current
    let key ← holding d.values j.expression
    let _ ← advance .colon
    let v ← own (← holding (key.value :: d.values) j.expression)
    let d ←
      -- a skipped key is null, which is no error then
      if ← isSkipping then pure d
      else match key.value with
        | .str key => pure (d.set key v)
        | other => complain (.keyNotString other.kind) site
    if ← skipOver .comma then dictEntries j n d else return d

/-- Behind an opening brace: the entries of a dictionary. -/
def dictLiteral (j : Jobs) (n : Nat) : Eval Held := do
  let d ← dictEntries j n {}
  let _ ← advance .rbrace
  unlessSkipping (return .fresh (← onHeap (Heap.newDict d)))

/-- The value of the code in a hole, evaluated in place.  The cursor comes back to the literal. -/
def embedded (j : Jobs) (code : List Char) (site : Token) : Eval Value := do
  -- a source of its own: no place in it is one in the program
  let id := (← get).sources
  modify fun m => { m with sources := id + 1 }
  match Cursor.ofSource ⟨id, code⟩ with
  | .error fault => malformed (.inInterpolation fault.cause) site
  | .ok cursor =>
    let outer := (← get).thread.cursor
    setCursor cursor
    let (held, trailing) ← restoring outer do
      let held ← j.expression
      return (held, ← kind)
    if trailing ≠ .eof then malformed .tokensAfterHole site
    own held
where
  /-- Runs a computation and puts the cursor back, however it ends. -/
  restoring {α : Type} (outer : Cursor) (x : Eval α) : Eval α := fun m =>
    match x m with
    | .ok a m => .ok a { m with thread := { m.thread with cursor := outer } }
    | .error e m => .error e { m with thread := { m.thread with cursor := outer } }

/-- Fills the holes of a template from left to right, behind the text `done`. -/
def fill (j : Jobs) (site : Token) : String → Template → Eval String
  | done, .plain text => return done ++ String.ofList text
  | _, .broken _ => malformed .unterminatedHole site
  | done, .hole before code rest => do
    let v ← embedded j code site
    let text ← render j v site
    fill j site (done ++ String.ofList before ++ text) rest

/-- The text of a string literal with its holes filled. -/
def interpolate (j : Jobs) (token : Token) : Eval String :=
  fill j token "" (Template.ofChars token.text.toList)

/-- The float a literal denotes. -/
def floatOfLiteral (text : String) : Float :=
  let cs := text.toList
  let fraction := (cs.dropWhile Char.isDigit).drop 1
  Float.ofScientific (natOfDigits (cs.filter Char.isDigit)) true fraction.length

/-- A name: a built-in function if a call follows, else a variable. -/
def name (token : Token) : Eval Held := do
  if (← kind) = .lparen then
    match Native.builtin? token.text with
    | some native => return .fresh (← newFunction ⟨token.text, .native native⟩)
    | none => pure ()
  match ← lookup token.text with
  | some v => return .view v
  | none => complain (.undefinedVariable token.text) token

/-- A literal, a name, or something in brackets. -/
def primary (j : Jobs) (n : Nat) : Eval Held := do
  let token ← bump
  match token.kind with
  | .int => return .fresh (.int (natOfDigits token.text.toList))
  | .float => return .fresh (.float (floatOfLiteral token.text))
  -- a skipped literal keeps its holes unread
  | .str => unlessSkipping (return .fresh (.str (← interpolate j token)))
  | .kwTrue => return .fresh (.bool true)
  | .kwFalse => return .fresh (.bool false)
  | .kwNull => return Held.null
  | .lparen => parenthesized j n
  | .lbracket => arrayLiteral j n
  | .lbrace => dictLiteral j n
  | .ident => unlessSkipping (name token)
  | .kwSuper => unlessSkipping (superProxy token)
  | other => malformed (.unexpectedInExpression other) token

/-- Attributes, items and calls behind an operand. -/
def chain (j : Jobs) : Nat → Held → Eval Held
  | 0, _ => exhausted
  | n + 1, v => do
    match ← kind with
    | .dot =>
      let _ ← bump
      let member ← if (← kind) = .kwBlueprint then bump else advance .ident
      if ← isSkipping then chain j n v
      else chain j n (← readAttribute v member.text member)
    | .lbracket =>
      let site ← bump
      let index ← holding [v.value] j.expression
      let _ ← advance .rbracket
      if ← isSkipping then chain j n v
      else chain j n (← readItem v (← own index) site)
    | .lparen =>
      let site ← bump
      let args ← holding [v.value] (arguments j n {})
      if ← isSkipping then chain j n v
      else chain j n (← j.invoke v.value args site)
    | _ => return v

/-- A power; the exponent binds as a unary operand does. -/
def power (j : Jobs) (n : Nat) : Eval Held := do
  let base ← chain j n (← primary j n)
  if (← kind) ≠ .caret then return base
  let op ← bump
  let exponent ← holding [base.value] j.unary
  unlessSkipping do
    return .fresh (← orComplain op (Value.power op base.value exponent.value))

/-! ### Waiting -/

/-- Starts a coroutine that is to be waited for, unless it is done. -/
def launch (target : Ref .coroutine) : Eval Unit := do
  if !(← ask fun w => (w.coroutines.get target).isDone) then
    if !(← get).thread.driven then fail (.internal .awaitOutsideLoop)
    modifyWorld (·.start target)

/-- Waits for the coroutine a value stands for: one that is done gives its outcome at once, for any
other, which is started if it is new, the running coroutine suspends. -/
def waitFor (keyword : Token) (v : Value) : Eval Held := do
  match ← ask fun w => w.coroutine? v with
  | none => complain (.awaitedNonCoroutine v.kind) keyword
  | some target =>
    match (← get).thread.task with
    | none => fail (.internal .awaitOutsideTask)
    | some task =>
      if task = target then complain .awaitedItself keyword
      launch target
      -- a gather task is done as soon as it is started if all its children are
      let c ← ask fun w => w.coroutines.get target
      if c.isDone then
        return ← settle (← onHeap (Heap.duplicateOutcome c.outcome))
      modifyWorld (·.suspendOn task target)
      throw .suspended

/-- `await` and its operand: the outcome of a coroutine, for which the running one may have to
suspend. -/
def awaitExpr (j : Jobs) : Eval Held := do
  let keyword ← advance .kwAwait
  if !(← mode).inAsync then malformed .awaitOutsideAsync keyword
  let operand ← j.unary
  if ← isSkipping then return Held.null
  -- a replay takes the outcome, whatever the operand has come to this time
  match ← replayed with
  | some outcome => resume outcome
  | none => waitFor keyword operand.value

/-- A unary operator, `await`, or a power. -/
def unaryExpr (j : Jobs) (n : Nat) : Eval Held := do
  match ← kind with
  | .kwNot =>
    let _ ← bump
    let operand ← j.unary
    unlessSkipping (return .fresh (.bool !(← truthy operand)))
  | .minus =>
    let op ← bump
    let operand ← j.unary
    unlessSkipping (return .fresh (← orComplain op operand.value.negate))
  | .kwAwait => awaitExpr j
  | _ => power j n

/-! ### Binary operators -/

/-- A string written several times over. -/
def repeated (s : String) (count : Int) (op : Token) : Eval Value := do
  if count < 0 then complain .negativeRepeat op
  if maxTextBytes < s.utf8ByteSize * count.toNat then
    fail (.system (.repeatTooLong count op.line))
  return .str (repeatText s count.toNat)

/-- `*`, `/` or `%` -/
def multiply (op : Token) (a b : Value) : Eval Value :=
  match op.kind, a, b with
  | .star, .str s, .int count | .star, .int count, .str s => repeated s count op
  | .slash, a, b => orComplain op (Value.divide op a b)
  | .percent, a, b => orComplain op (Value.remainder op a b)
  | _, a, b => orComplain op (Value.numeric op a b)

def multiplicativeTail (j : Jobs) : Nat → Held → Eval Held
  | 0, _ => exhausted
  | n + 1, left => do
    match ← kind with
    | .star | .slash | .percent =>
      let op ← bump
      let right ← holding [left.value] j.unary
      if ← isSkipping then multiplicativeTail j n left
      else multiplicativeTail j n (.fresh (← multiply op left.value right.value))
    | _ => return left

def multiplicative (j : Jobs) (n : Nat) : Eval Held := do
  multiplicativeTail j n (← j.unary)

/-- `+`: strings are joined, objects add themselves through `op_add`, numbers are added. -/
def add (j : Jobs) (op : Token) (left right : Held) : Eval Held := do
  match left.value, right.value with
  -- a string on either side goes before the operator of an object
  | .str _, _ | _, .str _ =>
    holding [left.value, right.value] do
      let first ← render j left.value op
      let second ← render j right.value op
      return .fresh (.str (first ++ second))
  | .object r, _ =>
    match ← ask fun w => w.operator? r "op_add" with
    | none => complain (Value.unsupported op left.value right.value) op
    | some (f, owner) =>
      let method ← newMethod ⟨.object r, f, some owner⟩
      let right ← own right
      holding [left.value] (j.invoke method { positional := [right] } op)
  | a, b => return .fresh (← orComplain op (Value.numeric op a b))

def additiveTail (j : Jobs) : Nat → Held → Eval Held
  | 0, _ => exhausted
  | n + 1, left => do
    match ← kind with
    | .plus =>
      let op ← bump
      let right ← holding [left.value] (multiplicative j n)
      if ← isSkipping then additiveTail j n left
      else additiveTail j n (← add j op left right)
    | .minus =>
      let op ← bump
      let right ← holding [left.value] (multiplicative j n)
      if ← isSkipping then additiveTail j n left
      else additiveTail j n (.fresh (← orComplain op (Value.numeric op left.value right.value)))
    | _ => return left

def additive (j : Jobs) (n : Nat) : Eval Held := do
  additiveTail j n (← multiplicative j n)

def comparisonTail (j : Jobs) : Nat → Held → Eval Held
  | 0, _ => exhausted
  | n + 1, left => do
    match ← kind with
    | .lt | .gt | .lte | .gte =>
      let op ← bump
      let right ← holding [left.value] (additive j n)
      if ← isSkipping then comparisonTail j n left
      else
        comparisonTail j n
          (.fresh (.bool (← orComplain op (Value.compare op left.value right.value))))
    | _ => return left

def comparison (j : Jobs) (n : Nat) : Eval Held := do
  comparisonTail j n (← additive j n)

def identityTail (j : Jobs) : Nat → Held → Eval Held
  | 0, _ => exhausted
  | n + 1, left => do
    if !(← skipOver .kwIs) then return left
    -- the two words `is not` are one operator
    let negated ← skipOver .kwNot
    let right ← holding [left.value] (comparison j n)
    if ← isSkipping then identityTail j n left
    else identityTail j n (.fresh (.bool (left.value.identical right.value != negated)))

def identity (j : Jobs) (n : Nat) : Eval Held := do
  identityTail j n (← comparison j n)

def equalityTail (j : Jobs) : Nat → Held → Eval Held
  | 0, _ => exhausted
  | n + 1, left => do
    match ← kind with
    | .eq | .neq =>
      let op ← bump
      let right ← holding [left.value] (identity j n)
      if ← isSkipping then equalityTail j n left
      else
        equalityTail j n (.fresh (.bool (left.value.equals right.value != (op.kind == .neq))))
    | _ => return left

def equality (j : Jobs) (n : Nat) : Eval Held := do
  equalityTail j n (← identity j n)

def andTail (j : Jobs) : Nat → Held → Eval Held
  | 0, _ => exhausted
  | n + 1, left => do
    if !(← skipOver .kwAnd) then return left
    if (← isSkipping) || !(← truthy left) then
      let _ ← skipping (equality j n)
      andTail j n left
    else andTail j n (← holding [left.value] (equality j n))

def andExpr (j : Jobs) (n : Nat) : Eval Held := do
  andTail j n (← equality j n)

def orTail (j : Jobs) : Nat → Held → Eval Held
  | 0, _ => exhausted
  | n + 1, left => do
    if !(← skipOver .kwOr) then return left
    if (← isSkipping) || (← truthy left) then
      let _ ← skipping (andExpr j n)
      orTail j n left
    else orTail j n (← holding [left.value] (andExpr j n))

def orExpr (j : Jobs) (n : Nat) : Eval Held := do
  orTail j n (← andExpr j n)

/-! ### Conditional expressions -/

/-- In skip mode a conditional is recognised by the `if` behind its first part. -/
def skipConditional (j : Jobs) (n : Nat) : Eval Unit := do
  let _ ← orExpr j n
  if ← skipOver .kwIf then
    let _ ← orExpr j n
    let _ ← advance .kwElse
    let _ ← j.expression

/-- `a if c else b`: the condition is evaluated first and decides which of the two others is. -/
def conditional (j : Jobs) (n : Nat) : Eval Held := do
  if ← isSkipping then
    skipConditional j n
    return Held.null
  match (← get).thread.cursor.conditionalAhead with
  | .error failure => fail failure
  | .ok false => orExpr j n
  | .ok true =>
    let start ← capture
    -- past the first part, which is read again if the condition holds
    let _ ← skipping (orExpr j n)
    let _ ← advance .kwIf
    let taken ← truthy (← orExpr j n)
    let _ ← advance .kwElse
    if !taken then return ← j.expression
    rewind start
    let v ← orExpr j n
    skipping do
      let _ ← advance .kwIf
      let _ ← orExpr j n
      let _ ← advance .kwElse
      let _ ← j.expression
    return v

end Rewind.Eval
