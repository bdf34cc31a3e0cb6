/-
Definitions of functions and blueprints.

The body of a function is passed over when the function is defined; a call re-enters the source at
its first token.  The body of a blueprint runs at once, in the scope of its members.

* `parameters` — the parameters of a function;
* `functStatement` — `funct:` and `async funct:`;
* `blueprintStatement` — `blueprint:`, with or without a parent.
-/
import Rewind.Eval.Jobs

namespace Rewind.Eval

/-- A parameter, whose default is evaluated where the function is defined.  `read` are the
parameters before it, whose defaults are at hand. -/
def parameter (j : Jobs) (function : String) (read : List Param) : Eval Param := do
  let token ← advance .ident
  if read.any (·.name == token.text) then
    malformed (.duplicateParameter token.text function) token
  if ← skipOver .assign then
    let v ← own (← holding (read.filterMap (·.default)) j.expression)
    return ⟨token.text, some v⟩
  if read.any (·.default.isSome) then malformed (.defaultMissing token.text) token
  return ⟨token.text, none⟩

/-- The parameters up to the closing parenthesis; those before are `read`, the last one first. -/
def parameters (j : Jobs) (function : String) : Nat → List Param → Eval (List Param)
  | 0, _ => exhausted
  | n + 1, read => do
    if (← kind) = .rparen then return read.reverse
    let read := (← parameter j function read) :: read
    if ← skipOver .comma then parameters j function n read else return read.reverse

/-- `funct: name(parameters):` and its body -/
def functStatement (j : Jobs) (n : Nat) : Eval Status := do
  let column := (← current).column
  let isAsync ← skipOver .kwAsync
  let _ ← advance .kwFunct
  let _ ← advance .colon
  let name ← advance .ident
  let _ ← advance .lparen
  let params ← parameters j name.text n []
  let _ ← advance .rparen
  enterBlock column
  let entry ← capture
  skipBody (column + 4)
  let source := (← get).thread.cursor.source
  let body := { params, isAsync, source, entry, column, scope := ← scope }
  define name.text (← newFunction ⟨name.text, .script body⟩)
  return .normal

/-- The blueprint behind `inherits`, if it stands here. -/
def parentBlueprint : Eval (Option (Ref .blueprint)) := do
  if !(← skipOver .kwInherits) then return none
  let name ← advance .ident
  match ← lookup name.text with
  | some (.blueprint r) => return some r
  | some other => complain (.notABlueprint name.text other.kind) name
  | none => complain (.parentUndefined name.text) name

/-- Runs the body of a blueprint in the scope of its members, with an empty tape.  Scope, mode and
tape come back afterwards, also when the run fails. -/
def inBlueprint (r : Ref .blueprint) (members : Ref .scope) (x : Run α) :
    Eval (Except Fault α) := do
  let outer := (← get).thread
  modifyThread fun t => { t with scope := members, mode := .blueprintBody r, tape := {} }
  let result ← pinning (.thread outer.waiting) (catchFault x)
  modifyThread fun t => { t with scope := outer.scope, mode := outer.mode, tape := outer.tape }
  return result

/-- `blueprint: name inherits parent:` and its body.  The name is bound once the body has come to
its end. -/
def blueprintStatement (j : Jobs) : Eval Status := do
  let column := (← bump).column
  let _ ← advance .colon
  let name ← advance .ident
  let parent ← parentBlueprint
  enterBlock column
  let outer ← scope
  let (r, members) ← onWorld (·.newBlueprint name.text parent outer)
  match ← inBlueprint r members (j.body (column + 4)) with
  | .error fault => throw (.fault fault)
  | .ok .normal =>
    define name.text (.blueprint r)
    return .normal
  | .ok other => return other

end Rewind.Eval
