/-
Assignment.

`let:` changes the nearest binding of a name, or an attribute or item of what the name stands for.
The indices of the target and the value are evaluated before the target is looked up, and the colon
that may end the statement is passed before anything is stored.

* `Accessor`, `accessors` — the steps of a target behind its name;
* `follow` — what all steps but the last lead to;
* `letStatement` — the statement.
-/
import Rewind.Eval.Access
import Rewind.Eval.Jobs

namespace Rewind.Eval

/-- One step of a target: an attribute or an item, with the token it is reported at. -/
inductive Accessor where
  | member (name : String) (site : Token)
  | item (index : Value) (site : Token)

/-- The indices among some steps. -/
def indices (steps : List Accessor) : List Value :=
  steps.filterMap fun
    | .item index _ => some index
    | .member _ _ => none

/-- The steps of a target, the last one first; the indices read so far are at hand. -/
def accessors (j : Jobs) : Nat → List Accessor → Eval (List Accessor)
  | 0, _ => exhausted
  | n + 1, read => do
    match ← kind with
    | .dot =>
      let _ ← bump
      let member ← advance .ident
      accessors j n (.member member.text member :: read)
    | .lbracket =>
      let site ← bump
      let index ← own (← holding (indices read) j.expression)
      let _ ← advance .rbracket
      accessors j n (.item index site :: read)
    | _ => return read

/-- What a step leads to. -/
def follow (target : Value) : Accessor → Eval Value
  | .member name site => return (← readAttribute (.view target) name site).value
  | .item index site => return (← readItem (.view target) index site).value

/-- Stores a value at the end of a step. -/
def store (target v : Value) : Accessor → Eval Unit
  | .member name site => storeAttribute target name v site
  | .item index site => storeItem target index v site

/-- `let: target = value` -/
def letStatement (j : Jobs) (n : Nat) : Eval Status := do
  let _ ← bump
  let _ ← advance .colon
  let name ← advance .ident
  let steps ← accessors j n []
  let _ ← advance .assign
  let v ← own (← holding (indices steps) j.expression)
  endStatement
  match steps with
  | [] => assign name.text v
  | last :: before =>
    match ← holding (v :: indices steps) (lookup name.text) with
    | none => complain (.undefinedVariable name.text) name
    | some base => store (← before.reverse.foldlM follow base) v last
  return .normal

end Rewind.Eval
