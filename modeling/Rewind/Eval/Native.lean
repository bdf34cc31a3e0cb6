/-
Built-in functions and the call of any value.

* `showValues`, `lengthOf`, `sliceText`, `append` — the functions that are called by plain name, and
  the method of arrays;
* `callNative` — the call of a built-in function;
* `dispatch`, `invokeValue` — the call of any value, and the same with its outcome on the tape.
-/
import Rewind.Eval.Weave

namespace Rewind.Eval

/-- Prints the texts of values on one line, separated by spaces. -/
def showValues (j : Jobs) (args : List Value) (site : Token) : Eval Held := do
  let parts ← holding args (args.mapM fun v => render j v site)
  emit (" ".intercalate parts ++ "\n")
  return Held.null

/-- The number of characters, items or entries of a value. -/
def lengthOf (args : List Value) (site : Token) : Eval Held := do
  checkArity .len args 1 1 site
  let heap ← ask (·.heap)
  let count ←
    match args.headD .null with
    | .str s => pure s.length
    | .array r => pure (heap.array r).size
    | .tuple r => pure (heap.tuple r).size
    | .dict r => pure (heap.dict r).size
    | v => complain (.lengthUnsupported v.kind) site
  return .fresh (.int count)

/-- A bound of a slice. -/
def sliceIndex (v : Value) (site : Token) : Eval Int :=
  match v with
  | .int i => pure i
  | other => complain (.sliceIndexNotInteger other.kind) site

/-- A part of a string, up to its end if no second bound is given. -/
def sliceText (args : List Value) (site : Token) : Eval Held := do
  checkArity .slice args 2 3 site
  match args with
  | .str s :: bounds =>
    let cs := s.toList
    match ← bounds.mapM (sliceIndex · site) with
    | [first, last] => return .fresh (.str (String.ofList (sliceChars cs first last)))
    | [first] => return .fresh (.str (String.ofList (sliceChars cs first cs.length)))
    | _ => return Held.null
  | other => complain (.sliceNotString (other.headD .null).kind) site

/-- Adds an item to an array in place. -/
def append (receiver : Option Value) (args : List Value) (site : Token) : Eval Held := do
  checkArity .append args 1 1 site
  match receiver with
  | some (.array r) =>
    onHeap fun h => ((), { h with arrays := h.arrays.modify r (·.push (args.headD .null)) })
    return Held.null
  | _ => complain .appendNotArray site

/-- Calls a built-in function.  Only `gather` takes an argument by name. -/
def callNative (j : Jobs) (n : Nat) (native : Native) (receiver : Option Value) (args : CallArgs)
    (site : Token) : Eval Held := do
  if native ≠ .gather then
    match args.named with
    | (name, _, token) :: _ => complain (.unexpectedNamed native name) token
    | [] => pure ()
  match native with
  | .show => showValues j args.positional site
  | .len => lengthOf args.positional site
  | .slice => sliceText args.positional site
  | .type =>
    checkArity .type args.positional 1 1 site
    return .fresh (.str (args.positional.headD .null).kind.name)
  | .append => append receiver args.positional site
  | .weave => holding args.positional (weave j n args.positional site)
  | .spawnTask => spawnTask args.positional site
  | .rest => rest args.positional site
  | .gather => gather args site
  | .cancel => cancel args.positional site
  | .yieldNow => yieldNow args.positional site

/-- Calls a function, with a receiver and the blueprint it was found on if it is a method. -/
def callFunction (j : Jobs) (n : Nat) (r : Ref .function) (receiver : Option Value)
    (owner : Option (Ref .blueprint)) (args : CallArgs) (site : Token) : Eval Held := do
  match (← ask fun w => w.functions.get r).body with
  | .native native => callNative j n native receiver args site
  | .script body =>
    if body.isAsync then spawn r receiver owner args site
    else callScript j r receiver owner args site

/-- Calls a value, which is at hand until the call is over. -/
def dispatch (j : Jobs) (n : Nat) (callee : Value) (args : CallArgs) (site : Token) : Eval Held :=
  holding [callee] do
    match callee with
    | .function r => callFunction j n r none none args site
    | .method r =>
      let b ← ask fun w => w.methods.get r
      callFunction j n b.function (some b.receiver) b.owner args site
    | .blueprint r => instantiate j r args site
    | other => complain (.notCallable other.kind) site

/-- Calls a value, or takes the outcome of the call from the tape while a statement is replayed. -/
def invokeValue (j : Jobs) (n : Nat) (callee : Value) (args : CallArgs) (site : Token) :
    Eval Held := do
  match ← replayed with
  | some outcome => resume outcome
  | none =>
    match ← attempt (do own (← dispatch j n callee args site)) with
    | .value v => settle (.ok v)
    | .raised r => settle (.error r)
    | .suspended => throw .suspended

end Rewind.Eval
