/-
The jobs evaluation comes back to.

Evaluating an expression may call a function, running a body evaluates expressions, and printing a
value may call a method; none of these runs on a smaller input than the one it was called from.
Each piece of the evaluator therefore takes these jobs as an argument, and they are tied together
over a supply of fuel in one place.

* `CallArgs` — the arguments of a call;
* `Jobs` — the jobs: a whole expression, an operand of a unary operator, a body, and a call.
-/
import Rewind.Machine

namespace Rewind

/-- The arguments of a call: those by position, and those by name with the token of the name. -/
structure CallArgs where
  positional : List Value := []
  named : List (String × Value × Token) := []

/-- The values of all arguments. -/
def CallArgs.values (args : CallArgs) : List Value := args.positional ++ args.named.map (·.2.1)

/-- What a piece of the evaluator may ask for. -/
structure Jobs where
  /-- Evaluates the expression under the cursor. -/
  expression : Eval Held
  /-- Evaluates the operand under the cursor. -/
  unary : Eval Held
  /-- Runs the statements at a column until the body ends. -/
  body : Nat → Run Status
  /-- Calls a value at a token. -/
  invoke : Value → CallArgs → Token → Eval Held

end Rewind
