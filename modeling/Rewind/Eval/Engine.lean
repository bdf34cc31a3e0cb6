/-
The evaluator.

The jobs are tied together over a supply of fuel: every job hands the jobs below it one unit less.
A run that uses up its fuel ends with a fault of its own and never with a wrong answer.

* `jobs` — the jobs with so much fuel.
-/
import Rewind.Eval.Expression
import Rewind.Eval.Native
import Rewind.Eval.Statement

namespace Rewind.Eval

/-- The jobs of a run that may nest `fuel` deep. -/
def jobs : (fuel : Nat) → Jobs
  | 0 =>
    { expression := exhausted, unary := exhausted, body := fun _ => exhausted,
      invoke := fun _ _ _ => exhausted }
  | fuel + 1 =>
    { expression := fun m => conditional (jobs fuel) fuel m
      unary := fun m => unaryExpr (jobs fuel) fuel m
      body := fun column m => runBody (jobs fuel) fuel column m
      invoke := fun callee args site m => invokeValue (jobs fuel) fuel callee args site m }

end Rewind.Eval
