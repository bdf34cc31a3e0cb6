/-
The replay tape.

While a statement of a coroutine runs, the results of its finished calls and awaits are recorded.
If the statement is suspended, the result it waits for is injected behind them and the tape is
rewound; the statement then runs again from its start and takes those results from the tape
instead of calling and awaiting once more.

* `Tape` — the recorded outcomes and the place of the next one to replay;
* `Tape.record`, `Tape.inject`, `Tape.reset` — the writing side;
* `Tape.next?` — the reading side; what is read is copied, so the tape keeps its own.
-/
import Rewind.Heap

namespace Rewind

/-- Outcomes of one statement, of which those from `position` on are still to be replayed. -/
structure Tape where
  entries : Array Outcome := #[]
  position : Nat := 0
  deriving Inhabited

namespace Tape

/-- Some outcome is still to be replayed. -/
def replaying (t : Tape) : Bool := t.position < t.entries.size

/-- Adds an outcome; nothing is left to replay then. -/
def record (t : Tape) (outcome : Outcome) : Tape :=
  ⟨t.entries.push outcome, t.entries.size + 1⟩

/-- Adds the outcome a suspended statement waited for, and rewinds. -/
def inject (t : Tape) (outcome : Outcome) : Tape := ⟨t.entries.push outcome, 0⟩

/-- The tape of a new statement. -/
def reset : Tape := {}

def size (t : Tape) : Nat := t.entries.size

/-- The next outcome to replay, copied, and the tape moved past it. -/
def next? (t : Tape) : StateM Heap (Option (Outcome × Tape)) :=
  match t.entries[t.position]? with
  | none => pure none
  | some outcome => do
    return some (← Heap.duplicateOutcome outcome, { t with position := t.position + 1 })

end Tape

end Rewind
