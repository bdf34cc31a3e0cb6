/-
The ledger of shared handles.

A shared cell is reached through counted handles.  The ledger numbers the handles in the order
they are made, counts for every cell the handles to it that are still live, and keeps three totals
over all cells: cells made, handles copied, and handles given back.  A weak handle counts for
nothing and can be turned into a handle as long as its cell has one.

* `Ledger` — the state; `Tally` — the three totals;
* `Ledger.create`, `Ledger.copy`, `Ledger.release`, `Ledger.weaken`, `Ledger.upgrade` — the
  operations;
* `Ledger.count?`, `Ledger.same` — the number of handles to a handle's cell, and whether two
  handles share one.
-/
namespace Rewind

/-- Totals over all cells. -/
structure Tally where
  allocs : Nat := 0
  dups : Nat := 0
  releases : Nat := 0
  deriving DecidableEq

namespace Tally

/-- Every handle ever made has been given back. -/
def balanced (t : Tally) : Bool := t.allocs + t.dups == t.releases

end Tally

/-- A shared cell: what it holds and the number of live handles to it. -/
structure SharedCell where
  value : Int
  count : Nat

/-- Handle number `i` leads to the cell `handles[i]` as long as it is live; weak handle number `i`
belongs to the cell `weak[i]`. -/
structure Ledger where
  cells : Array SharedCell := #[]
  handles : Array (Option Nat) := #[]
  weak : Array Nat := #[]
  tally : Tally := {}

namespace Ledger

/-- The cell of a live handle. -/
def cellOf? (l : Ledger) (handle : Nat) : Option Nat := (l.handles[handle]?).join

/-- A new cell and its first handle. -/
def create (l : Ledger) (value : Int) : Ledger :=
  { l with
    cells := l.cells.push ⟨value, 1⟩
    handles := l.handles.push (some l.cells.size)
    tally := { l.tally with allocs := l.tally.allocs + 1 } }

/-- One more handle to the cell `cell`. -/
def addHandle (l : Ledger) (cell : Nat) : Ledger :=
  { l with
    cells := l.cells.modify cell fun c => { c with count := c.count + 1 }
    handles := l.handles.push (some cell)
    tally := { l.tally with dups := l.tally.dups + 1 } }

/-- A copy of a live handle. -/
def copy (l : Ledger) (handle : Nat) : Ledger :=
  match l.cellOf? handle with
  | some cell => l.addHandle cell
  | none => l

/-- Gives a handle back; one that is not live is left alone. -/
def release (l : Ledger) (handle : Nat) : Ledger :=
  match l.cellOf? handle with
  | some cell =>
    { l with
      cells := l.cells.modify cell fun c => { c with count := c.count - 1 }
      handles := l.handles.modify handle fun _ => none
      tally := { l.tally with releases := l.tally.releases + 1 } }
  | none => l

/-- A weak handle to the cell of a live handle. -/
def weaken (l : Ledger) (handle : Nat) : Ledger :=
  match l.cellOf? handle with
  | some cell => { l with weak := l.weak.push cell }
  | none => l

/-- A handle to the cell of a weak handle, if that cell has a live one; otherwise the number is
taken by a handle that is dead from the start. -/
def upgrade (l : Ledger) (weak : Nat) : Bool × Ledger :=
  match l.weak[weak]? with
  | some cell =>
    if ((l.cells[cell]?).map (·.count)).getD 0 = 0 then
      (false, { l with handles := l.handles.push none })
    else (true, l.addHandle cell)
  | none => (false, { l with handles := l.handles.push none })

/-- The number of live handles to the cell of a live handle, and what the cell holds. -/
def count? (l : Ledger) (handle : Nat) : Option (Nat × Int) := do
  let cell ← l.cellOf? handle
  let c ← l.cells[cell]?
  return (c.count, c.value)

/-- Whether two live handles lead to one cell. -/
def same (l : Ledger) (a b : Nat) : Bool :=
  match l.cellOf? a, l.cellOf? b with
  | some x, some y => x == y
  | _, _ => false

end Ledger

end Rewind
