/-
The heap of containers.

Arrays, tuples and dictionaries live in cells.  A container is copied element by element wherever
it is stored or handed on, so no two storages share one.

* `Heap` — the three arenas of containers;
* `Heap.newArray`, `Heap.newTuple`, `Heap.newDict` — new cells;
* `Heap.truthy` — whether a value counts as true;
* `Heap.duplicate` — an independent copy of a value;
* `Heap.own` — the value of an expression as something to keep.
-/
import Rewind.Dict
import Rewind.Value

namespace Rewind

/-- The containers of a session. -/
structure Heap where
  arrays : Arena .array (Array Value) := {}
  tuples : Arena .tuple (Array Value) := {}
  dicts : Arena .dict (Dict Value) := {}
  deriving Inhabited

namespace Heap

/-- The number of containers. -/
def size (h : Heap) : Nat := h.arrays.size + h.tuples.size + h.dicts.size

def newArray (items : Array Value) : StateM Heap Value := fun h =>
  (.array h.arrays.next, { h with arrays := h.arrays.push items })

def newTuple (items : Array Value) : StateM Heap Value := fun h =>
  (.tuple h.tuples.next, { h with tuples := h.tuples.push items })

def newDict (entries : Dict Value) : StateM Heap Value := fun h =>
  (.dict h.dicts.next, { h with dicts := h.dicts.push entries })

/-- The items of an array. -/
def array (h : Heap) (r : Ref .array) : Array Value := h.arrays.get r

/-- The items of a tuple. -/
def tuple (h : Heap) (r : Ref .tuple) : Array Value := h.tuples.get r

/-- The entries of a dictionary. -/
def dict (h : Heap) (r : Ref .dict) : Dict Value := h.dicts.get r

/-- Null, false, zero and whatever is empty count as false, all else as true. -/
def truthy (h : Heap) : Value → Bool
  | .null => false
  | .bool b => b
  | .int n => n != 0
  | .float x => x != 0
  | .str s => !s.isEmpty
  | .array r => !(h.array r).isEmpty
  | .tuple r => !(h.tuple r).isEmpty
  | .dict r => !(h.dict r).isEmpty
  | _ => true

/-- A copy of a value whose containers nest at most `depth` deep: containers are built anew, all
other references are shared.  A reference that leads nowhere stands for itself. -/
def duplicateTo : (depth : Nat) → Value → StateM Heap Value
  | 0, v => pure v
  | depth + 1, .array r => do
    match (← get).arrays.get? r with
    | some items => newArray (← items.mapM (duplicateTo depth))
    | none => return .array r
  | depth + 1, .tuple r => do
    match (← get).tuples.get? r with
    | some items => newTuple (← items.mapM (duplicateTo depth))
    | none => return .tuple r
  | depth + 1, .dict r => do
    match (← get).dicts.get? r with
    | some entries =>
      newDict (entries.withValues (← entries.values.mapM (duplicateTo depth)))
    | none => return .dict r
  | _ + 1, v => pure v

/-- An independent copy of a value.  Containers never contain themselves, so they nest no deeper
than there are containers. -/
def duplicate (v : Value) : StateM Heap Value := do
  duplicateTo ((← get).size + 1) v

/-- What an expression gave, as something to keep: a view is copied first. -/
def own : Held → StateM Heap Value
  | .fresh v => pure v
  | .view v => duplicate v

/-- A copy of an exception that shares nothing with it. -/
def duplicateRaised (r : Raised) : StateM Heap Raised := do
  return { r with value := ← duplicate r.value }

/-- A copy of an outcome that shares nothing with it. -/
def duplicateOutcome : Outcome → StateM Heap Outcome
  | .ok v => return .ok (← duplicate v)
  | .error r => return .error (← duplicateRaised r)

end Heap

end Rewind
