/-
Arenas of cells.

Everything a program shares by reference lives in a cell of an arena, and a reference is the
number of its cell.  Cells are never given back, so a reference stays good for the whole session.

* `CellKind`, `Ref` — the kinds of cell and references to them;
* `Arena` — cells of one kind; `push`, `get?`, `set`, `modify`;
* `get?_push_next`, `get?_push_of_lt`, `get?_modify` — what these operations do to the cells.
-/
namespace Rewind

/-- The kinds of cell. -/
inductive CellKind where
  | array | tuple | dict | scope | function | blueprint | object | method | proxy | coroutine
  deriving DecidableEq, Hashable

/-- A reference to a cell of one kind. -/
structure Ref (k : CellKind) where
  index : Nat
  deriving DecidableEq, Inhabited

/-- The cells of one kind, each holding an `α`. -/
structure Arena (k : CellKind) (α : Type) where
  cells : Array α := #[]

namespace Arena

variable {k : CellKind} {α : Type}

instance : Inhabited (Arena k α) := ⟨{}⟩

def size (a : Arena k α) : Nat := a.cells.size

/-- The contents of a cell. -/
def get? (a : Arena k α) (r : Ref k) : Option α := a.cells[r.index]?

/-- The contents of a cell, and the default for a reference to none. -/
def get [Inhabited α] (a : Arena k α) (r : Ref k) : α := (a.get? r).getD default

/-- The reference the next new cell gets. -/
def next (a : Arena k α) : Ref k := ⟨a.cells.size⟩

/-- A new cell holding `x`; its reference is `a.next`. -/
def push (a : Arena k α) (x : α) : Arena k α := ⟨a.cells.push x⟩

/-- Changes the contents of one cell. -/
def modify (a : Arena k α) (r : Ref k) (f : α → α) : Arena k α := ⟨a.cells.modify r.index f⟩

/-- Replaces the contents of one cell. -/
def set (a : Arena k α) (r : Ref k) (x : α) : Arena k α := a.modify r fun _ => x

theorem get?_push_next (a : Arena k α) (x : α) : (a.push x).get? a.next = some x := by
  simp [get?, push, next]

theorem get?_push_of_lt (a : Arena k α) (x : α) {r : Ref k} (h : r.index < a.size) :
    (a.push x).get? r = a.get? r := by
  simp only [size] at h
  simp [get?, push, Array.getElem?_push_lt, h]

theorem get?_modify (a : Arena k α) (r s : Ref k) (f : α → α) :
    (a.modify r f).get? s = if s = r then (a.get? s).map f else a.get? s := by
  obtain ⟨i⟩ := r
  obtain ⟨j⟩ := s
  by_cases h : j = i
  · subst h; simp [get?, modify, Array.getElem?_modify]
  · have : ¬ i = j := fun e => h e.symm
    simp [get?, modify, Array.getElem?_modify, h, this]

@[simp] theorem size_push (a : Arena k α) (x : α) : (a.push x).size = a.size + 1 := by
  simp [size, push]

@[simp] theorem size_modify (a : Arena k α) (r : Ref k) (f : α → α) :
    (a.modify r f).size = a.size := by
  simp [size, modify]

end Arena

end Rewind
