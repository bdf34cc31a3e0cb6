/-
Dictionaries in insertion order.

A dictionary keeps its entries in the order their keys first appeared, and beside them an index
from each key to the place of its entry.  Setting a key that is there already replaces its value
in place.

* `Dict.exchange`, `Dict.set`, `Dict.get?`, `Dict.contains`, `Dict.keys`, `Dict.withValues`,
  `Dict.drain` — the operations;
* `Dict.toList` — the view: the entries in order.
-/
import Std.Data.TreeMap

namespace Rewind

/-- An insertion-ordered map from strings. -/
structure Dict (α : Type) where
  entries : Array (String × α) := #[]
  index : Std.TreeMap String Nat := {}

namespace Dict

variable {α : Type}

instance : Inhabited (Dict α) := ⟨{}⟩

/-- The entries in the order their keys first appeared. -/
def toList (d : Dict α) : List (String × α) := d.entries.toList

/-- The number of entries. -/
def size (d : Dict α) : Nat := d.entries.size

def isEmpty (d : Dict α) : Bool := d.entries.isEmpty

/-- The keys in order. -/
def keys (d : Dict α) : List String := d.toList.map (·.1)

/-- The values in order. -/
def values (d : Dict α) : List α := d.toList.map (·.2)

/-- The value of a key. -/
def get? (d : Dict α) (key : String) : Option α :=
  match d.index.get? key with
  | some i => d.entries[i]?.map (·.2)
  | none => none

def contains (d : Dict α) (key : String) : Bool := d.index.contains key

/-- Sets a key, in place if it is there, else behind all others, and hands back the value it had. -/
def exchange (d : Dict α) (key : String) (value : α) : Option α × Dict α :=
  match d.index.get? key with
  | some i =>
    (d.entries[i]?.map (·.2), { d with entries := d.entries.modify i fun (k, _) => (k, value) })
  | none =>
    let place := d.entries.size
    (none, ⟨d.entries.push (key, value), d.index.insert key place⟩)

/-- Sets a key. -/
def set (d : Dict α) (key : String) (value : α) : Dict α := (d.exchange key value).2

/-- The same keys in the same places with other values. -/
def withValues {β : Type} (d : Dict α) (values : List β) : Dict β :=
  ⟨(d.keys.zip values).toArray, d.index⟩

/-- The dictionary of a list of entries, set one after the other. -/
def ofList (entries : List (String × α)) : Dict α :=
  entries.foldl (fun d (key, value) => d.set key value) {}

/-- All values in order, and the dictionary emptied. -/
def drain (d : Dict α) : List α × Dict α := (d.values, {})

@[simp] theorem toList_empty : ({} : Dict α).toList = [] := rfl

@[simp] theorem size_eq_length_toList (d : Dict α) : d.size = d.toList.length := by
  simp [size, toList]

end Dict

end Rewind
