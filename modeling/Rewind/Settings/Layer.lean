/-
Layers of settings.

Settings are a tree of tables.  A layer is a list of places in that tree with a value each; a later
layer is laid over an earlier one.  A table is joined with the table that is there, name by name,
and any other value takes the place of what is there.  Names are told apart without regard to case.

* `Datum.set`, `Datum.merge` — one value, or the entries of a table, put into a table;
* `Turning`, `Place` — the way from the root to a value: `log.level`, `runtime.search_paths[0]`;
* `Place.ofText` — a place as it is written;
* `Datum.lay` — a layer laid over what is there.
-/
import Rewind.Settings.Datum

namespace Rewind

namespace Datum

mutual

/-- Puts a value under a name into a table; what is no table becomes one first. -/
def set (target : Datum) (name : String) : Datum → Datum
  | table inner =>
    table (alter name.toLower (fun there => merge (there.getD (table [])) inner) target.entries)
  | v => table (alter name.toLower (fun _ => v) target.entries)

/-- Puts the entries of a table into another one. -/
def merge (target : Datum) : List (String × Datum) → Datum
  | [] => target
  | (name, v) :: rest => merge (target.set name v) rest

end

end Datum

/-! ### Places -/

/-- One step down: to an entry of a table, or to an item of a list. -/
inductive Turning where
  | entry (name : String)
  | item (index : Int)

/-- The way down from the root. -/
abbrev Place := List Turning

namespace Place

/-- The characters of a name in a place. -/
def isNameChar (c : Char) : Bool := c.isAlphanum || c == ' ' || c == '_' || c == '-'

/-- The number between brackets; blanks may stand around it. -/
def index? (cs : List Char) : Option Int :=
  let isBlank (c : Char) := c == ' ' || c == '\t'
  let trimmed := ((cs.dropWhile isBlank).reverse.dropWhile isBlank).reverse
  if trimmed.head? = some '+' then none else Text.integer64? trimmed

/-- The steps behind the first one: `.name` and `[index]`. -/
def steps? (cs : List Char) : Option Place :=
  match cs with
  | [] => some []
  | '.' :: rest =>
    if (rest.takeWhile isNameChar).isEmpty then none
    else
      have := (List.dropWhile_sublist (p := isNameChar) (l := rest)).length_le
      (steps? (rest.dropWhile isNameChar)).map
        (.entry (String.ofList (rest.takeWhile isNameChar)) :: ·)
  | '[' :: rest =>
    match h : rest.dropWhile (· != ']') with
    | [] => none
    | _ :: behind =>
      have : (_ :: behind).length ≤ rest.length := h ▸ (List.dropWhile_sublist _).length_le
      match index? (rest.takeWhile (· != ']')) with
      | none => none
      | some n => (steps? behind).map (.item n :: ·)
  | _ => none
termination_by cs.length
decreasing_by
  all_goals simp_all only [List.length_cons]; omega

/-- The place a text stands for; a text that is no place is a single name. -/
def ofText (text : String) : Place :=
  let cs := text.toList
  let name := cs.takeWhile isNameChar
  match if name.isEmpty then none else steps? (cs.dropWhile isNameChar) with
  | some steps => .entry (String.ofList name) :: steps
  | none => [.entry text]

/-- The position in a list an index stands for; a negative one counts from the end. -/
def position (index : Int) (length : Nat) : Nat :=
  if 0 ≤ index then index.toNat else length - index.natAbs

end Place

namespace Datum

/-- Changes an item of a list, which is made long enough. -/
def alterItem (index : Int) (f : Datum → Datum) (ds : List Datum) : List Datum :=
  let n := Place.position index ds.length
  (ds ++ List.replicate (n + 1 - ds.length) unset).modify n f

/-- Changes what stands at a place; tables and lists are made on the way. -/
def alterPlace (f : Datum → Datum) : Place → Datum → Datum
  | [], d => f d
  | .entry name :: rest, d =>
    table (alter name (fun there => alterPlace f rest (there.getD unset)) d.entries)
  | .item index :: rest, d => list (alterItem index (alterPlace f rest) d.items)

/-- Puts a value at a place. -/
def put (d : Datum) (place : Place) (v : Datum) : Datum :=
  match place.getLast? with
  | some (.entry name) => alterPlace (fun parent => parent.set name v) place.dropLast d
  | some (.item index) =>
    alterPlace (fun parent => list (alterItem index (fun _ => v) parent.items)) place.dropLast d
  | none => d

/-- Lays a layer over what is there. -/
def lay (d : Datum) (layer : List (String × Datum)) : Datum :=
  layer.foldl (fun d (name, v) => d.put (Place.ofText name) v) d

end Datum

end Rewind
