/-
Tables of a TOML text.

A table comes about in one of three ways: its own header `[a]` opens it, the header `[a.b]` of a
table below it passes through it, or a dotted key `a.b` does.  A table can be opened once, and one
that dotted keys made cannot be opened at all; a dotted key cannot reach into a table that has a
header of its own.

* `Toml.Origin`, `Toml.Node` — how a table came about, and what stands under a name;
* `Toml.insert?` — a value under a dotted key;
* `Toml.open?`, `Toml.append?` — the tables behind the headers `[a]` and `[[a]]`;
* `Toml.within?` — a change to the table a header leads to;
* `Toml.Node.datum` — the value read.
-/
import Rewind.Settings.Datum

namespace Rewind.Toml

/-- How a table came about. -/
inductive Origin where
  | opened
  | passed
  | dotted
  deriving DecidableEq

/-- What stands under a name: a value, a table, or the tables of a list of tables. -/
inductive Node where
  | value (d : Datum)
  | table (origin : Origin) (entries : List (String × Node))
  | tables (elements : List (List (String × Node)))

/-- The names of a table, and what stands under them. -/
abbrev Entries := List (String × Node)

/-- Puts a node under a name that may be there already. -/
def Entries.put (es : Entries) (name : String) (node : Node) : Entries :=
  alter name (fun _ => node) es

/-- A dotted key may go on below a table that came about in this way; the last name of the key may
stand only in a table that dotted keys made. -/
def Origin.admits (isLast : Bool) : Origin → Bool
  | opened => false
  | passed => !isLast
  | dotted => true

/-- Puts a value under a dotted key. -/
def insert? (v : Datum) : List String → Entries → Option Entries
  | [], _ => none
  | [name], es => if (es.lookup name).isSome then none else some (es.put name (.value v))
  | name :: inner :: rest, es =>
    match es.lookup name with
    | none =>
      (insert? v (inner :: rest) []).map fun below => es.put name (.table .dotted below)
    | some (.table origin below) =>
      if origin.admits rest.isEmpty then
        (insert? v (inner :: rest) below).map fun below => es.put name (.table origin below)
      else none
    | some (.tables elements) =>
      match elements.getLast? with
      | some last =>
        if rest.isEmpty then none
        else
          (insert? v (inner :: rest) last).map fun last =>
            es.put name (.tables (elements.dropLast ++ [last]))
      | none => none
    | some (.value _) => none

/-- Changes the table a path leads to; tables are made on the way, and of a list of tables the last
one is meant. -/
def within? (change : Entries → Option Entries) : List String → Entries → Option Entries
  | [], es => change es
  | name :: rest, es =>
    match es.lookup name with
    | none => (within? change rest []).map fun below => es.put name (.table .passed below)
    | some (.table origin below) =>
      (within? change rest below).map fun below => es.put name (.table origin below)
    | some (.tables elements) =>
      match elements.getLast? with
      | some last =>
        (within? change rest last).map fun last =>
          es.put name (.tables (elements.dropLast ++ [last]))
      | none => none
    | some (.value _) => none

/-- Opens the table of a name: a new one, or one that was only passed through. -/
def open? (name : String) (es : Entries) : Option Entries :=
  match es.lookup name with
  | none => some (es.put name (.table .opened []))
  | some (.table .passed below) => some (es.put name (.table .opened below))
  | _ => none

/-- Adds a table to the list of tables of a name. -/
def append? (name : String) (es : Entries) : Option Entries :=
  match es.lookup name with
  | none => some (es.put name (.tables [[]]))
  | some (.tables elements) => some (es.put name (.tables (elements ++ [[]])))
  | _ => none

mutual

/-- The value a node stands for. -/
def Node.datum : Node → Datum
  | .value d => d
  | .table _ es => .table (Entries.data es)
  | .tables elements => .list (Entries.lists elements)

/-- The values of a table by their names. -/
def Entries.data : List (String × Node) → List (String × Datum)
  | [] => []
  | (name, node) :: rest => (name, node.datum) :: Entries.data rest

/-- The values of a list of tables. -/
def Entries.lists : List (List (String × Node)) → List Datum
  | [] => []
  | es :: rest => .table (Entries.data es) :: Entries.lists rest

end

end Rewind.Toml
