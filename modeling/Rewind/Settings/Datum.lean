/-
Values of settings.

A setting comes from a file or from the environment and may be of another type than the one wanted;
where a conversion makes sense it is made.

* `Datum` — what a setting can be given as;
* `Datum.ofVariable` — the value the text of a variable stands for;
* `Datum.text?`, `Datum.count?`, `Datum.texts?` — the conversions to what settings are;
* `alter`, `lookup_alter_self` — a named entry changed, and what is found under its name.
-/
import Rewind.Decimal.Shortest
import Rewind.Text.Numeral

namespace Rewind

/-! ### Named entries -/

/-- Changes the entry of a name, which is put behind the others if it is not there. -/
def alter (name : String) (f : Option α → α) : List (String × α) → List (String × α)
  | [] => [(name, f none)]
  | (n, v) :: rest => if n = name then (n, f (some v)) :: rest else (n, v) :: alter name f rest

theorem lookup_alter_self (name : String) (f : Option α → α) (entries : List (String × α)) :
    (alter name f entries).lookup name = some (f (entries.lookup name)) := by
  induction entries with
  | nil => simp [alter]
  | cons e rest ih =>
    obtain ⟨n, v⟩ := e
    by_cases h : n = name
    · subst h; simp [alter]
    · have h' : (name == n) = false := by simp [Ne.symm h]
      simp [alter, h, h', List.lookup_cons, ih]

theorem lookup_alter_of_ne {name other : String} (h : other ≠ name) (f : Option α → α)
    (entries : List (String × α)) :
    (alter name f entries).lookup other = entries.lookup other := by
  have hb : (other == name) = false := beq_false_of_ne h
  induction entries with
  | nil => simp [alter, List.lookup_cons, hb]
  | cons e rest ih =>
    obtain ⟨n, v⟩ := e
    by_cases hn : n = name
    · subst hn; simp [alter, List.lookup_cons, hb]
    · simp [alter, hn, List.lookup_cons, ih]

/-! ### Values -/

/-- The value of a setting; `unset` fills the places of a list that were passed over. -/
inductive Datum where
  | unset
  | bool (b : Bool)
  | int (n : Int)
  | float (x : Float)
  | str (s : String)
  | list (items : List Datum)
  | table (entries : List (String × Datum))

namespace Datum

/-- The entries of a table; anything else has none. -/
def entries : Datum → List (String × Datum)
  | table es => es
  | _ => []

/-- The items of a list; anything else has none. -/
def items : Datum → List Datum
  | list ds => ds
  | _ => []

/-- What the text of a variable stands for: a truth value, a whole number, a number, or itself. -/
def ofVariable (s : String) : Datum :=
  match s.toLower with
  | "true" => bool true
  | "false" => bool false
  | _ =>
    match Text.integer64? s.toList with
    | some n => int n
    | none =>
      match Text.decimal? s.toList with
      | some x => float x
      | none => str s

/-- A setting that is a text: any single value has one. -/
def text? : Datum → Option String
  | bool b => some (if b then "true" else "false")
  | int n => some (toString n)
  | float x => some (Decimal.shortestText x)
  | str s => some s
  | unset | list _ | table _ => none

/-- The count a text stands for: a number, or one of the words for one and zero. -/
def countOfText? (s : String) : Option Nat :=
  match s.toLower with
  | "true" | "on" | "yes" => some 1
  | "false" | "off" | "no" => some 0
  | _ => Text.natural64? s.toList

/-- A setting that is a count: a number is rounded, and kept within 64 bits. -/
def count? : Datum → Option Nat
  | bool b => some b.toNat
  | int n => if n < 0 then none else some n.toNat
  | float x => some x.round.toUInt64.toNat
  | str s => countOfText? s
  | unset | list _ | table _ => none

/-- A setting that is a list of texts. -/
def texts? : Datum → Option (List String)
  | list ds => ds.mapM text?
  | _ => none

/-- A setting that may be left out. -/
def optional? (convert : Datum → Option α) : Datum → Option (Option α)
  | unset => some none
  | d => (convert d).map some

/-- The setting called `name` among those called `names`: a section gives its settings by name, or
as a list in their order. -/
def setting? (names : List String) (name : String) : Datum → Option Datum
  | table es => es.lookup name
  | list ds => ds[names.idxOf name]?
  | _ => none

/-- Settings can be looked up in this value. -/
def isSection : Datum → Bool
  | table _ | list _ => true
  | _ => false

end Datum

end Rewind
