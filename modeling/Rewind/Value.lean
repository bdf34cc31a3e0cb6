/-
Values.

Numbers, booleans, null and strings are values in themselves.  Arrays, tuples and dictionaries are
references to cells of the heap, and so are functions, blueprints, objects and coroutines; two
references are the same value exactly if they name the same cell.

* `Value`, `Value.kind` — the values and their kinds;
* `Value.number?`, `Value.isZero` — a number as a float, and the number zero;
* `Value.identical`, `Value.equals` — the relations `is` and `==`;
* `Held` — a value with a note whether its containers are its own or belong to some storage;
* `Raised` — an exception in flight.
-/
import Rewind.Arena
import Rewind.Value.Kind

namespace Rewind

/-- The values of a program.  Integers lie between `minInt` and `maxInt`. -/
inductive Value where
  | int (n : Int)
  | float (x : Float)
  | bool (b : Bool)
  | null
  | str (s : String)
  | array (r : Ref .array)
  | tuple (r : Ref .tuple)
  | dict (r : Ref .dict)
  | function (r : Ref .function)
  | blueprint (r : Ref .blueprint)
  | object (r : Ref .object)
  | method (r : Ref .method)
  | coroutine (r : Ref .coroutine)
  | gather (r : Ref .coroutine)
  | proxy (r : Ref .proxy)
  deriving Inhabited

namespace Value

def kind : Value → ValueKind
  | int _ => .integer
  | float _ => .float
  | bool _ => .boolean
  | null => .null
  | str _ => .string
  | array _ => .array
  | tuple _ => .tuple
  | dict _ => .dictionary
  | function _ => .function
  | blueprint _ => .blueprint
  | object _ => .object
  | method _ => .boundMethod
  | coroutine _ => .coroutine
  | gather _ => .gatherTask
  | proxy _ => .superProxy

/-- A number as a float, an integer rounded to the nearest one. -/
def number? : Value → Option Float
  | int n => some (Float.ofInt n)
  | float x => some x
  | _ => none

/-- The number zero.  As a float an integer is zero only if it is zero itself. -/
def isZero : Value → Bool
  | int n => n == 0
  | float x => x == 0
  | _ => false

/-- The relation `is`: the same cell, or the same value of a kind that lives in no cell. -/
def identical : Value → Value → Bool
  | int a, int b => a == b
  | float a, float b => a == b
  | bool a, bool b => a == b
  | null, null => true
  | str a, str b => a == b
  | array a, array b => a == b
  | tuple a, tuple b => a == b
  | dict a, dict b => a == b
  | function a, function b => a == b
  | blueprint a, blueprint b => a == b
  | object a, object b => a == b
  | method a, method b => a == b
  | coroutine a, coroutine b => a == b
  | gather a, gather b => a == b
  | proxy a, proxy b => a == b
  | _, _ => false

/-- The relation `==`: numbers of different kinds are compared as floats, all else as `is` does. -/
def equals : Value → Value → Bool
  | int a, float y => Float.ofInt a == y
  | float x, int b => x == Float.ofInt b
  | a, b => identical a b

/-- The coroutine behind a coroutine or gather value. -/
def coroutine? : Value → Option (Ref .coroutine)
  | coroutine r | gather r => some r
  | _ => none

end Value

/-- The result of an expression: a fresh value that belongs to whoever takes it, or a view of a
value that some storage still owns. -/
inductive Held where
  | fresh (v : Value)
  | view (v : Value)
  deriving Inhabited

namespace Held

def null : Held := fresh .null

/-- The value, for reading only. -/
def value : Held → Value
  | fresh v | view v => v

def isFresh : Held → Bool
  | fresh _ => true
  | view _ => false

/-- A part of this value: as fresh as the whole. -/
def part (h : Held) (v : Value) : Held :=
  match h with
  | fresh _ => fresh v
  | view _ => view v

end Held

/-- An exception in flight and the place it was raised at. -/
structure Raised where
  value : Value
  line : Nat
  column : Nat
  deriving Inhabited

/-- How a coroutine or a call came out. -/
abbrev Outcome := Except Raised Value

end Rewind
