/-
Everything a session shares.

The world holds the containers, scopes, functions, blueprints, objects and coroutines of a session
and the state of its event loop.

* `Function`, `Blueprint`, `Object`, `Method`, `Proxy` — what the other cells hold;
* `EventLoop` — the queue of runnable coroutines, the sleeping timers and the clock;
* `World` — all of it;
* `World.newBlueprint`, `World.findMember` — a new blueprint; a member of one, or of the nearest one
  it inherits from;
* `World.text` — the plain text of a value.
-/
import Rewind.Coroutine
import Rewind.Scope
import Rewind.Decimal.General

namespace Rewind

/-- A parameter and its default. -/
structure Param where
  name : String
  default : Option Value

/-- A function written in the program: its body starts at `entry` of `source` and stands four
columns right of `column`. -/
structure Script where
  params : List Param
  isAsync : Bool
  source : Source
  entry : Position
  column : Nat
  scope : Ref .scope

/-- The two kinds of function. -/
inductive Body where
  | script (s : Script)
  | native (n : Native)

structure Function where
  name : String
  body : Body

namespace Function

instance : Inhabited Function := ⟨"", .native .show⟩

def isAsync (f : Function) : Bool :=
  match f.body with
  | .script s => s.isAsync
  | .native _ => false

end Function

/-- A blueprint: the scope `members` holds its attributes and methods. -/
structure Blueprint where
  name : String
  parent : Option (Ref .blueprint)
  members : Ref .scope
  deriving Inhabited

/-- An instance of a blueprint. -/
structure Object where
  serial : Nat
  blueprint : Ref .blueprint
  attrs : Dict Value := {}
  deriving Inhabited

/-- A function together with the value it was looked up on and the blueprint it was found on. -/
structure Method where
  receiver : Value
  function : Ref .function
  owner : Option (Ref .blueprint)
  deriving Inhabited

/-- The view `super` gives of an object: attributes are looked up from `start` on. -/
structure Proxy where
  receiver : Ref .object
  start : Ref .blueprint
  deriving Inhabited

/-- The state of the event loop.  The sleepers are in the order of their wake times, those of one
time in the order they were started; `now` is the time in nanoseconds at the last look at the
clock, and is set to the next wake time where the loop waits for a timer because nothing is ready. -/
structure EventLoop where
  ready : List (Ref .coroutine) := []
  sleepers : List (Nat × Ref .coroutine) := []
  started : List (Ref .coroutine) := []
  now : Nat := 0
  deriving Inhabited

/-- All shared state of a session. -/
structure World where
  heap : Heap := {}
  scopes : Scopes := {}
  functions : Arena .function Function := {}
  blueprints : Arena .blueprint Blueprint := {}
  objects : Arena .object Object := {}
  methods : Arena .method Method := {}
  proxies : Arena .proxy Proxy := {}
  coroutines : Arena .coroutine Coroutine := {}
  loop : EventLoop := {}
  deriving Inhabited

namespace World

/-- Runs a computation on the containers. -/
@[inline] def onHeap {α : Type} (w : World) (f : StateM Heap α) : α × World :=
  let heap := w.heap
  let w := { w with heap := {} }
  let (a, heap) := f heap
  (a, { w with heap })

/-- Changes the scopes. -/
@[inline] def onScopes (w : World) (f : Scopes → Scopes) : World :=
  let scopes := w.scopes
  let w := { w with scopes := {} }
  { w with scopes := f scopes }

/-! ### Members -/

/-- A new blueprint, with a scope for its members inside `outer`.  It inherits from an older one; a
reference that leads nowhere stands for none. -/
def newBlueprint (w : World) (name : String) (parent : Option (Ref .blueprint))
    (outer : Ref .scope) : (Ref .blueprint × Ref .scope) × World :=
  let r := w.blueprints.next
  let members := w.scopes.next
  ((r, members),
    { w with
      scopes := w.scopes.push { parent := some outer, blueprint := some r }
      blueprints := w.blueprints.push ⟨name, parent.filter (·.index < r.index), members⟩ })

/-- The member `name` of the nearest of `steps` blueprints from `r` upwards, and the blueprint it
was found on. -/
def findMemberWithin (w : World) (name : String) :
    (steps : Nat) → Ref .blueprint → Option (Value × Ref .blueprint)
  | 0, _ => none
  | steps + 1, r =>
    let b := w.blueprints.get r
    match w.scopes.getLocal? b.members name with
    | some v => some (v, r)
    | none =>
      match b.parent with
      | some parent => findMemberWithin w name steps parent
      | none => none

/-- The member `name` of the blueprint `r` or of the nearest one above it.  A blueprint inherits
from an older one, so the chain is no longer than the number of blueprints up to `r`. -/
def findMember (w : World) (r : Ref .blueprint) (name : String) :
    Option (Value × Ref .blueprint) :=
  findMemberWithin w name (r.index + 1) r

/-- The function among the members of an object's blueprint that takes the place of an operator. -/
def operator? (w : World) (r : Ref .object) (name : String) :
    Option (Ref .function × Ref .blueprint) :=
  match w.findMember (w.objects.get r).blueprint name with
  | some (.function f, owner) => some (f, owner)
  | _ => none

/-- The coroutine a value stands for; a reference that leads nowhere stands for none. -/
def coroutine? (w : World) (v : Value) : Option (Ref .coroutine) :=
  v.coroutine?.filter fun r => r.index < w.coroutines.size

/-! ### Text -/

/-- Containers nested deeper than this are not written out. -/
def maxTextDepth : Nat := 8

/-- What stands for a value nested too deep. -/
def elided : Value → String
  | .array _ => "[...]"
  | .tuple _ => "(...)"
  | .dict _ => "\x7b...\x7d"
  | .object _ => "<...>"
  | _ => "..."

/-- The text of a value that is neither a container nor an object. -/
def flatText (w : World) : Value → String
  | .int n => toString n
  | .float x => Decimal.floatText x
  | .bool b => if b then "true" else "false"
  | .null => "null"
  | .str s => s
  | .function r => "<function " ++ (w.functions.get r).name ++ ">"
  | .blueprint r => "<blueprint " ++ (w.blueprints.get r).name ++ ">"
  | .method r =>
    let m := w.methods.get r
    let owner :=
      match m.receiver with
      | .object o => (w.blueprints.get (w.objects.get o).blueprint).name
      | .array _ => "Array"
      | v => v.kind.name
    "<bound_method " ++ owner ++ "." ++ (w.functions.get m.function).name ++ ">"
  | .coroutine r =>
    let c := w.coroutines.get r
    "<coroutine " ++ c.name ++ " #" ++ toString c.serial ++ ">"
  | .gather r =>
    let c := w.coroutines.get r
    "<gather_task " ++ c.name ++ " #" ++ toString c.serial ++ ">"
  | .proxy r => "<super of " ++ (w.blueprints.get (w.proxies.get r).start).name ++ ">"
  | .object r =>
    let o := w.objects.get r
    "<object " ++ (w.blueprints.get o.blueprint).name ++ " instance #" ++ toString o.serial ++ ">"
  | v => elided v

/-- The items of a tuple in parentheses; a single one keeps a comma behind it. -/
def tupleText : List String → String
  | [part] => "(" ++ part ++ ",)"
  | parts => "(" ++ ", ".intercalate parts ++ ")"

/-- The text of a value, written out to the depth `depth`.  `look` gives the world as it is when a
container is reached, `hold` keeps the items of a container while their texts are made, and `object`
gives the text an object has of its own, if any. -/
def render {m : Type → Type} [Monad m] (look : m World)
    (hold : List Value → m (List String) → m (List String))
    (object : Ref .object → m (Option String)) : (depth : Nat) → Value → m String
  | 0, v => pure (elided v)
  | depth + 1, .array r => do
    let items := ((← look).heap.array r).toList
    let parts ← hold items (items.mapM (render look hold object depth))
    return "[" ++ ", ".intercalate parts ++ "]"
  | depth + 1, .tuple r => do
    let items := ((← look).heap.tuple r).toList
    return tupleText (← hold items (items.mapM (render look hold object depth)))
  | depth + 1, .dict r => do
    let entries := ((← look).heap.dict r).toList
    let parts ← hold (entries.map (·.2)) (entries.mapM fun (key, v) => do
      return "\"" ++ key ++ "\": " ++ (← render look hold object depth v))
    return "\x7b" ++ ", ".intercalate parts ++ "\x7d"
  | _ + 1, .object r => do
    match ← object r with
    | some text => return text
    | none => return (← look).flatText (.object r)
  | _ + 1, v => return (← look).flatText v

/-- The plain text of a value, in which no object has a text of its own. -/
def text (w : World) (v : Value) : String :=
  Id.run (render (pure w) (fun _ texts => texts) (fun _ => pure none) maxTextDepth v)

end World

end Rewind
