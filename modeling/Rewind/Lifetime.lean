/-
Lifetimes.

Everything a program shares lives in a cell, and a cell lasts as long as it is referred to by a root
or by another cell that lasts.  The roots are the outermost scope, the modules, the threads and
whatever an evaluation is holding.  Cells that refer to each other in a circle keep each other.

A blueprint that ends takes its members along.  A function that was defined among them may last
longer, and then finds the scope of the members empty.  What is bound in a scope of members is
therefore held by the blueprint and not by the scope.

* `Cell`, `World.links` — cells of all kinds, and the cells one of them refers to;
* `World.reaches` — a cell can be reached from the roots, so it lasts;
* `World.holders` — how many references to each cell are left when no cell is without one;
* `World.dissolve` — empties the scopes of members whose blueprints have ended.
-/
import Rewind.World
import Std.Data.HashMap
import Std.Data.HashSet

namespace Rewind

/-- A cell of any kind. -/
structure Cell where
  kind : CellKind
  index : Nat
  deriving DecidableEq, Hashable

/-- The cell behind a reference. -/
def Ref.cell {k : CellKind} (r : Ref k) : Cell := ⟨k, r.index⟩

/-- The cell a value refers to; numbers, booleans, null and strings refer to none. -/
def Value.cell? : Value → Option Cell
  | int _ | float _ | bool _ | null | str _ => none
  | array r => some r.cell
  | tuple r => some r.cell
  | dict r => some r.cell
  | function r => some r.cell
  | blueprint r => some r.cell
  | object r => some r.cell
  | method r => some r.cell
  | coroutine r | gather r => some r.cell
  | proxy r => some r.cell

/-- The cells some values refer to. -/
def cellsOf (vs : List Value) : List Cell := vs.filterMap Value.cell?

/-- The value an outcome carries. -/
def Outcome.carried : Outcome → Value
  | .ok v => v
  | .error r => r.value

/-- The cells the outcomes of a tape refer to. -/
def Tape.cells (t : Tape) : List Cell := cellsOf (t.entries.toList.map Outcome.carried)

/-- The values a pending signal carries. -/
def Signal.carried : Signal → List Value
  | stop | again => []
  | result v => [v]
  | raised r => [r.value]

/-- The cells a parked construct refers to: those of the items a loop goes through, and those of a
signal that waits for the end of `finally`. -/
def FrameKind.cells : FrameKind → List Cell
  | eachLoop l => cellsOf l.items.toList
  | attempt (.cleanup (some signal)) => cellsOf signal.carried
  | _ => []

/-- The cells a coroutine refers to.  The gather tasks it reports to are none of them, and a gather
task has the outcomes of its children through the children. -/
def Coroutine.cells (c : Coroutine) : List Cell :=
  let body :=
    match c.kind with
    | .script f owner => f.cell :: owner.toList.map Ref.cell
    | .timer _ => []
    | .gather g => g.children.map Ref.cell
  body ++ cellsOf (c.result :: (c.exception.map (·.value)).toList) ++
    (c.waiters ++ c.awaiting.toList).map Ref.cell ++ c.scope.toList.map Ref.cell ++
    c.frames.flatMap (·.kind.cells) ++ c.tape.cells

namespace World

/-- The number of cells of a kind. -/
def population (w : World) : CellKind → Nat
  | .array => w.heap.arrays.size
  | .tuple => w.heap.tuples.size
  | .dict => w.heap.dicts.size
  | .scope => w.scopes.size
  | .function => w.functions.size
  | .blueprint => w.blueprints.size
  | .object => w.objects.size
  | .method => w.methods.size
  | .proxy => w.proxies.size
  | .coroutine => w.coroutines.size

/-- All kinds of cell. -/
def cellKinds : List CellKind :=
  [.array, .tuple, .dict, .scope, .function, .blueprint, .object, .method, .proxy, .coroutine]

/-- The number of cells. -/
def cellCount (w : World) : Nat := cellKinds.foldl (fun n k => n + w.population k) 0

/-- All cells. -/
def cells (w : World) : List Cell :=
  cellKinds.flatMap fun k => (List.range (w.population k)).map fun i => ⟨k, i⟩

/-- The cells a scope refers to; its bindings count unless they are members. -/
def scopeLinks (s : Scope) : List Cell :=
  s.parent.toList.map Ref.cell ++ if s.blueprint.isSome then [] else cellsOf s.vars.values

/-- The cells a function refers to. -/
def functionLinks (f : Function) : List Cell :=
  match f.body with
  | .script s => s.scope.cell :: cellsOf (s.params.filterMap (·.default))
  | .native _ => []

/-- The cells a cell refers to, once for each reference. -/
def links (w : World) (c : Cell) : List Cell :=
  match c.kind with
  | .array => cellsOf (w.heap.array ⟨c.index⟩).toList
  | .tuple => cellsOf (w.heap.tuple ⟨c.index⟩).toList
  | .dict => cellsOf (w.heap.dict ⟨c.index⟩).values
  | .scope => scopeLinks (w.scopes.get ⟨c.index⟩)
  | .function => functionLinks (w.functions.get ⟨c.index⟩)
  | .blueprint =>
    let b := w.blueprints.get ⟨c.index⟩
    b.members.cell :: b.parent.toList.map Ref.cell ++ cellsOf (w.scopes.get b.members).vars.values
  | .object =>
    let o := w.objects.get ⟨c.index⟩
    o.blueprint.cell :: cellsOf o.attrs.values
  | .method =>
    let b := w.methods.get ⟨c.index⟩
    b.function.cell :: b.owner.toList.map Ref.cell ++ cellsOf [b.receiver]
  | .proxy =>
    let p := w.proxies.get ⟨c.index⟩
    [p.receiver.cell, p.start.cell]
  | .coroutine => (w.coroutines.get ⟨c.index⟩).cells

/-! ### Reachable cells -/

/-- Adds the cells not seen before to those to be visited. -/
def unseen (found : List Cell) (visits : List Cell) (seen : Std.HashSet Cell) :
    List Cell × Std.HashSet Cell :=
  found.foldl (fun (visits, seen) c =>
    if seen.contains c then (visits, seen) else (c :: visits, seen.insert c)) (visits, seen)

/-- One of the cells to be visited, or one that they lead to in `steps` visits, is `target`. -/
def reachesWithin (w : World) (target : Cell) :
    (steps : Nat) → (visits : List Cell) → (seen : Std.HashSet Cell) → Bool
  | 0, _, _ => false
  | _ + 1, [], _ => false
  | steps + 1, c :: visits, seen =>
    if c = target then true
    else
      let (visits, seen) := unseen (w.links c) visits seen
      reachesWithin w target steps visits seen

/-- A cell can be reached from the roots.  Every cell is visited at most once. -/
def reaches (w : World) (roots : List Cell) (target : Cell) : Bool :=
  let (visits, seen) := unseen roots [] {}
  reachesWithin w target (w.cellCount + 1) visits seen

/-! ### Cells that last -/

/-- The number of references to each cell, from the roots and from all cells. -/
def references (w : World) (roots : List Cell) : Std.HashMap Cell Nat :=
  (roots ++ w.cells.flatMap w.links).foldl
    (fun counts c => counts.insert c (counts.getD c 0 + 1)) {}

/-- Takes away the references of cells that nothing refers to, and of the cells that nothing refers
to then; each cell has its turn at most once. -/
def withdraw (w : World) :
    (steps : Nat) → (ended : List Cell) → Std.HashMap Cell Nat → Std.HashMap Cell Nat
  | 0, _, counts => counts
  | _ + 1, [], counts => counts
  | steps + 1, c :: ended, counts =>
    let (ended, counts) := (w.links c).foldl (fun (ended, counts) d =>
      let left := counts.getD d 0 - 1
      (if left = 0 then d :: ended else ended, counts.insert d left)) (ended, counts)
    withdraw w steps ended counts

/-- The number of references to each cell from the roots and from cells that last. -/
def holders (w : World) (roots : List Cell) : Std.HashMap Cell Nat :=
  let counts := w.references roots
  withdraw w (w.cellCount + 1) (w.cells.filter fun c => counts.getD c 0 = 0) counts

/-- Empties the scopes of members whose blueprints have ended. -/
def dissolve (w : World) (roots : List Cell) : World :=
  let held := w.holders roots
  let ended := w.blueprints.cells.toList.zipIdx.filter fun (_, i) => held.getD ⟨.blueprint, i⟩ 0 = 0
  w.onScopes fun s => ended.foldl (fun s (b, _) => s.clear b.members) s

/-! ### Blueprints in use -/

/-- A blueprint is `b` or inherits from it, over at most `steps` others. -/
def inheritsWithin (w : World) (b : Ref .blueprint) : (steps : Nat) → Ref .blueprint → Bool
  | 0, r => r = b
  | steps + 1, r => r = b || (w.blueprints.get r).parent.any (inheritsWithin w b steps)

/-- One of the first `steps` scopes from `r` outwards binds the blueprint `b` to its own name.
Scopes of members do not count. -/
def namedWithin (w : World) (b : Ref .blueprint) (name : String) : (steps : Nat) → Ref .scope → Bool
  | 0, _ => false
  | steps + 1, r =>
    let s := w.scopes.get r
    let here :=
      match s.vars.get? name with
      | some (.blueprint found) => found = b && s.blueprint.isNone
      | _ => false
    here || s.parent.any (namedWithin w b name steps)

/-- A sign that a blueprint lasts that is quick to see: a method of it or of one below it is
running, or it is seen by its name from the innermost scope `r`. -/
def isInUse (w : World) (b : Ref .blueprint) (owner : Option (Ref .blueprint)) (r : Ref .scope) :
    Bool :=
  owner.any (fun o => w.inheritsWithin b o.index o) ||
    w.namedWithin b (w.blueprints.get b).name (r.index + 1) r

end World

end Rewind
