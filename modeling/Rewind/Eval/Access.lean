/-
Attributes and items of values.

* `readAttribute`, `readItem` — reading `target.name` and `target[index]`;
* `storeAttribute`, `storeItem` — writing them;
* `superProxy` — what `super` stands for.

A part of a fresh container is fresh and a part of a view is a view, so taking a part out of storage
never makes it look like a value of one's own.
-/
import Rewind.Machine

namespace Rewind.Eval

/-- A member found on `owner` by way of `receiver`: functions are bound to the receiver. -/
def bindMember (receiver : Value) (member : Value) (owner : Ref .blueprint) : Eval Held :=
  match member with
  | .function f => return .fresh (← newMethod ⟨receiver, f, some owner⟩)
  | v => return .view v

/-- An attribute of an object: its own, or a member of its blueprint. -/
def objectAttribute? (r : Ref .object) (name : String) : Eval (Option Held) := do
  let o ← ask fun w => w.objects.get r
  match o.attrs.get? name with
  | some v => return some (.view v)
  | none =>
    match ← ask fun w => w.findMember o.blueprint name with
    | some (member, owner) => return some (← bindMember (.object r) member owner)
    | none => return none

/-- What an attribute that is missing was looked for on. -/
def attributeOwner (w : World) : Value → AttributeOwner
  | .object r => .object (w.blueprints.get (w.objects.get r).blueprint).name
  | .blueprint r => .blueprint (w.blueprints.get r).name
  | .proxy r => .blueprint (w.blueprints.get (w.proxies.get r).start).name
  | v => .value v.kind

/-- The attribute `name` of a value, if it has one. -/
def findAttribute? (target : Held) (name : String) : Eval (Option Held) := do
  match target.value with
  | .object r =>
    if name = "blueprint" then
      return some (.fresh (.blueprint (← ask fun w => (w.objects.get r).blueprint)))
    else objectAttribute? r name
  | .blueprint r =>
    if name = "name" then return some (.fresh (.str (← ask fun w => (w.blueprints.get r).name)))
    else return (← ask fun w => w.findMember r name).map fun (member, _) => .view member
  | .proxy r =>
    let p ← ask fun w => w.proxies.get r
    match ← ask fun w => w.findMember p.start name with
    | some (member, owner) => return some (← bindMember (.object p.receiver) member owner)
    | none => return none
  | .dict r => return (← ask fun w => (w.heap.dict r).get? name).map target.part
  | .array r =>
    match name with
    | "append" =>
      let f ← onWorld fun w =>
        (w.functions.next, { w with functions := w.functions.push ⟨"append", .native .append⟩ })
      return some (.fresh (← newMethod ⟨.array r, f, none⟩))
    | "len" => return some (.fresh (.int (← ask fun w => (w.heap.array r).size)))
    | _ => return none
  | _ => return none

/-- `target.name` -/
def readAttribute (target : Held) (name : String) (site : Token) : Eval Held := do
  match ← findAttribute? target name with
  | some held => return held
  | none => complain (.noAttribute (← ask fun w => attributeOwner w target.value) name) site

/-- The item of a sequence at an index. -/
def sequenceItem (items : Array Value) (index : Int) : Except Complaint Value :=
  match (resolveIndex index items.size).bind (items[·]?) with
  | some v => .ok v
  | none => .error (.indexOutOfBounds index items.size)

/-- The item `index` of a value. -/
def itemOf (w : World) (target : Held) (index : Value) : Except Complaint Held :=
  match target.value, index with
  | .array r, .int i => (sequenceItem (w.heap.array r) i).map target.part
  | .tuple r, .int i => (sequenceItem (w.heap.tuple r) i).map target.part
  | .str s, .int i =>
    let cs := s.toList
    match (resolveIndex i cs.length).bind (cs[·]?) with
    | some c => .ok (.fresh (.str (String.singleton c)))
    | none => .error (.stringIndexOutOfBounds i cs.length)
  | .array _, v | .tuple _, v | .str _, v => .error (.indexNotInteger v.kind)
  | .dict r, .str key =>
    match (w.heap.dict r).get? key with
    | some v => .ok (target.part v)
    | none => .error (.keyNotFound key)
  | .dict _, v => .error (.keyNotString v.kind)
  | v, _ => .error (.notIndexable v.kind)

/-- `target[index]` -/
def readItem (target : Held) (index : Value) (site : Token) : Eval Held := do
  orComplain site (← ask fun w => itemOf w target index)

/-- Sets an attribute of an object, a member of a blueprint or an entry of a dictionary. -/
def storeAttribute (target : Value) (name : String) (v : Value) (site : Token) : Eval Unit := do
  match target with
  | .object r =>
    modifyWorld fun w =>
      { w with objects := w.objects.modify r fun o => { o with attrs := o.attrs.set name v } }
  | .blueprint r =>
    let members ← ask fun w => (w.blueprints.get r).members
    modifyScopes (·.define members name v)
  | .dict r =>
    onHeap fun h => ((), { h with dicts := h.dicts.modify r (·.set name v) })
  | other => complain (.noAttributeAssignment name other.kind) site

/-- Sets an item of an array or an entry of a dictionary. -/
def storeItem (target index : Value) (v : Value) (site : Token) : Eval Unit := do
  match target, index with
  | .array r, .int i =>
    let length ← ask fun w => (w.heap.array r).size
    match resolveIndex i length with
    | some slot =>
      onHeap fun h => ((), { h with arrays := h.arrays.modify r (·.modify slot fun _ => v) })
    | none => complain (.arrayIndexOutOfBounds i length) site
  | .array _, other => complain (.arrayIndexNotInteger other.kind) site
  | .dict r, .str key =>
    onHeap fun h => ((), { h with dicts := h.dicts.modify r (·.set key v) })
  | .dict _, other => complain (.keyNotString other.kind) site
  | .tuple _, _ => complain .tupleImmutable site
  | .str _, _ => complain .stringImmutable site
  | other, _ => complain (.noItemAssignment other.kind) site

/-- The view of `self` that starts above the blueprint whose method is running. -/
def superProxy (site : Token) : Eval Held := do
  match (← mode).owner with
  | none => complain .superOutsideMethod site
  | some owner =>
    match ← lookup "self" with
    | some (.object receiver) =>
      let b ← ask fun w => w.blueprints.get owner
      match b.parent with
      | none => complain (.noParentBlueprint b.name) site
      | some start =>
        onWorld fun w =>
          (.fresh (.proxy w.proxies.next), { w with proxies := w.proxies.push ⟨receiver, start⟩ })
    | _ => complain .superWithoutObject site

end Rewind.Eval
