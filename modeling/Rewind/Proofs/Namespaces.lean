/-
Namespaces of modules.

What a module exports is a dictionary with the public names of its scope in their order, and with a
copy of what each of them is bound to.  The load of a file that has no entry yet runs the file behind
an entry of null; a load of any other file gives a copy of what is there.  What a `load` statement
binds is such a copy, or copies of some of the values in it.

* `Heap.Exports`, `exports_run` — the namespace that is made of the bindings of a scope;
* `Machine.opening`, `Eval.closing`, `runModule_run` — the load of a file from its beginning to its end;
* `loadModule_again`, `loadModule_run` — a load, with and without an entry for the file;
* `Machine.Selects`, `selects_bindSelection` — the names that a statement binds.
-/
import Rewind.Proofs.Independence
import Rewind.Proofs.Walk
import Rewind.Proofs.Watched

namespace Rewind

open Eval

/-! ### Namespaces -/

/-- A dictionary that is set one key after the other, all of them different, has the entries in that
order. -/
theorem Dict.toList_foldl_set {α : Type} {d : Dict α} (hd : d.Indexed) (entries : List (String × α))
    (hn : ((d.toList ++ entries).map (·.1)).Nodup) :
    (entries.foldl (fun d (e : String × α) => d.set e.1 e.2) d).toList = d.toList ++ entries := by
  induction entries generalizing d with
  | nil => exact (List.append_nil _).symm
  | cons e entries ih =>
    obtain ⟨key, v⟩ := e
    have absent : key ∉ d.keys := fun hm => by
      rw [List.map_append, List.nodup_append'] at hn
      exact List.disjoint_left.1 hn.2.2 hm List.mem_cons_self
    have set := hd.toList_set (v := v) absent
    rw [List.foldl_cons, ih (hd.set absent) (by rw [set]; simpa using hn), set, List.append_assoc]
    rfl

/-- The bindings of a scope that a module makes public. -/
def Scopes.publics (s : Scopes) (r : Ref .scope) : List (String × Value) :=
  (s.entries r).filter fun e => !e.1.startsWith "_"

/-- Some entries under the same names as others, with values that hold the same. -/
def Heap.Mirrored (h : Heap) : List (String × Value) → List (String × Value) → Prop :=
  List.Forall₂ fun e e' => e'.1 = e.1 ∧ h.Mirrors e.2 e'.2

namespace Heap.Mirrored

variable {h h' : Heap} {l l' : List (String × Value)}

theorem mono (hm : h.Mirrored l l') (he : h.Extends h') : h'.Mirrored l l' :=
  List.Forall₂.imp (fun _ _ hx => ⟨hx.1, hx.2.mono he⟩) hm

theorem names (hm : h.Mirrored l l') : l'.map (·.1) = l.map (·.1) := by
  induction hm with
  | nil => rfl
  | cons hx _ ih => rw [List.map_cons, List.map_cons, ih, hx.1]

theorem values (hm : h.Mirrored l l') :
    List.Forall₂ h.Mirrors (l.map (·.2)) (l'.map (·.2)) := by
  induction hm with
  | nil => exact .nil
  | cons hx _ ih => exact .cons hx.2 ih

end Heap.Mirrored

/-- The value is a dictionary with these names in this order, and with values that hold the same. -/
def Heap.Exports (h : Heap) (entries : List (String × Value)) (ns : Value) : Prop :=
  ∃ items, h.contents? ns = some ⟨.dictionary, entries.map (·.1), items⟩ ∧
    List.Forall₂ h.Mirrors (entries.map (·.2)) items

theorem Heap.Exports.mono {h h' : Heap} {entries : List (String × Value)} {ns : Value}
    (hx : h.Exports entries ns) (he : h.Extends h') : h'.Exports entries ns := by
  obtain ⟨items, hc, hm⟩ := hx
  exact ⟨items, he _ _ hc, hm.imp fun _ _ => (·.mono he)⟩

/-- The machine with other containers. -/
def Machine.withHeap (m : Machine) (heap : Heap) : Machine :=
  { m with world := { m.world with heap } }

namespace Eval

/-- Entries are copied one after the other. -/
theorem copies_run (entries : List (String × Value)) (m : Machine) :
    ∃ copies h, (entries.mapM fun e => do return (e.1, ← onHeap (Heap.duplicate e.2)) :
        Eval (List (String × Value))) m = .ok copies (m.withHeap h) ∧
      m.world.heap.Extends h ∧ h.Mirrored entries copies := by
  induction entries generalizing m with
  | nil => exact ⟨[], m.world.heap, rfl, .refl _, .nil⟩
  | cons e entries ih =>
    obtain ⟨copies, h, hr, he, hm⟩ := ih (m.withHeap (Heap.duplicate e.2 m.world.heap).2)
    have first := Heap.extends_duplicate e.2 m.world.heap
    refine ⟨(e.1, (Heap.duplicate e.2 m.world.heap).1) :: copies, h, ?_, first.trans he,
      .cons ⟨rfl, (Heap.mirrors_duplicate e.2 m.world.heap).mono he⟩ hm⟩
    rw [List.mapM_cons]
    show EStateM.bind (List.mapM _ entries) _ (m.withHeap (Heap.duplicate e.2 m.world.heap).2) = _
    unfold EStateM.bind
    rw [hr]
    rfl

/-- The namespace of a module holds what the public bindings of its scope hold, in their order. -/
theorem exports_run (r : Ref .scope) (m : Machine) (hi : (m.world.scopes.get r).vars.Indexed) :
    ∃ d h, exports r m = .ok (.dict d) (m.withHeap h) ∧
      h.Exports (m.world.scopes.publics r) (.dict d) := by
  obtain ⟨copies, h, hr, -, hm⟩ := copies_run (m.world.scopes.publics r) m
  have names : (copies.map (·.1)).Nodup := by
    rw [hm.names]
    exact (List.filter_sublist.map _).nodup hi.nodup_keys
  have listed := Dict.toList_foldl_set Dict.indexed_empty copies names
  generalize hd : copies.foldl (fun (d : Dict Value) e => d.set e.1 e.2) {} = entries at listed
  have listed : entries.toList = copies := listed
  refine ⟨h.dicts.next, (Heap.newDict entries h).2, ?_, copies.map (·.2), ?_,
    (hm.mono (Heap.extends_newDict entries h)).values⟩
  · show EStateM.bind (List.mapM _ (m.world.scopes.publics r)) _ m = _
    unfold EStateM.bind
    rw [hr, ← hd]
    rfl
  · have made : (Heap.newDict entries h).2.dicts.get? h.dicts.next = some entries :=
      Arena.get?_push_next _ _
    rw [Heap.contents?, made, Option.map_some, Dict.keys, Dict.values, listed, hm.names]

end Eval

/-! ### The load of a file -/

namespace Machine

/-- There is an entry for the file at a path: it is loading or has been loaded. -/
def HasEntry (m : Machine) (path : String) : Prop := path ∈ m.modules.map (·.1)

/-- The machine in which the body of the file at `path` begins. -/
def opening (m : Machine) (path : String) (cursor : Cursor) : Machine :=
  moduleMachine { m with
      modules := (path, .null) :: m.modules
      sources := m.sources + 1
      world := { m.world with scopes := m.world.scopes.push {} } }
    cursor m.world.scopes.next (Path.parent? path)

/-- The machine behind a load whose body has come to its end in `m'` without success. -/
def forgetting (m : Machine) (path : String) (m' : Machine) : Machine :=
  { loaderMachine m m' with
    modules := m'.modules.filter (·.1 != path)
    world := m'.world.onScopes (·.clear m.world.scopes.next) }

end Machine

namespace Eval

variable {m m' : Machine} {path : String}

/-- What is left to do behind the body of a module: its namespace is kept and a copy of that given. -/
def closeModule (r : Ref .scope) (path : String) : Eval Value := do
  let v ← exports r
  let bound ← onHeap (Heap.duplicate v)
  keepNamespace path v
  modify fun m => { m with moduleScopes := r :: m.moduleScopes }
  return bound

/-- How the load of a file ends, given how its body ends. -/
def closing (m : Machine) (path : String) :
    EStateM.Result Fault Machine Status → EStateM.Result Interrupt Machine Value
  | .error fault m' => .error (.fault fault) (m.forgetting path m')
  | .ok (.leaving (.raised raised)) m' => .error (.raised raised) (m.forgetting path m')
  | .ok _ m' => closeModule m.world.scopes.next path (loaderMachine m m')

theorem openModule_run (name path : String) (m : Machine) :
    openModule name path m = match m.environment.files.readText path with
      | .error fault => .ok (.error (.system (.unreadableModule name path fault.message))) m
      | .ok text => .ok ((Cursor.ofSource ⟨m.sources, text.toList⟩).mapError .ofLex)
          { m with sources := m.sources + 1 } := by
  simp only [openModule, bind, EStateM.bind, get_run]
  cases m.environment.files.readText path <;> rfl

theorem inModule_bind_run {α β : Type} (cursor : Cursor) (r : Ref .scope) (directory : Option String)
    (x : Run α) (f : Except Fault α → Eval β) (m : Machine) :
    (inModule cursor r directory x >>= f) m = match x (moduleMachine m cursor r directory) with
      | .ok a m' => f (.ok a) (loaderMachine m m')
      | .error fault m' => f (.error fault) (loaderMachine m m') := by
  show EStateM.bind (inModule cursor r directory x) f m = _
  unfold EStateM.bind
  rw [inModule_run]
  cases x (moduleMachine m cursor r directory) <;> rfl

/-- A file that has no entry is run, if it can be read and begins with a token. -/
theorem runModule_run (j : Jobs) (name : String) (hp : ¬ m.HasEntry path) :
    runModule j name path m =
      match m.environment.files.readText path with
      | .error fault =>
        .error (.fault (.failure (.system (.unreadableModule name path fault.message)))) m
      | .ok text =>
        match Cursor.ofSource ⟨m.sources, text.toList⟩ with
        | .error fault => .error (.fault (.failure (.ofLex fault))) { m with sources := m.sources + 1 }
        | .ok cursor => closing m path (j.body 1 (m.opening path cursor)) := by
  have kept : m.modules.filter (·.1 != path) = m.modules := filter_of_not_mem hp
  -- the entry made for the module is the only one that its failure takes away
  have dropped : ((path, Value.null) :: m.modules).filter (·.1 != path) = m.modules := by
    rw [List.filter_cons_of_neg (by simp), kept]
  unfold runModule
  show EStateM.bind (openModule name path) _
    { m with modules := (path, .null) :: m.modules.filter (·.1 != path) } = _
  rw [kept]
  unfold EStateM.bind
  rw [openModule_run]
  dsimp only
  cases m.environment.files.readText path with
  | error fault =>
    refine congrArg (EStateM.Result.error _) ?_
    show ({ m with modules := ((path, Value.null) :: m.modules).filter (·.1 != path) } : Machine) = m
    rw [dropped]
  | ok text =>
    dsimp only
    cases Cursor.ofSource ⟨m.sources, text.toList⟩ with
    | error fault =>
      refine congrArg (EStateM.Result.error _) ?_
      show ({ m with modules := ((path, Value.null) :: m.modules).filter (·.1 != path),
                     sources := m.sources + 1 } : Machine) = _
      rw [dropped]
    | ok cursor =>
      refine Eq.trans (inModule_bind_run (m := { m with
        modules := (path, .null) :: m.modules
        sources := m.sources + 1
        world := { m.world with scopes := m.world.scopes.push {} } }) cursor m.world.scopes.next
          (Path.parent? path) (j.body 1) _) ?_
      rw [← Machine.opening]
      show _ = closing m path (j.body 1 (m.opening path cursor))
      -- a signal that is no exception leaves the module as its end does
      cases j.body 1 (m.opening path cursor) with
      | error fault m' => rfl
      | ok status m' =>
        cases status with
        | leaving signal => cases signal <;> rfl
        | _ => rfl


/-- The namespace of a module that has come to its end is kept, and a copy of it given. -/
theorem closeModule_run (r : Ref .scope) (path : String) (m : Machine)
    (hi : (m.world.scopes.get r).vars.Indexed) :
    ∃ ns v h, closeModule r path m = .ok v { m.withHeap h with
        modules := (path, ns) :: m.modules.filter (·.1 != path)
        moduleScopes := r :: m.moduleScopes } ∧
      h.Exports (m.world.scopes.publics r) ns ∧ h.Mirrors ns v := by
  obtain ⟨d, h, hr, hx⟩ := exports_run r m hi
  refine ⟨.dict d, (Heap.duplicate (.dict d) h).1, (Heap.duplicate (.dict d) h).2, ?_,
    hx.mono (Heap.extends_duplicate _ _), Heap.mirrors_duplicate (.dict d) h⟩
  show EStateM.bind (exports r) _ m = _
  unfold EStateM.bind
  rw [hr]
  rfl

/-! ### Loads -/

section Loads

variable {j : Jobs} {name : String} {site : Token}

/-- The load of a file gives a copy of what is there, or runs the file if nothing is. -/
theorem loadModule_run (hn : name ≠ "weaver") (hr : resolveModule m name = some path) :
    loadModule j name site m = (m.modules.find? (·.1 == path)).elim (runModule j name path m)
      fun e => onHeap (Heap.duplicate e.2) m := by
  have hget : (get : Eval Machine) m = .ok m m := rfl
  rw [loadModule, if_neg hn, bind_of_ok hget, hr]
  dsimp only
  rw [bind_of_ok (namespace?_run path m)]
  cases m.modules.find? (·.1 == path) <;> rfl

theorem found_of_find? {entries : List (String × Value)} {e : String × Value}
    (h : entries.find? (·.1 == path) = some e) : e.1 = path := by
  simpa using List.find?_some h

/-- A file that is loading or has been loaded is not run again. -/
theorem loadModule_again (hn : name ≠ "weaver") (hr : resolveModule m name = some path)
    (hd : (m.modules.map (·.1)).Nodup) {v : Value} (he : (path, v) ∈ m.modules) :
    loadModule j name site m = .ok (Heap.duplicate v m.world.heap).1
      (m.withHeap (Heap.duplicate v m.world.heap).2) := by
  rw [loadModule_run hn hr]
  cases hf : m.modules.find? (·.1 == path) with
  | none => exact absurd (List.mem_map_of_mem he) (not_mem_of_find?_eq_none hf)
  | some e =>
    have same : e = (path, v) := List.inj_on_of_nodup_map hd (List.mem_of_find?_eq_some hf) he
      (found_of_find? hf)
    rw [same]
    rfl

/-- Any other file is run. -/
theorem loadModule_first (hn : name ≠ "weaver") (hr : resolveModule m name = some path)
    (hp : ¬ m.HasEntry path) : loadModule j name site m = runModule j name path m := by
  rw [loadModule_run hn hr]
  cases hf : m.modules.find? (·.1 == path) with
  | none => rfl
  | some e =>
    refine absurd ?_ hp
    rw [Machine.HasEntry, ← found_of_find? hf]
    exact List.mem_map_of_mem (List.mem_of_find?_eq_some hf)

end Loads

/-! ### What is bound -/

/-- The computation only moves the cursor. -/
def Steers {ε α : Type} (x : EStateM ε Machine α) : Prop :=
  ∀ (m : Machine) (a : α) (m' : Machine), x m = .ok a m' → ∃ c, m' = m.moved c

namespace Steers

variable {ε α β : Type}

theorem read (f : Machine → α) : Steers (fun m => .ok (f m) m : EStateM ε Machine α) := by
  rintro m _ _ ⟨⟩
  exact ⟨m.thread.cursor, rfl⟩

theorem pure (a : α) : Steers (Pure.pure a : EStateM ε Machine α) := read fun _ => a

theorem bind {x : EStateM ε Machine α} {f : α → EStateM ε Machine β} (hx : Steers x)
    (hf : ∀ a, Steers (f a)) : Steers (x >>= f) := by
  intro m b m' h
  obtain ⟨a, m₁, h₁, h₂⟩ := ok_of_bind h
  obtain ⟨c, rfl⟩ := hx m a m₁ h₁
  obtain ⟨d, rfl⟩ := hf a _ _ _ h₂
  exact ⟨d, rfl⟩

theorem ite {p : Prop} [Decidable p] {x y : EStateM ε Machine α} (hx : Steers x) (hy : Steers y) :
    Steers (if p then x else y) := by
  split
  · exact hx
  · exact hy

theorem lift {x : Run α} (hx : Steers x) : Steers (liftM x : Eval α) := by
  intro m a m' h
  rw [Quiet.run_lift] at h
  cases hr : x m with
  | ok b m₁ =>
    rw [hr] at h
    obtain ⟨rfl, rfl⟩ := EStateM.Result.ok.inj h
    exact hx m b m₁ hr
  | error f m₁ =>
    rw [hr] at h
    contradiction

theorem move (f : Cursor → Except Failure Cursor) : Steers (Eval.move f) := by
  intro m a m' h
  unfold Eval.move at h
  cases hf : f m.thread.cursor with
  | ok c =>
    rw [hf] at h
    cases h
    exact ⟨c, rfl⟩
  | error failure =>
    rw [hf] at h
    contradiction

theorem bump : Steers Eval.bump := .bind (.read _) fun _ => .bind (.move _) fun _ => .pure _

theorem advance (wanted : TokenKind) : Steers (Eval.advance wanted) :=
  .bind (.read _) fun _ => .bind (.move _) fun _ => .pure _

theorem skipOver (k : TokenKind) : Steers (Eval.skipOver k) :=
  .bind (.read _) fun _ => .ite (.bind bump fun _ => .pure _) (.pure _)

theorem alias? : Steers Eval.alias? := by
  refine .bind (skipOver _) fun _ => .ite ?_ (.pure _)
  exact .bind (advance _) fun _ => .pure _

theorem moduleName : Steers Eval.moduleName := by
  refine .bind (.read _) fun k => ?_
  split
  · exact bump
  · exact bump
  · exact .bind (.read _) fun _ => fun _ _ _ h => by contradiction

theorem selection (n : Nat) (read : List (Token × Option Token)) : Steers (Eval.selection n read) := by
  induction n generalizing read with
  | zero => exact fun _ _ _ h => by contradiction
  | succ n ih =>
    refine .bind (.read _) fun _ => .ite (.pure _) ?_
    refine .bind (advance _) fun _ => .bind alias? fun _ => ?_
    exact .bind (skipOver _) fun _ => .ite (ih _) (.pure _)

end Steers

end Eval

namespace Machine

/-- The machine once a name has been bound in the innermost scope. -/
def defining (m : Machine) (name : String) (v : Value) : Machine :=
  { m with world := m.world.onScopes (·.define m.thread.scope name v) }

/-- From the first machine on, each of the names is bound in turn to a value that holds the same as what
the namespace has under it. -/
inductive Selects (ns : Value) : Machine → List (Token × Option Token) → Machine → Prop
  | nil (m : Machine) : Selects ns m [] m
  | cons {m m' : Machine} {d : Ref .dict} {item : Token} {renamed : Option Token}
    {rest : List (Token × Option Token)} {h : Heap} {v bound : Value} :
    ns = .dict d → (m.world.heap.dict d).get? item.text = some v → h.Mirrors v bound →
    Selects ns ((m.withHeap h).defining (renamed.getD item).text bound) rest m' →
    Selects ns m ((item, renamed) :: rest) m'

/-- What a `load` statement binds that has been given a namespace: a name to all of it, or names to what
is in it. -/
inductive Binds (m m' : Machine) (ns : Value) : Prop
  | whole (name : String) : m' = m.defining name ns → Binds m m' ns
  | members (names : List (Token × Option Token)) : m.Selects ns names m' → Binds m m' ns

end Machine

namespace Eval

/-- The names are bound that are selected, each to a copy. -/
theorem selects_bindSelection {ns : Value} {module : String} {names : List (Token × Option Token)}
    {m m' : Machine} (h : bindSelection ns module names m = .ok () m') : m.Selects ns names m' := by
  induction names generalizing m with
  | nil =>
    cases h
    exact .nil _
  | cons name names ih =>
    obtain ⟨item, renamed⟩ := name
    obtain ⟨found, m₁, hf, h⟩ := ok_of_bind h
    cases found with
    | none => contradiction
    | some v =>
      cases ns with
      | dict d =>
        obtain ⟨hv, rfl⟩ := EStateM.Result.ok.inj hf
        exact .cons rfl hv (Heap.mirrors_duplicate v m.world.heap) (ih h)
      | _ => nomatch hf

/-- What is loaded by an item of a `load` statement that comes to its end is bound. -/
theorem binds_loadItem {j : Jobs} {n : Nat} {m m' : Machine} (h : loadItem j n m = .ok () m') :
    ∃ c module ns m₁, loadModule j module.text module (m.moved c) = .ok ns m₁ ∧ m₁.Binds m' ns := by
  obtain ⟨listed, m₁, h₁, h⟩ := ok_of_bind h
  obtain ⟨c₁, rfl⟩ := Steers.lift (.skipOver _) m listed m₁ h₁
  -- a list of names taken from the module, or the module under a name
  split at h
  · obtain ⟨names, m₂, h₂, h⟩ := ok_of_bind h
    obtain ⟨_, m₃, h₃, h⟩ := ok_of_bind h
    obtain ⟨_, m₄, h₄, h⟩ := ok_of_bind h
    obtain ⟨module, m₅, h₅, h⟩ := ok_of_bind h
    obtain ⟨c₂, rfl⟩ := Steers.lift (.selection _ _) _ _ _ h₂
    obtain ⟨c₃, rfl⟩ := Steers.lift (.advance _) _ _ _ h₃
    obtain ⟨c₄, rfl⟩ := Steers.lift (.advance _) _ _ _ h₄
    obtain ⟨c₅, rfl⟩ := Steers.lift .moduleName _ _ _ h₅
    obtain ⟨ns, m₆, h₆, h⟩ := ok_of_bind h
    exact ⟨c₅, module, ns, m₆, h₆, .members names (selects_bindSelection h)⟩
  · obtain ⟨module, m₂, h₂, h⟩ := ok_of_bind h
    obtain ⟨renamed, m₃, h₃, h⟩ := ok_of_bind h
    obtain ⟨c₂, rfl⟩ := Steers.lift .moduleName _ _ _ h₂
    obtain ⟨c₃, rfl⟩ := Steers.lift .alias? _ _ _ h₃
    obtain ⟨ns, m₄, h₄, h⟩ := ok_of_bind h
    obtain ⟨-, rfl⟩ := EStateM.Result.ok.inj h
    exact ⟨c₃, module, ns, m₄, h₄, .whole _ rfl⟩

end Eval

end Rewind
