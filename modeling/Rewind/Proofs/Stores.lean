/-
The store of a tree in the scopes of a machine.

The bindings that are local to a body are in the scopes that have been made since the body was entered,
each inside the next, and the last one inside the outermost scope.  A name stands there for the same
scalar, or for a function whose body is read where the tree has it.  Looking up, assigning and
defining names on both sides keeps this, and so does entering and leaving a scope.

* `Scene` — what stays the same while a body runs;
* `Embodies`, `Answers` — a function, and what is found under a name;
* `Mirrors` — the machine is in the state of the store; `Rooted` — its outermost scope is;
* `Reaches` — how far an evaluation may change the machine;
* `Mirrors.lookup`, `Mirrors.assign`, `Mirrors.define` — names;
* `Mirrors.inner`, `Mirrors.popScope` — scopes.
-/
import Rewind.Proofs.Rows
import Rewind.Proofs.Shadowing
import Rewind.Proofs.Statements

namespace Rewind.Tree

open Eval

/-! ### The relation -/

/-- What stays the same while a body runs: the text, the outermost scope, how deep calls may go and how
deep this one is, and the number of scopes there were when the body was entered. -/
structure Scene where
  source : Source
  root : Ref .scope
  limit : Nat
  depth : Nat
  floor : Nat
  low : root.index < floor

/-- The function is that of the tree, whose body begins at `start` of the text. -/
structure Embodies (g : Scene) (d : Definition) (start : Position) (f : Function) : Prop where
  name : f.name = d.name.text
  body : f.body = .script
    { params := d.params.map fun x => ⟨x.text, none⟩, isAsync := false, source := g.source,
      entry := indented start 1, column := 1, scope := g.root }
  column : start.column = 1
  readable : ∃ c e, Cursor.at? g.source (indented start 1) = .ok c ∧ c.Sound ∧
    c.Crosses (spread start (d.body.rows 1)) e ∧ Closes 1 e

/-- The value, if there is one, is what the name stands for in the tree. -/
def Answers (g : Scene) (w : World) : Option Value → Option Binding → Prop
  | none, none => True
  | some v, some (.scalar u) => v = u ∧ v.scalar = true
  | some (.function r), some (.function d start) =>
    ∃ f, w.functions.get? r = some f ∧ Embodies g d start f
  | _, _ => False

/-- The names bound in a scope. -/
def Layer (g : Scene) (w : World) (r : Ref .scope) (F : Naming) : Prop :=
  ∀ x, Answers g w (w.scopes.getLocal? r x) (F x)

/-- The scopes from `r` on, up to the outermost one, hold the local bindings. -/
inductive Layered (g : Scene) (w : World) : Ref .scope → List Naming → Prop
  | root : Layered g w g.root []
  | inner {r outer : Ref .scope} {F : Naming} {Fs : List Naming} (high : g.floor ≤ r.index)
      (made : r.index < w.scopes.size) (parent : w.scopes.parent r = some outer)
      (plain : w.scopes.blueprint? r = none) (names : Layer g w r F) (rest : Layered g w outer Fs) :
      Layered g w r (F :: Fs)

/-- The outermost scope holds the bindings outside of all bodies, no call is in it, and what the
machine has printed is what the tree has. -/
structure Rooted (g : Scene) (σ : Store) (m : Machine) : Prop where
  tree : m.world.scopes.Tree
  globals : m.globals = g.root
  parent : m.world.scopes.parent g.root = none
  plain : m.world.scopes.blueprint? g.root = none
  made : g.root.index < m.world.scopes.size
  names : Layer g m.world g.root σ.globals
  output : m.output = σ.output
  away : 0 < g.depth → m.thread.scope ≠ g.root

/-- The machine, which runs no coroutine, is in the state of the store. -/
structure Mirrors (g : Scene) (σ : Store) (m : Machine) : Prop extends Rooted g σ m where
  layers : Layered g m.world m.thread.scope σ.locals
  floor : g.floor ≤ m.world.scopes.size
  sync : m.thread.mode.inAsync = false
  depth : m.callDepth = g.depth
  limit : m.environment.maxCallDepth = g.limit

/-- From `m` an evaluation has come to `m'`, with the cursor at `c`.  It has printed, bound names in the
outermost scope and in those made since the body was entered, and made scopes and functions. -/
structure Reaches (g : Scene) (m : Machine) (c : Cursor) (m' : Machine) : Prop where
  rest : m' = { m with
    thread := { m.thread with cursor := c }, output := m'.output,
    world := { m.world with scopes := m'.world.scopes, functions := m'.world.functions } }
  size : m.world.scopes.size ≤ m'.world.scopes.size
  scopes : ∀ q, q.index < g.floor → q ≠ g.root → m'.world.scopes.get? q = m.world.scopes.get? q
  parents : ∀ q, q.index < m.world.scopes.size →
    m'.world.scopes.parent q = m.world.scopes.parent q
  functions : ∀ r f, m.world.functions.get? r = some f → m'.world.functions.get? r = some f

variable {g : Scene} {σ σ' : Store} {m m' m₁ m₂ : Machine} {c d : Cursor} {w w' : World}
  {r q : Ref .scope} {x : String} {v : Value} {b : Binding} {F G : Naming} {Fs : List Naming}

namespace Reaches

theorem refl (g : Scene) (m : Machine) (c : Cursor) : Reaches g m c (m.moved c) :=
  ⟨rfl, Nat.le_refl _, fun _ _ _ => rfl, fun _ _ => rfl, fun _ _ h => h⟩

theorem trans (h : Reaches g m c m₁) (h' : Reaches g m₁ d m₂) : Reaches g m d m₂ := by
  refine ⟨?_, Nat.le_trans h.size h'.size, fun q hq hr => ?_, fun q hq => ?_, fun r f hf => ?_⟩
  · rw [h'.rest, h.rest]
  · exact (h'.scopes q hq hr).trans (h.scopes q hq hr)
  · exact (h'.parents q (Nat.lt_of_lt_of_le hq h.size)).trans (h.parents q hq)
  · exact h'.functions r f (h.functions r f hf)

/-- The cursor moves once more. -/
theorem moved (h : Reaches g m c m') (d : Cursor) : Reaches g m d (m'.moved d) :=
  h.trans (.refl g m' d)

section Fields

variable (h : Reaches g m c m')
include h

theorem cursor : m'.thread.cursor = c := by rw [h.rest]
theorem skip : m'.thread.skip = m.thread.skip := by rw [h.rest]
theorem mode : m'.thread.mode = m.thread.mode := by rw [h.rest]
theorem scope : m'.thread.scope = m.thread.scope := by rw [h.rest]
theorem resume : m'.thread.resume = m.thread.resume := by rw [h.rest]
theorem callDepth : m'.callDepth = m.callDepth := by rw [h.rest]
theorem environment : m'.environment = m.environment := by rw [h.rest]

end Fields

end Reaches

/-! ### Other worlds -/

theorem getLocal?_congr {s t : Scopes} (h : t.get? r = s.get? r) (x : String) :
    t.getLocal? r x = s.getLocal? r x := by
  rw [Scopes.getLocal?, Scopes.getLocal?, Arena.get, Arena.get, h]

theorem parent_congr {s t : Scopes} (h : t.get? r = s.get? r) : t.parent r = s.parent r := by
  rw [Scopes.parent, Scopes.parent, Arena.get, Arena.get, h]

theorem plain_congr {s t : Scopes} (h : t.get? r = s.get? r) :
    t.blueprint? r = s.blueprint? r := by
  rw [Scopes.blueprint?, Scopes.blueprint?, Arena.get, Arena.get, h]

/-- The functions of the one world are those of the other one, and maybe more. -/
def Keeps (w w' : World) : Prop := ∀ r f, w.functions.get? r = some f → w'.functions.get? r = some f

theorem Answers.keeps {o : Option Value} {b : Option Binding} (hk : Keeps w w')
    (h : Answers g w o b) : Answers g w' o b := by
  unfold Answers at h ⊢
  split at h
  · trivial
  · exact h
  · obtain ⟨f, hf, he⟩ := h
    exact ⟨f, hk _ f hf, he⟩
  · exact h.elim

/-- What is found is a scalar or a function. -/
theorem Answers.some_iff {o : Option Value} (h : Answers g w o (some b)) :
    ∃ v, o = some v ∧ Answers g w (some v) (some b) := by
  cases o with
  | none => exact h.elim
  | some v => exact ⟨v, rfl, h⟩

theorem Answers.none_iff {o : Option Value} (h : Answers g w o none) : o = none := by
  cases o with
  | none => rfl
  | some v => cases v <;> exact h.elim

theorem Layer.congr (h : Layer g w r F) (hr : w'.scopes.get? r = w.scopes.get? r)
    (hk : Keeps w w') : Layer g w' r F := by
  intro x
  rw [getLocal?_congr hr]
  exact (h x).keeps hk

/-- The local bindings depend on their scopes only. -/
theorem Layered.congr (h : Layered g w r Fs) (ht : w.scopes.Tree)
    (hs : ∀ q, g.floor ≤ q.index → q.index ≤ r.index → w'.scopes.get? q = w.scopes.get? q)
    (hk : Keeps w w') (hz : w.scopes.size ≤ w'.scopes.size) : Layered g w' r Fs := by
  induction h with
  | root => exact .root
  | @inner r outer F Fs high made parent plain names _ ih =>
    have same := hs r high (Nat.le_refl _)
    have older := ht.older r outer parent
    refine .inner high (Nat.lt_of_lt_of_le made hz) ((parent_congr same).trans parent)
      ((plain_congr same).trans plain) (names.congr same hk) (ih fun q hq hle => hs q hq (by omega))

theorem Layered.eq_root (h : Layered g w r []) : r = g.root := by
  cases h
  rfl

theorem Layered.cons_inv (h : Layered g w r (F :: Fs)) : ∃ outer, g.floor ≤ r.index ∧
    r.index < w.scopes.size ∧ w.scopes.parent r = some outer ∧ w.scopes.blueprint? r = none ∧
    Layer g w r F ∧ Layered g w outer Fs := by
  cases h with
  | inner high made parent plain names rest => exact ⟨_, high, made, parent, plain, names, rest⟩

/-- The bindings outside of the innermost scope. -/
theorem Layered.outer {outer : Ref .scope} (h : Layered g w r Fs) (hr : r ≠ g.root)
    (hp : w.scopes.parent r = some outer) : Layered g w outer Fs.tail := by
  cases h with
  | root => exact absurd rfl hr
  | inner _ _ parent _ _ rest =>
    obtain rfl := Option.some.inj (hp.symm.trans parent)
    exact rest

theorem Layered.high_or_root (h : Layered g w r Fs) : r = g.root ∨ g.floor ≤ r.index := by
  cases h with
  | root => exact .inl rfl
  | inner high => exact .inr high

theorem Layered.index_lt (h : Layered g w r Fs) (hr : g.root.index < w.scopes.size) :
    r.index < w.scopes.size := by
  cases h with
  | root => exact hr
  | inner _ made => exact made

/-- A machine that differs in nothing that the store is about. -/
theorem Mirrors.congr (h : Mirrors g σ m) (hw : m'.world = m.world)
    (hs : m'.thread.scope = m.thread.scope) (hm : m'.thread.mode.inAsync = m.thread.mode.inAsync)
    (hg : m'.globals = m.globals) (ho : m'.output = m.output) (hd : m'.callDepth = m.callDepth)
    (he : m'.environment = m.environment) : Mirrors g σ m' where
  tree := hw ▸ h.tree
  globals := hg.trans h.globals
  parent := hw ▸ h.parent
  plain := hw ▸ h.plain
  made := hw ▸ h.made
  names := hw ▸ h.names
  output := ho.trans h.output
  away hg := by
    rw [hs]
    exact h.away hg
  layers := by
    rw [hw, hs]
    exact h.layers
  floor := hw ▸ h.floor
  sync := hm.trans h.sync
  depth := hd.trans h.depth
  limit := (congrArg _ he).trans h.limit

theorem Mirrors.moved (h : Mirrors g σ m) (c : Cursor) : Mirrors g σ (m.moved c) :=
  h.congr rfl rfl rfl rfl rfl rfl rfl

theorem Mirrors.pinned (h : Mirrors g σ m) (ps : List Pin) : Mirrors g σ { m with pinned := ps } :=
  h.congr rfl rfl rfl rfl rfl rfl rfl

/-! ### Looking up a name -/

/-- The nearest binding of a name, from `r` outwards, is the one found in the tree. -/
theorem Layered.resolves (h : Layered g w r Fs) (ht : w.scopes.Tree) (x : String) :
    (∃ o b, Fs.findSome? (· x) = some b ∧ w.scopes.Resolves x r o ∧ w.scopes.blueprint? o = none ∧
      Answers g w (w.scopes.getLocal? o x) (some b)) ∨
    (Fs.findSome? (· x) = none ∧ ∀ o, w.scopes.Resolves x r o ↔ w.scopes.Resolves x g.root o) := by
  induction h with
  | root => exact .inr ⟨rfl, fun _ => Iff.rfl⟩
  | @inner r outer F Fs high made parent plain names _ ih =>
    have here := ht.hasLocal_eq r x
    cases hF : F x with
    | some b =>
      have found := names x
      rw [hF] at found
      obtain ⟨v, hv, -⟩ := found.some_iff
      rw [hv] at here
      exact .inl ⟨r, b, by simp [hF], .here here, plain, found⟩
    | none =>
      have absent := names x
      rw [hF] at absent
      rw [absent.none_iff] at here
      -- the name is not bound in the inner scope, so it is looked for outside
      have further (o : Ref .scope) :
          w.scopes.Resolves x r o ↔ w.scopes.Resolves x outer o := by
        constructor
        · rintro (hl | ⟨-, hp, ho⟩)
          · exact absurd (here.symm.trans hl) (by decide)
          · obtain rfl := Option.some.inj (parent.symm.trans hp)
            exact ho
        · exact .outer here parent
      have skip : (F :: Fs).findSome? (· x) = Fs.findSome? (· x) := by simp [hF]
      rw [skip]
      obtain ⟨o, b, hf, ho, hb, ha⟩ | ⟨hf, ho⟩ := ih
      · exact .inl ⟨o, b, hf, (further o).2 ho, hb, ha⟩
      · exact .inr ⟨hf, fun o => (further o).trans (ho o)⟩

namespace Rooted

/-- At the outermost scope a name is bound there or not at all. -/
theorem resolves_iff (h : Rooted g σ m) (x : String) (o : Ref .scope) :
    m.world.scopes.Resolves x g.root o ↔ o = g.root ∧ (σ.globals x).isSome = true := by
  have here := h.tree.hasLocal_eq g.root x
  have names := h.names x
  constructor
  · rintro (hl | ⟨-, hp, -⟩)
    · refine ⟨rfl, ?_⟩
      cases hG : σ.globals x with
      | some b => rfl
      | none =>
        rw [hG] at names
        rw [names.none_iff] at here
        exact absurd (here.symm.trans hl) (by decide)
    · exact nomatch h.parent.symm.trans hp
  · rintro ⟨rfl, hG⟩
    obtain ⟨b, hG⟩ := Option.isSome_iff_exists.1 hG
    rw [hG] at names
    obtain ⟨v, hv, -⟩ := names.some_iff
    rw [hv] at here
    exact .here here

/-- A global name of the session. -/
theorem global? (h : Rooted g σ m) (x : String) :
    Answers g m.world (m.global? x) (σ.globals x) := by
  rw [Machine.global?, h.globals]
  cases hl : m.world.scopes.getLocal? g.root x with
  | some v =>
    rw [Scopes.lookup_of_getLocal? h.tree hl, ← hl]
    exact h.names x
  | none =>
    rw [Scopes.lookup_of_none h.tree hl, h.parent]
    have := h.names x
    rw [hl] at this
    exact this

end Rooted

namespace Mirrors

/-- Where a name is bound: at the place the tree finds it, or nowhere. -/
theorem resolve (h : Mirrors g σ m) (x : String) :
    (∃ o b, σ.find x = some b ∧ m.world.scopes.resolve m.thread.scope x = some o ∧
      m.world.scopes.blueprint? o = none ∧
      Answers g m.world (m.world.scopes.getLocal? o x) (some b)) ∨
    (σ.find x = none ∧ m.world.scopes.resolve m.thread.scope x = none) := by
  rw [Store.find]
  obtain ⟨o, b, hf, ho, hb, ha⟩ | ⟨hf, ho⟩ := h.layers.resolves h.tree x
  · exact .inl ⟨o, b, by rw [hf], (Scopes.resolve_eq_some_iff h.tree).2 ho, hb, ha⟩
  · rw [hf]
    cases hG : σ.globals x with
    | some b =>
      have root := (ho g.root).2 ((h.resolves_iff x g.root).2 ⟨rfl, by rw [hG]; rfl⟩)
      refine .inl ⟨g.root, b, rfl, (Scopes.resolve_eq_some_iff h.tree).2 root, h.plain, ?_⟩
      rw [← hG]
      exact h.names x
    | none =>
      refine .inr ⟨rfl, Option.eq_none_iff_forall_ne_some.2 fun o hr => ?_⟩
      have := ((h.resolves_iff x o).1 ((ho o).1 ((Scopes.resolve_eq_some_iff h.tree).1 hr))).2
      rw [hG] at this
      contradiction

/-- To look a name up changes nothing. -/
theorem resolve_run (h : Mirrors g σ m) (x : String) :
    (Eval.resolve x : Eval _) m = .ok (m.world.scopes.resolve m.thread.scope x) m := by
  rw [Rewind.resolve_run]
  obtain ⟨o, b, -, hr, hb, -⟩ | ⟨-, hr⟩ := h.resolve x
  · rw [hr]
    dsimp only
    rw [hb]
  · rw [hr]

theorem lookup (h : Mirrors g σ m) (x : String) :
    ∃ found, (Eval.lookup x : Eval _) m = .ok found m ∧ Answers g m.world found (σ.find x) := by
  obtain ⟨o, b, hf, hr, hb, ha⟩ | ⟨hf, hr⟩ := h.resolve x
  · exact ⟨_, lookup_of_resolve hr hb, hf ▸ ha⟩
  · refine ⟨none, ?_, hf ▸ trivial⟩
    have run := h.resolve_run x
    rw [hr] at run
    exact bind_of_ok run

end Mirrors

/-! ### Binding a name -/

/-- The world with a name bound in a scope. -/
def bind (w : World) (r : Ref .scope) (x : String) (v : Value) : World :=
  w.onScopes (·.define r x v)

theorem get?_bind (h : q ≠ r) : (bind w r x v).scopes.get? q = w.scopes.get? q :=
  (Arena.get?_modify _ _ _ _).trans (if_neg h)

theorem keeps_bind (w : World) (r : Ref .scope) (x : String) (v : Value) : Keeps w (bind w r x v) :=
  fun _ _ h => h

theorem size_bind (w : World) (r : Ref .scope) (x : String) (v : Value) :
    (bind w r x v).scopes.size = w.scopes.size := Arena.size_modify _ _ _

theorem parent_bind (hr : r.index < w.scopes.size) (q : Ref .scope) :
    (bind w r x v).scopes.parent q = w.scopes.parent q := Scopes.parent_define hr q

theorem plain_bind (hr : r.index < w.scopes.size) (q : Ref .scope) :
    (bind w r x v).scopes.blueprint? q = w.scopes.blueprint? q := by
  by_cases hq : q = r
  · subst hq
    show ((w.scopes.define q x v).get q).blueprint = _
    rw [Scopes.get_define hr]
    rfl
  · exact plain_congr (get?_bind hq)

/-- The names of the scope that is written, and of any other one. -/
theorem Layer.bind (h : Layer g w q F) (ht : w.scopes.Tree) (hr : r.index < w.scopes.size)
    (hv : Answers g w (some v) (some b)) :
    Layer g (bind w r x v) q (if q = r then F.set x b else F) := by
  intro y
  show Answers g _ ((w.scopes.define r x v).getLocal? q y) _
  rw [Scopes.getLocal?_define hr ht]
  by_cases hq : q = r
  · rw [if_pos hq, Naming.set]
    by_cases hy : y = x
    · rw [if_pos ⟨hq, hy⟩, if_pos hy]
      exact hv.keeps (keeps_bind w r x v)
    · rw [if_neg fun h => hy h.2, if_neg hy]
      exact (h y).keeps (keeps_bind w r x v)
  · rw [if_neg fun h => hq h.1, if_neg hq]
    exact (h y).keeps (keeps_bind w r x v)

/-- Bindings outside of the scope that is written. -/
theorem Layered.bind (h : Layered g w q Fs) (ht : w.scopes.Tree)
    (hr : r = g.root ∨ q.index < r.index) (hl : g.root.index < g.floor) :
    Layered g (bind w r x v) q Fs := by
  refine h.congr ht (fun s hs hle => get?_bind ?_) (keeps_bind w r x v)
    (Nat.le_of_eq (size_bind w r x v).symm)
  rintro rfl
  obtain rfl | hr := hr <;> omega

/-- The nearest local binding of a name is changed where the tree changes it. -/
theorem Layered.rebind (h : Layered g w r Fs) (ht : w.scopes.Tree)
    (hv : Answers g w (some v) (some b)) :
    (∃ Gs o, Tree.rebind x b Fs = some Gs ∧ w.scopes.Resolves x r o ∧ g.floor ≤ o.index ∧
      o.index < w.scopes.size ∧ Layered g (Tree.bind w o x v) r Gs) ∨
    (Tree.rebind x b Fs = none ∧ Fs.findSome? (· x) = none) := by
  induction h with
  | root => exact .inr ⟨rfl, rfl⟩
  | @inner r outer F Fs high made parent plain names rest ih =>
    have here := ht.hasLocal_eq r x
    have older := ht.older r outer parent
    cases hF : F x with
    | some a =>
      -- the nearest binding is here
      have found := names x
      rw [hF] at found
      obtain ⟨u, hu, -⟩ := found.some_iff
      rw [hu] at here
      have written := names.bind (x := x) ht made hv
      rw [if_pos rfl] at written
      refine .inl ⟨F.set x b :: Fs, r, by simp [Tree.rebind, hF], .here here, high, made, ?_⟩
      exact .inner high (by rwa [size_bind]) ((parent_bind made r).trans parent)
        ((plain_bind made r).trans plain) written (rest.bind ht (.inr older) g.low)
    | none =>
      have absent := names x
      rw [hF] at absent
      rw [absent.none_iff] at here
      -- it is further out, and the bindings here stay
      have skip : (F :: Fs).findSome? (· x) = Fs.findSome? (· x) := by simp [hF]
      obtain ⟨Gs, o, hb, ho, hfloor, hsize, hl⟩ | ⟨hb, hf⟩ := ih
      · have apart : r ≠ o := by
          rintro rfl
          exact absurd (here.symm.trans ho.hasLocal) (by decide)
        have kept := names.bind (x := x) ht hsize hv
        rw [if_neg apart] at kept
        refine .inl ⟨F :: Gs, o, by simp [Tree.rebind, hF, hb], .outer here parent ho, hfloor, hsize,
          ?_⟩
        exact .inner high (by rwa [size_bind]) ((parent_bind hsize r).trans parent)
          ((plain_bind hsize r).trans plain) kept hl
      · exact .inr ⟨by simp [Tree.rebind, hF, hb], skip.trans hf⟩

/-- The machine with a name bound in a scope. -/
def named (m : Machine) (r : Ref .scope) (x : String) (v : Value) : Machine :=
  { m with world := bind m.world r x v }

theorem reaches_named (hr : r = g.root ∨ g.floor ≤ r.index) (hs : r.index < m.world.scopes.size) :
    Reaches g m m.thread.cursor (named m r x v) := by
  refine ⟨rfl, Nat.le_of_eq (size_bind m.world r x v).symm, fun q hq hroot => get?_bind ?_,
    fun q _ => parent_bind hs q, fun _ _ h => h⟩
  rintro rfl
  obtain rfl | hr := hr
  · exact hroot rfl
  · omega

namespace Mirrors

variable (h : Mirrors g σ m) (hv : Answers g m.world (some v) (some b))
include h hv

/-- A name is bound in the outermost scope. -/
theorem bind_root (x : String) :
    Mirrors g { σ with globals := σ.globals.set x b } (named m g.root x v) := by
  have names := h.names.bind (x := x) h.tree h.made hv
  rw [if_pos rfl] at names
  exact
    { tree := h.tree.define g.root x v
      globals := h.globals
      parent := (parent_bind h.made g.root).trans h.parent
      plain := (plain_bind h.made g.root).trans h.plain
      made := by
        show _ < (bind m.world g.root x v).scopes.size
        rw [size_bind]
        exact h.made
      names
      output := h.output
      away := h.away
      layers := h.layers.bind h.tree (.inl rfl) g.low
      floor := by
        show _ ≤ (bind m.world g.root x v).scopes.size
        rw [size_bind]
        exact h.floor
      sync := h.sync
      depth := h.depth
      limit := h.limit }

/-- A name is bound in another scope, with this effect on the local bindings. -/
theorem bind_local {x : String} (hfloor : g.floor ≤ r.index) (hsize : r.index < m.world.scopes.size)
    (hl : Layered g (bind m.world r x v) m.thread.scope Fs) :
    Mirrors g { σ with locals := Fs } (named m r x v) := by
  -- a local scope was made after the outermost one
  have apart : g.root ≠ r := by
    rintro rfl
    exact absurd g.low (by omega)
  have names := h.names.bind (x := x) h.tree hsize hv
  rw [if_neg apart] at names
  exact
    { tree := h.tree.define r x v
      globals := h.globals
      parent := (parent_bind hsize g.root).trans h.parent
      plain := (plain_bind hsize g.root).trans h.plain
      made := by
        show _ < (bind m.world r x v).scopes.size
        rw [size_bind]
        exact h.made
      names
      output := h.output
      away := h.away
      layers := hl
      floor := by
        show _ ≤ (bind m.world r x v).scopes.size
        rw [size_bind]
        exact h.floor
      sync := h.sync
      depth := h.depth
      limit := h.limit }

/-- Binding a name in the innermost scope. -/
theorem define (x : String) :
    ∃ m', (Eval.define x v : Eval _) m = .ok () m' ∧ Mirrors g (σ.define x b) m' ∧
      Reaches g m m.thread.cursor m' := by
  refine ⟨named m m.thread.scope x v, rfl, ?_,
    reaches_named h.layers.high_or_root (h.layers.index_lt h.made)⟩
  have layers := h.layers
  cases hF : σ.locals with
  | nil =>
    rw [hF] at layers
    rw [layers.eq_root, show σ.define x b = { σ with globals := σ.globals.set x b } by
      rw [Store.define, hF]]
    exact h.bind_root hv x
  | cons F Fs =>
    rw [hF] at layers
    rw [show σ.define x b = { σ with locals := F.set x b :: Fs } by rw [Store.define, hF]]
    obtain ⟨outer, high, made, parent, plain, names, rest⟩ := layers.cons_inv
    have older := h.tree.older _ _ parent
    have written := names.bind (x := x) h.tree made hv
    rw [if_pos rfl] at written
    refine h.bind_local hv high made ?_
    exact .inner high (by rwa [size_bind]) ((parent_bind made _).trans parent)
      ((plain_bind made _).trans plain) written (rest.bind h.tree (.inr older) g.low)

/-- Changing the nearest binding of a name. -/
theorem assign (x : String) :
    ∃ m', (Eval.assign x v : Eval _) m = .ok () m' ∧ Mirrors g (σ.assign x b) m' ∧
      Reaches g m m.thread.cursor m' := by
  have run : (Eval.assign x v : Eval _) m =
      .ok () (named m ((m.world.scopes.resolve m.thread.scope x).getD m.thread.scope) x v) := by
    have held : (holding [v] (Eval.resolve x) : Eval _) m =
        .ok (m.world.scopes.resolve m.thread.scope x) m := by
      have := (h.pinned (.values [v] :: m.pinned)).resolve_run x
      simp only [holding, pinning, this]
    exact bind_of_ok held
  have rebound := h.layers.rebind (x := x) h.tree hv
  unfold Store.assign
  obtain ⟨Gs, o, hb, ho, hfloor, hsize, hl⟩ | ⟨hb, hf⟩ := rebound
  · -- a local binding changes
    rw [(Scopes.resolve_eq_some_iff h.tree).2 ho] at run
    rw [hb]
    exact ⟨_, run, h.bind_local hv hfloor hsize hl, reaches_named (.inr hfloor) hsize⟩
  · rw [hb]
    have place := h.resolve x
    rw [Store.find, hf] at place
    obtain ⟨o, a, hfind, hr, -, -⟩ | ⟨hfind, hr⟩ := place
    · -- the binding outside of all bodies changes
      have root : o = g.root := by
        obtain ⟨_, _, hf', -⟩ | ⟨-, ho⟩ := h.layers.resolves h.tree x
        · cases hf.symm.trans hf'
        · exact ((h.resolves_iff x o).1 ((ho o).1 ((Scopes.resolve_eq_some_iff h.tree).1 hr))).1
      subst root
      rw [hr] at run
      have hfind : σ.globals x = some a := hfind
      rw [hfind]
      exact ⟨_, run, h.bind_root hv x, reaches_named (.inl rfl) h.made⟩
    · -- there is none, and the name is defined where it is assigned
      rw [hr] at run
      have hfind : σ.globals x = none := hfind
      rw [hfind]
      obtain ⟨m', hm, hmirrors, hreaches⟩ := h.define hv x
      obtain rfl := (EStateM.Result.ok.inj (hm.symm.trans rfl)).2
      exact ⟨_, run, hmirrors, hreaches⟩

end Mirrors

/-! ### Printing, and new functions -/

/-- The machine after it has printed a text. -/
def printed (m : Machine) (text : String) : Machine := { m with output := m.output ++ text }

theorem Mirrors.printed (h : Mirrors g σ m) (text : String) :
    Mirrors g { σ with output := σ.output ++ text } (Tree.printed m text) :=
  { h with output := congrArg (· ++ text) h.output }

theorem reaches_printed (g : Scene) (m : Machine) (text : String) :
    Reaches g m m.thread.cursor (printed m text) :=
  ⟨rfl, Nat.le_refl _, fun _ _ _ => rfl, fun _ _ => rfl, fun _ _ h => h⟩

/-- The machine with one function more. -/
def enlarged (m : Machine) (f : Function) : Machine :=
  { m with world := { m.world with functions := m.world.functions.push f } }

theorem keeps_enlarged (m : Machine) (f : Function) :
    Keeps m.world (enlarged m f).world := fun r f' hf => by
  have hr : r.index < m.world.functions.size := by
    by_contra hr
    exact nomatch hf.symm.trans (Array.getElem?_eq_none (Nat.le_of_not_lt hr))
  exact (Arena.get?_push_of_lt _ f hr).trans hf

theorem Mirrors.enlarged (h : Mirrors g σ m) (f : Function) : Mirrors g σ (Tree.enlarged m f) :=
  { h with
    names := h.names.congr rfl (keeps_enlarged m f)
    layers := h.layers.congr h.tree (fun _ _ _ => rfl) (keeps_enlarged m f) (Nat.le_refl _) }

theorem reaches_enlarged (g : Scene) (m : Machine) (f : Function) :
    Reaches g m m.thread.cursor (enlarged m f) :=
  ⟨rfl, Nat.le_refl _, fun _ _ _ => rfl, fun _ _ => rfl, keeps_enlarged m f⟩

/-! ### Entering and leaving a scope -/

/-- The scopes with a new one inside `outer`. -/
def nest (w : World) (outer : Ref .scope) : World :=
  { w with scopes := w.scopes.push { parent := some outer } }

theorem get?_nest {outer : Ref .scope} (h : q.index < w.scopes.size) :
    (nest w outer).scopes.get? q = w.scopes.get? q := Arena.get?_push_of_lt _ _ h

theorem get_nest (w : World) (outer : Ref .scope) :
    (nest w outer).scopes.get w.scopes.next = { parent := some outer } := by
  rw [nest, Arena.get, Arena.get?_push_next]
  rfl

theorem tree_nest {outer : Ref .scope} (h : w.scopes.Tree) (ho : outer.index < w.scopes.size) :
    (nest w outer).scopes.Tree :=
  h.push Dict.indexed_empty fun _ hp => Option.some.inj hp ▸ ho

/-- Nothing is bound in the new scope. -/
theorem layer_nest (g : Scene) (w : World) (outer : Ref .scope) :
    Layer g (nest w outer) w.scopes.next .empty := by
  intro x
  rw [Scopes.getLocal?, get_nest]
  have none : ({} : Dict Value).get? x = none := by simp [Dict.get?]
  rw [show ({ parent := some outer } : Scope).vars.get? x = Option.none from none]
  trivial

/-- The local bindings inside the new scope. -/
theorem Layered.nest {outer : Ref .scope} (h : Layered g w outer Fs) (ht : w.scopes.Tree)
    (ho : outer.index < w.scopes.size) (hz : g.floor ≤ w.scopes.size) :
    Layered g (Tree.nest w outer) w.scopes.next (.empty :: Fs) := by
  have size : (Tree.nest w outer).scopes.size = w.scopes.size + 1 := Arena.size_push _ _
  have new : (w.scopes.next).index = w.scopes.size := rfl
  have parent : (Tree.nest w outer).scopes.parent w.scopes.next = some outer := by
    rw [Scopes.parent, get_nest]
  refine .inner (by omega) (by omega) parent ?_ (layer_nest g w outer) ?_
  · rw [Scopes.blueprint?, get_nest]
  · exact h.congr ht (fun q _ hq => get?_nest (by omega)) (fun _ _ h => h) (by omega)

/-- The machine in a new scope. -/
def inner (m : Machine) : Machine :=
  { m with
    world := nest m.world m.thread.scope, thread := { m.thread with scope := m.world.scopes.next } }

theorem pushScope_run {ε : Type} (m : Machine) :
    (pushScope : EStateM ε Machine Unit) m = .ok () (inner m) := rfl

/-- What is around a body that is entered stays in the outermost scope. -/
theorem Rooted.nest (h : Rooted g σ m) {outer : Ref .scope} (ho : outer.index < m.world.scopes.size)
    (hw : m'.world = Tree.nest m.world outer) (hg : m'.globals = m.globals)
    (hout : m'.output = m.output) (away : m'.thread.scope ≠ g.root) : Rooted g σ m' := by
  have size : (Tree.nest m.world outer).scopes.size = m.world.scopes.size + 1 := Arena.size_push _ _
  have root : (Tree.nest m.world outer).scopes.get? g.root = m.world.scopes.get? g.root :=
    get?_nest h.made
  constructor
  · rw [hw]
    exact tree_nest h.tree ho
  · exact hg.trans h.globals
  · rw [hw]
    exact (parent_congr root).trans h.parent
  · rw [hw]
    exact (plain_congr root).trans h.plain
  · rw [hw, size]
    exact Nat.lt_succ_of_lt h.made
  · rw [hw]
    exact h.names.congr root fun _ _ h => h
  · exact hout.trans h.output
  · exact fun _ => away

theorem Mirrors.inner (h : Mirrors g σ m) :
    Mirrors g { σ with locals := .empty :: σ.locals } (Tree.inner m) := by
  have ho := h.layers.index_lt h.made
  have size : (Tree.nest m.world m.thread.scope).scopes.size = m.world.scopes.size + 1 :=
    Arena.size_push _ _
  have away : m.world.scopes.next ≠ g.root := fun he => by
    have made := h.made
    rw [← he] at made
    exact Nat.lt_irrefl _ made
  have rooted : Rooted g σ (Tree.inner m) := h.nest ho rfl rfl rfl away
  exact
    { rooted with
      layers := h.layers.nest h.tree ho h.floor
      floor := Nat.le_trans h.floor (by show _ ≤ (Tree.nest m.world m.thread.scope).scopes.size; omega)
      sync := h.sync
      depth := h.depth
      limit := h.limit }

/-- The world with the bindings of a scope dropped. -/
def clear (w : World) (r : Ref .scope) : World := w.onScopes (·.clear r)

theorem get?_clear (h : q ≠ r) : (clear w r).scopes.get? q = w.scopes.get? q :=
  (Arena.get?_modify _ _ _ _).trans (if_neg h)

theorem parent_clear (w : World) (r q : Ref .scope) :
    (clear w r).scopes.parent q = w.scopes.parent q := by
  by_cases hq : q = r
  · subst hq
    show ((w.scopes.modify q _).get q).parent = (w.scopes.get q).parent
    by_cases hs : q.index < w.scopes.size
    · rw [Arena.get_modify _ hs]
    · have absent : w.scopes.get? q = none := Array.getElem?_eq_none (Nat.le_of_not_lt hs)
      rw [Arena.get, Arena.get?_modify, if_pos rfl, absent, Arena.get, absent]
      rfl
  · exact parent_congr (get?_clear hq)

theorem size_clear (w : World) (r : Ref .scope) : (clear w r).scopes.size = w.scopes.size :=
  Arena.size_modify _ _ _

/-- To drop the bindings of a scope of a body changes nothing outside of it. -/
theorem Rooted.clear (h : Rooted g σ m) (hr : r ≠ g.root) (hw : m'.world = Tree.clear m.world r)
    (hg : m'.globals = m.globals) (hout : m'.output = m.output)
    (away : 0 < g.depth → m'.thread.scope ≠ g.root) : Rooted g σ m' := by
  have root : (Tree.clear m.world r).scopes.get? g.root = m.world.scopes.get? g.root :=
    get?_clear hr.symm
  constructor
  · rw [hw]
    exact h.tree.modify r fun _ _ => Dict.indexed_empty
  · exact hg.trans h.globals
  · rw [hw]
    exact (parent_congr root).trans h.parent
  · rw [hw]
    exact (plain_congr root).trans h.plain
  · rw [hw, size_clear]
    exact h.made
  · rw [hw]
    exact h.names.congr root fun _ _ h => h
  · exact hout.trans h.output
  · exact away

/-- The scope made for a part of a body is left again. -/
theorem Mirrors.popScope {σ₂ : Store} (h : Mirrors g σ m) (h₂ : Mirrors g σ₂ m₂)
    (hr : Reaches g (Tree.inner m) c m₂) :
    ∃ m₃, (Eval.popScope : Eval Unit) m₂ = .ok () m₃ ∧
      Mirrors g { σ₂ with locals := σ₂.locals.tail } m₃ ∧ Reaches g m c m₃ := by
  have size : (Tree.inner m).world.scopes.size = m.world.scopes.size + 1 := Arena.size_push _ _
  have scope : m₂.thread.scope = m.world.scopes.next := hr.scope
  have new : (m.world.scopes.next).index = m.world.scopes.size := rfl
  have floor := h.floor
  -- the scope that is left was opened by the block, and is not the outermost one
  have apart : m.world.scopes.next ≠ g.root := by
    intro he
    have := g.low
    rw [← he] at this
    omega
  have parent : m₂.world.scopes.parent m.world.scopes.next = some m.thread.scope := by
    rw [hr.parents _ (by omega)]
    show (Tree.nest m.world m.thread.scope).scopes.parent _ = _
    rw [Scopes.parent, get_nest]
  have run : (Eval.popScope : Eval Unit) m₂ = .ok () { m₂ with
      thread := { m₂.thread with scope := m.thread.scope },
      world := Tree.clear m₂.world m.world.scopes.next } := by
    rw [popScope_run, scope, parent]
    rfl
  have layers := h₂.layers
  rw [scope] at layers
  have ho := h.layers.index_lt h.made
  refine ⟨_, run, ?_, ?_⟩
  · have rooted : Rooted g σ₂ { m₂ with
        thread := { m₂.thread with scope := m.thread.scope },
        world := Tree.clear m₂.world m.world.scopes.next } := h₂.toRooted.clear apart rfl rfl rfl h.away
    refine { rooted with layers := ?_, floor := ?_, sync := h₂.sync, depth := h₂.depth,
                         limit := h₂.limit }
    · refine (layers.outer apart parent).congr h₂.tree (fun q _ hq => get?_clear ?_)
        (fun _ _ h => h) (Nat.le_of_eq (size_clear _ _).symm)
      rintro rfl
      omega
    · show g.floor ≤ (Tree.clear m₂.world m.world.scopes.next).scopes.size
      rw [size_clear]
      exact h₂.floor
  · refine ⟨?_, ?_, fun q hq hroot => ?_, fun q hq => ?_, fun r f hf => hr.functions r f hf⟩
    · rw [hr.rest]
      rfl
    · show _ ≤ (Tree.clear m₂.world m.world.scopes.next).scopes.size
      rw [size_clear]
      have := hr.size
      omega
    · refine (get?_clear ?_).trans ((hr.scopes q hq hroot).trans (get?_nest (by omega)))
      rintro rfl
      omega
    · refine (parent_clear _ _ q).trans ((hr.parents q (by omega)).trans ?_)
      exact parent_congr (get?_nest hq)

end Rewind.Tree
