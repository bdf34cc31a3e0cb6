/-
Calls are carried out as in the tree.

A call binds its arguments in a new scope inside the outermost one and runs the body of the function in
place of the caller.  All scopes that the caller can see, but for the outermost one, are as they were
when it goes on, and so are its place, its mode and its depth.

* `bindArguments_positional` — arguments find their parameters, or are too many or too few;
* `Scene.callee`, `Mirrors.enter` — the scene of a call, and the machine that enters it;
* `Mirrors.returns`, `Rooted.returns` — the machine that is back in the scene of its caller;
* `honours_invoke` — every call of a function of the tree, by induction on the fuel of the tree.
-/
import Rewind.Proofs.Simulation

namespace Rewind.Tree

open Eval

variable {g : Scene} {S : Setting} {σ σ' : Store} {m m' m₁ m₂ : Machine} {b c d e : Cursor}
  {p q : Position} {k : Nat} {o : Except Halt (Option Signal)} {w : World} {r : Ref .scope}
  {vs : List Value} {site : Token}

/-! ### Arguments -/

/-- The parameters of a function, which have no defaults. -/
def parameters (xs : List Identifier) : List Param := xs.map fun x => ⟨x.text, none⟩

theorem names_parameters (xs : List Identifier) :
    (parameters xs).map (·.name) = xs.map Identifier.text := by
  simp [parameters, Function.comp_def]

/-- Where no parameter has a default, the first one without an argument is missing. -/
theorem bindDefaults_plain (function : String) (site : Token) {params : List Param}
    {bound : List (String × Value)} (h : Bindings r w bound) (hp : ∀ p ∈ params, p.default = none) :
    bindDefaults function r site params w = match unbound bound params with
      | [] => .ok () w
      | p :: _ => .error (.missingArgument p.name function, site) w := by
  induction params with
  | nil => rfl
  | cons p params ih =>
    obtain ⟨hp, hrest⟩ := List.forall_mem_cons.1 hp
    rw [bindDefaults_cons function site p params h]
    by_cases hb : p.name ∈ bound.map (·.1)
    · rw [if_pos hb, unbound_cons_of_mem params hb, ih hrest]
    · rw [if_neg hb, unbound_cons_of_not_mem params hb, hp]

/-- Arguments by position find their parameters one after the other. -/
theorem bindArguments_positional (function : String) (site : Token) {xs : List Identifier}
    (distinct : (xs.map Identifier.text).Nodup) (hw : Bindings r w []) (vs : List Value) :
    let w₁ := w.defineAll r ((xs.map Identifier.text).zip vs)
    (xs.length < vs.length → bindArguments function (parameters xs) r none { positional := vs } site w =
      .error (.tooManyArguments function xs.length vs.length, site) w) ∧
    (vs.length ≤ xs.length → Bindings r w₁ ((xs.map Identifier.text).zip vs) ∧ Fills r w w₁ ∧
      w₁.heap = w.heap ∧ bindArguments function (parameters xs) r none { positional := vs } site w =
        match xs.drop vs.length with
        | [] => .ok () w₁
        | x :: _ => .error (.missingArgument x.text function, site) w₁) := by
  intro w₁
  have names := names_parameters xs
  have length : (parameters xs).length = xs.length := by simp [parameters]
  have fillable : Fillable (parameters xs) none := ⟨names ▸ distinct, nofun⟩
  obtain ⟨-, hfill, hheap, hbound⟩ := fillable.bindings_placed { positional := vs } hw
  have run : bindArguments function (parameters xs) r none { positional := vs } site w =
      if (parameters xs).length < vs.length then
        .error (.tooManyArguments function (parameters xs).length vs.length, site) w
      else bindDefaults function r site (parameters xs)
        (w.defineAll r (((parameters xs).map (·.name)).zip vs)) := bindArguments_run function site _
  rw [length, names] at run
  have placed : CallArgs.placed { positional := vs } (parameters xs) none =
      (xs.map Identifier.text).zip vs := by
    rw [CallArgs.placed, names]
    rfl
  rw [placed] at hbound
  simp only [names] at hbound hfill hheap
  change Bindings r w₁ _ at hbound
  refine ⟨fun hl => by rw [run, if_pos hl], fun hl => ⟨hbound, hfill, hheap, ?_⟩⟩
  -- the parameters have no defaults, so the first one that is left over is missed
  have plain : ∀ p ∈ parameters xs, p.default = none := by simp [parameters]
  have left := fillable.unbound_given { positional := vs }
  rw [CallArgs.given, placed, List.map_nil, List.append_nil] at left
  have missing : CallArgs.missing { positional := vs } (parameters xs) =
      parameters (xs.drop vs.length) := by
    simp [CallArgs.missing, parameters]
  rw [run, if_neg (Nat.not_lt.2 hl), bindDefaults_plain function site hbound plain, left, missing]
  cases xs.drop vs.length <;> rfl

/-- What stands for a parameter is its argument. -/
theorem bound_eq_some {xs : List Identifier} (distinct : (xs.map Identifier.text).Nodup)
    (vs : List Value) (x : String) (b : Binding) :
    bound xs vs x = some b ↔ ∃ v, b = .scalar v ∧ (x, v) ∈ (xs.map Identifier.text).zip vs := by
  induction xs generalizing vs with
  | nil => simp [bound, Naming.empty]
  | cons y xs ih =>
    obtain ⟨hy, distinct⟩ := List.nodup_cons.1 distinct
    cases vs with
    | nil => simp [bound, Naming.empty]
    | cons v vs =>
      simp only [bound, Naming.set, List.map_cons, List.zip_cons_cons, List.mem_cons, Prod.mk.injEq]
      by_cases hx : x = y.text
      · rw [if_pos hx]
        subst hx
        constructor
        · intro hb
          exact ⟨v, (Option.some.inj hb).symm, .inl ⟨rfl, rfl⟩⟩
        · rintro ⟨u, rfl, ⟨-, rfl⟩ | hu⟩
          · rfl
          · exact absurd (List.of_mem_zip hu).1 hy
      · rw [if_neg hx, ih distinct]
        simp [hx]

/-! ### The scene of a call -/

/-- The scene of a call that is made where there are `size` scopes. -/
def Scene.callee (g : Scene) (size : Nat) (low : g.root.index < size) : Scene :=
  { g with depth := g.depth + 1, floor := size, low }

section Scene

variable {g' : Scene} {v : Option Value} {b : Option Binding} {F : Naming}

/-- A function is one of the text and of the outermost scope. -/
theorem Embodies.scene {d : Definition} {start : Position} {f : Function} (h : Embodies g d start f)
    (hs : g'.source = g.source) (hr : g'.root = g.root) : Embodies g' d start f := by
  refine ⟨h.name, ?_, h.column, ?_⟩
  · rw [hs, hr]
    exact h.body
  · rw [hs]
    exact h.readable

theorem Answers.scene (h : Answers g w v b) (hs : g'.source = g.source) (hr : g'.root = g.root) :
    Answers g' w v b := by
  unfold Answers at h ⊢
  split at h
  · trivial
  · exact h
  · obtain ⟨f, hf, he⟩ := h
    exact ⟨f, hf, he.scene hs hr⟩
  · exact h.elim

theorem Layer.scene (h : Layer g w r F) (hs : g'.source = g.source) (hr : g'.root = g.root) :
    Layer g' w r F := fun x => (h x).scene hs hr

/-- The outermost scope is the same in all scenes of a session. -/
theorem Rooted.scene (h : Rooted g σ m) (hs : g'.source = g.source) (hr : g'.root = g.root)
    (away : 0 < g'.depth → m.thread.scope ≠ g'.root) : Rooted g' σ m where
  tree := h.tree
  globals := h.globals.trans hr.symm
  parent := hr ▸ h.parent
  plain := hr ▸ h.plain
  made := hr ▸ h.made
  names := by
    rw [hr]
    exact h.names.scene hs hr
  output := h.output
  away := away

end Scene

/-! ### There and back -/

theorem tree_defineAll (h : w.scopes.Tree) (r : Ref .scope) (new : List (String × Value)) :
    (w.defineAll r new).scopes.Tree := by
  induction new generalizing w with
  | nil => exact h
  | cons e new ih => exact ih (w := Tree.bind w r e.1 e.2) (h.define r e.1 e.2)

/-- The arguments of a call, in the scope that is made for them. -/
structure Receives (m : Machine) (root : Ref .scope) (xs : List Identifier) (vs : List Value)
    (w : World) : Prop where
  eq : w = (nest m.world root).defineAll m.world.scopes.next ((xs.map Identifier.text).zip vs)
  bindings : Bindings m.world.scopes.next w ((xs.map Identifier.text).zip vs)
  fills : Fills m.world.scopes.next (nest m.world root) w

/-- The machine in which a function is run from `c` on, in the scope made for its arguments. -/
def entered (m : Machine) (ps : List Pin) (w : World) (c : Cursor) : Machine :=
  calleeMachine { m with pinned := ps, world := w } c m.world.scopes.next (.functionBody none)

section Frame

variable {xs : List Identifier} {ps : List Pin}

theorem Receives.size (h : Receives m g.root xs vs w) :
    w.scopes.size = m.world.scopes.size + 1 :=
  h.fills.size.trans (Arena.size_push _ _)

/-- The scopes of the caller are as they were. -/
theorem Receives.get? (h : Receives m g.root xs vs w) (hq : r.index < m.world.scopes.size) :
    w.scopes.get? r = m.world.scopes.get? r := by
  refine (h.fills.others r ?_).trans (get?_nest hq)
  rintro rfl
  exact Nat.lt_irrefl _ hq

theorem Receives.functions (h : Receives m g.root xs vs w) : w.functions = m.world.functions := by
  rw [h.fills.rest]
  rfl

/-- A function is entered with its parameters bound to the arguments. -/
theorem Mirrors.enter (ps : List Pin) (hm : Mirrors g σ m) (h : Receives m g.root xs vs w)
    (distinct : (xs.map Identifier.text).Nodup) (hvs : ∀ v ∈ vs, v.scalar = true) :
    Mirrors (g.callee m.world.scopes.size hm.made) { σ with locals := [bound xs vs] }
      (entered m ps w c) := by
  have new : (m.world.scopes.next).index = m.world.scopes.size := rfl
  have root := h.get? hm.made
  have keeps : Keeps m.world w := fun r f hf => by rwa [h.functions]
  -- the callee's scope is new, so it is not the outermost one
  have away : m.world.scopes.next ≠ g.root := fun he => by
    have made := hm.made
    rw [← he] at made
    exact Nat.lt_irrefl _ made
  have names : Layer g w m.world.scopes.next (bound xs vs) := fun x => by
    cases hl : w.scopes.getLocal? m.world.scopes.next x with
    | some v =>
      have mem := h.bindings.getLocal?_eq_some.1 hl
      rw [(bound_eq_some distinct vs x (.scalar v)).2 ⟨v, rfl, mem⟩]
      exact ⟨rfl, hvs v (List.of_mem_zip mem).2⟩
    | none =>
      cases hb : bound xs vs x with
      | none => trivial
      | some b =>
        obtain ⟨v, -, mem⟩ := (bound_eq_some distinct vs x b).1 hb
        exact nomatch hl.symm.trans (h.bindings.getLocal?_eq_some.2 mem)
  exact
    { tree := by
        show w.scopes.Tree
        rw [h.eq]
        exact tree_defineAll (tree_nest hm.tree hm.made) _ _
      globals := hm.globals
      parent := (parent_congr root).trans hm.parent
      plain := (plain_congr root).trans hm.plain
      made := by
        show _ < w.scopes.size
        rw [h.size]
        exact Nat.lt_succ_of_lt hm.made
      names := (hm.names.congr root keeps).scene rfl rfl
      output := hm.output
      away := fun _ => away
      layers := by
        have parent : w.scopes.parent m.world.scopes.next = some g.root := by
          rw [Scopes.parent, h.fills.place, get_nest]
        refine .inner (Nat.le_refl _) ?_ parent ?_ (names.scene rfl rfl) .root
        · show _ < w.scopes.size
          rw [h.size]
          exact Nat.lt_succ_self _
        · show w.scopes.blueprint? m.world.scopes.next = _
          rw [Scopes.blueprint?, h.fills.place, get_nest]
      floor := by
        show _ ≤ w.scopes.size
        rw [h.size]
        exact Nat.le_succ _
      sync := rfl
      depth := congrArg (· + 1) hm.depth
      limit := hm.limit }

/-- What a call has left behind, where it is over: its scope is dropped. -/
theorem Rooted.returns {low : g.root.index < m.world.scopes.size} (hm : Mirrors g σ m)
    (h : Rooted (g.callee m.world.scopes.size low) σ' m₂) :
    Rooted g { σ' with locals := σ.locals } (callerMachine m m₂) := by
  have inside : m₂.thread.scope ≠ g.root := h.away (Nat.succ_pos _)
  have same : Rooted g σ' m₂ := h.scene rfl rfl fun _ => inside
  have cleared : Rooted g σ' (callerMachine m m₂) := same.clear inside rfl rfl rfl hm.away
  exact { cleared with }

section Back

variable {low : g.root.index < m.world.scopes.size} (h : Receives m g.root xs vs w)
  (hr : Reaches (g.callee m.world.scopes.size low) (entered m ps w c) e m₂)
include hr

/-- The scope that is dropped is none of the caller's. -/
theorem Reaches.apart (hq : r.index < m.world.scopes.size) : r ≠ m₂.thread.scope := by
  have scope : m₂.thread.scope = m.world.scopes.next := hr.scope
  rw [scope]
  rintro rfl
  exact Nat.lt_irrefl _ hq

include h

/-- All scopes that the caller can see, but for the outermost one, are as they were. -/
theorem Receives.kept (hq : r.index < m.world.scopes.size) (hroot : r ≠ g.root) :
    (callerMachine m m₂).world.scopes.get? r = m.world.scopes.get? r :=
  (get?_clear (hr.apart hq)).trans ((hr.scopes r hq hroot).trans (h.get? hq))

/-- The caller goes on where it was. -/
theorem Reaches.returns (hm : Mirrors g σ m) :
    Reaches g m m.thread.cursor (callerMachine m m₂) := by
  have size := h.size
  have floor := hm.floor
  have grown : w.scopes.size ≤ m₂.world.scopes.size := hr.size
  refine ⟨?_, ?_, fun q hq hroot => h.kept hr (by omega) hroot, fun q hq => ?_, fun f f' hf => ?_⟩
  · have rest := h.eq
    subst rest
    rw [hr.rest]
    rfl
  · show _ ≤ (Tree.clear m₂.world m₂.thread.scope).scopes.size
    rw [size_clear]
    omega
  · have low : q.index < w.scopes.size := by omega
    exact (parent_clear _ _ q).trans ((hr.parents q low).trans (parent_congr (h.get? hq)))
  · refine hr.functions f f' ?_
    show w.functions.get? f = _
    rwa [h.functions]

theorem Mirrors.returns (hm : Mirrors g σ m)
    (hm₂ : Mirrors (g.callee m.world.scopes.size low) σ' m₂) :
    Mirrors g { σ' with locals := σ.locals } (callerMachine m m₂) := by
  have back := Reaches.returns h hr hm
  have rooted : Rooted g { σ' with locals := σ.locals } (callerMachine m m₂) := hm₂.toRooted.returns hm
  have made := hm.layers.index_lt hm.made
  refine { rooted with layers := ?_, floor := ?_, sync := hm.sync, depth := ?_, limit := ?_ }
  · refine hm.layers.congr hm.tree (fun q hq hle => h.kept hr (by omega) ?_) back.functions back.size
    rintro rfl
    exact Nat.lt_irrefl _ (Nat.lt_of_lt_of_le g.low hq)
  · exact Nat.le_trans hm.floor back.size
  · rw [back.callDepth]
    exact hm.depth
  · rw [back.environment]
    exact hm.limit

end Back

/-- Where arguments do not fit, nothing is left of the scope that was made for them. -/
theorem Receives.dropped (h : Receives m g.root xs vs w) (hm : Mirrors g σ m)
    (distinct : (xs.map Identifier.text).Nodup) (hvs : ∀ v ∈ vs, v.scalar = true) :
    Mirrors g σ { m with world := Tree.clear w m.world.scopes.next } ∧
      Reaches g m m.thread.cursor { m with world := Tree.clear w m.world.scopes.next } := by
  have inside := hm.enter m.pinned (c := m.thread.cursor) h distinct hvs
  have here : Reaches (g.callee m.world.scopes.size hm.made) (entered m m.pinned w m.thread.cursor)
      m.thread.cursor (entered m m.pinned w m.thread.cursor) := .refl _ _ _
  have back := Mirrors.returns h here hm inside
  exact ⟨back, Reaches.returns h here hm⟩

end Frame

/-! ### Calls -/

variable {f : Function} {d : Definition} {start : Position} {fn : Ref .function}

/-- The body of a function, as the machine has it. -/
def Definition.script (g : Scene) (d : Definition) (start : Position) : Script where
  params := parameters d.params
  isAsync := false
  source := g.source
  entry := indented start 1
  column := 1
  scope := g.root

theorem get_function (hf : m.world.functions.get? fn = some f) : m.world.functions.get fn = f := by
  rw [Arena.get, hf]
  rfl

/-- Arguments that fit are bound in a new scope. -/
theorem argumentScope_fits {body : Script} {receiver : Option Value} {args : CallArgs}
    (h : bindArguments f.name body.params m.world.scopes.next receiver args site
      (calleeWorld m.world body) = .ok () w) :
    argumentScope f body receiver args site m = .ok m.world.scopes.next { m with world := w } := by
  rw [argumentScope_run, h]

/-- Where they do not fit, that scope is emptied again. -/
theorem argumentScope_rejects {body : Script} {receiver : Option Value} {args : CallArgs}
    {complaint : Complaint} {token : Token}
    (h : bindArguments f.name body.params m.world.scopes.next receiver args site
      (calleeWorld m.world body) = .error (complaint, token) w) :
    argumentScope f body receiver args site m =
      complain complaint token { m with world := Tree.clear w m.world.scopes.next } := by
  rw [argumentScope_run, h]
  rfl

/-- Within the limit a call begins with its arguments. -/
theorem callScript_begins (he : Embodies g d start f) (hf : m.world.functions.get? fn = some f)
    (hd : m.callDepth < m.environment.maxCallDepth) (j : Jobs) (args : CallArgs) (site : Token) :
    callScript j fn none none args site m = Eval.holding [.function fn] (do
      runCallee j d.name.text (d.script g start) none
        (← argumentScope f (d.script g start) none args site)) m := by
  have same := get_function hf
  have body : (m.world.functions.get fn).body = .script (d.script g start) := by
    rw [same]
    exact he.body
  rw [callScript_run j none body hd, same, he.name]

/-- A function that has received its arguments is run in the scope made for them. -/
theorem callScript_entered (he : Embodies g d start f) (hf : m.world.functions.get? fn = some f)
    (hd : m.callDepth < m.environment.maxCallDepth)
    (harguments : bindArguments d.name.text (parameters d.params) m.world.scopes.next none
      { positional := vs } site (nest m.world g.root) = .ok () w)
    (hc : Cursor.at? g.source (indented start 1) = .ok c) (j : Jobs) :
    callScript j fn none none { positional := vs } site m =
      match j.body 5 (entered m (.values [.function fn] :: m.pinned) w c) with
      | .ok status m₂ => Eval.ending d.name.text (.ok status) (callerMachine m m₂)
      | .error fault m₂ => Eval.ending d.name.text (.error fault) (callerMachine m m₂) := by
  rw [callScript_begins he hf hd]
  -- the arguments are bound in a scope made for this call
  have received : argumentScope f (d.script g start) none { positional := vs } site
      (holder m (.values [.function fn])) =
        .ok m.world.scopes.next { holder m (.values [.function fn]) with world := w } :=
    argumentScope_fits (he.name ▸ harguments)
  have run : (do
      runCallee j d.name.text (d.script g start) none
        (← argumentScope f (d.script g start) none { positional := vs } site) : Eval Held)
        (holder m (.values [.function fn])) =
      match j.body 5 (entered m (.values [.function fn] :: m.pinned) w c) with
      | .ok status m₂ => Eval.ending d.name.text (.ok status)
        (callerMachine { holder m (.values [.function fn]) with world := w } m₂)
      | .error fault m₂ => Eval.ending d.name.text (.error fault)
        (callerMachine { holder m (.values [.function fn]) with world := w } m₂) := by
    refine (bind_of_ok received).trans ?_
    unfold runCallee
    rw [show Cursor.at? (d.script g start).source (d.script g start).entry = .ok c from hc]
    show EStateM.bind (inCallee c m.world.scopes.next (.functionBody none) (j.body 5)) _ _ = _
    unfold EStateM.bind
    rw [inCallee_run]
    have same : calleeMachine { holder m (.values [.function fn]) with world := w } c
      m.world.scopes.next (.functionBody none) =
        entered m (.values [.function fn] :: m.pinned) w c := rfl
    rw [same]
    cases j.body 5 (entered m (.values [.function fn] :: m.pinned) w c) <;> rfl
  unfold Eval.holding pinning
  dsimp only
  rw [show { m with pinned := .values [.function fn] :: m.pinned } =
    holder m (.values [.function fn]) from rfl, run]
  obtain ⟨status, m₂⟩ | ⟨fault, m₂⟩ := j.body 5 (entered m (.values [.function fn] :: m.pinned) w c)
  · obtain _ | _ | (_ | _ | _ | _) := status <;> rfl
  · rfl

/-- Arguments that do not fit are an exception at the place of the call. -/
theorem callScript_rejected {complaint : Complaint} {token : Token} (he : Embodies g d start f)
    (hf : m.world.functions.get? fn = some f) (hd : m.callDepth < m.environment.maxCallDepth)
    (harguments : bindArguments d.name.text (parameters d.params) m.world.scopes.next none
      { positional := vs } site (nest m.world g.root) = .error (complaint, token) w) (j : Jobs) :
    callScript j fn none none { positional := vs } site m =
      .error (.raised ⟨.str complaint.message, token.line, token.column⟩)
        { m with world := Tree.clear w m.world.scopes.next } := by
  rw [callScript_begins he hf hd]
  have rejected : argumentScope f (d.script g start) none { positional := vs } site
      (holder m (.values [.function fn])) =
        .error (.raised ⟨.str complaint.message, token.line, token.column⟩)
          { holder m (.values [.function fn]) with world := Tree.clear w m.world.scopes.next } :=
    argumentScope_rejects (he.name ▸ harguments)
  let dropped : Machine :=
    { holder m (.values [.function fn]) with world := Tree.clear w m.world.scopes.next }
  show pinning _ _ m = .error _ { dropped with pinned := m.pinned }
  refine pinning_of_error ?_
  show EStateM.bind _ _ (holder m (.values [.function fn])) = _
  unfold EStateM.bind
  rw [rejected]

/-- What a call does, one guard after the other. -/
theorem invoke_succ (limit fuel depth : Nat) (d : Definition) (start p : Position) (vs : List Value) :
    invoke limit (fuel + 1) depth d start vs p =
      if limit ≤ depth then throw (.failed (.system (.callDepth limit d.name.text p.line)))
      else if d.params.length < vs.length then
        throw (.complaint p (.tooManyArguments d.name.text d.params.length vs.length))
      else match d.params.drop vs.length with
        | x :: _ => throw (.complaint p (.missingArgument x.text d.name.text))
        | [] => Course.within (bound d.params vs) (d.body.exec
            { apply := invoke limit fuel (depth + 1), rounds := fuel, inFunction := true } 1 start) >>=
          returned := by
  rw [invoke]
  dsimp only
  by_cases hdeep : limit ≤ depth
  · exact (if_pos hdeep).trans (if_pos hdeep).symm
  · refine (if_neg hdeep).trans (Eq.trans ?_ (if_neg hdeep).symm)
    by_cases hmany : d.params.length < vs.length
    · exact (if_pos hmany).trans (if_pos hmany).symm
    · exact (if_neg hmany).trans (if_neg hmany).symm

/-- A call of a function that has received its arguments. -/
theorem lands_entered {limit fuel : Nat} (hg : g.limit = limit)
    (ih : ∀ g' : Scene, g'.limit = limit → Honours g' (invoke limit fuel g'.depth))
    (hm : Mirrors g σ m) (hskip : m.thread.skip = 0) (hf : m.world.functions.get? fn = some f)
    (he : Embodies g d start f) (hvs : ∀ v ∈ vs, v.scalar = true)
    (hd : m.callDepth < m.environment.maxCallDepth) (hw : Receives m g.root d.params vs w)
    (harguments : bindArguments d.name.text (parameters d.params) m.world.scopes.next none
      { positional := vs } site (nest m.world g.root) = .ok () w) {o : Except Halt Value}
    (hrun : (Course.within (bound d.params vs) (d.body.exec
      { apply := invoke limit fuel (g.depth + 1), rounds := fuel, inFunction := true } 1 start) >>=
        returned) σ = some (o, σ')) :
    Lands g IsValue done
      (fun fuel _ => callScript (jobs fuel) fn none none { positional := vs } site) m p []
      m.thread.cursor o σ' := by
  obtain ⟨c, e, hc, sound, crosses, closes⟩ := he.readable
  let S : Setting := { apply := invoke limit fuel (g.depth + 1), rounds := fuel, inFunction := true }
  let m₁ := entered m (.values [.function fn] :: m.pinned) w c
  have inside := hm.enter (.values [.function fn] :: m.pinned) (c := c) hw d.distinct hvs
  have live : Live S m₁ := ⟨hskip, rfl, rfl, ⟨fun _ => rfl, fun _ => rfl⟩, rfl⟩
  have lines : Lines (d.body.rows 1) start m₁ e := ⟨crosses, sound, he.column⟩
  -- with enough fuel the call comes to what its body comes to
  have settles {r : EStateM.Result Fault Machine Status} {out : EStateM.Result Interrupt Machine Held}
      (hout : (match r with
        | .ok status m₂ => Eval.ending d.name.text (.ok status) (callerMachine m m₂)
        | .error fault m₂ => Eval.ending d.name.text (.error fault) (callerMachine m m₂)) = out)
      (hx : Settles (bodyJob 0) m₁ r) :
      Settles (fun fuel _ => callScript (jobs fuel) fn none none { positional := vs } site) m out := by
    obtain ⟨enough, hx⟩ := hx
    refine ⟨enough, fun fuel n hf' hn =>
      (callScript_entered he hf hd harguments hc (jobs fuel)).trans ?_⟩
    rw [show (jobs fuel).body 5 _ = r from hx fuel n hf' hn]
    exact hout
  rw [Course.run_bind, Course.within] at hrun
  cases hbody : d.body.exec S 1 start { σ with locals := [bound d.params vs] } with
  | none =>
    rw [hbody] at hrun
    contradiction
  | some ended =>
    obtain ⟨ended, σ₁⟩ := ended
    rw [hbody] at hrun
    -- inside of the callee calls are honoured with less fuel, in a scene of their own
    have simulated := d.body.simulated (S := S) (ih (g.callee m.world.scopes.size hm.made) hg) lines
      closes live inside hbody
    cases simulated.job live.resume with
    | failed m₂ hx rooted =>
      obtain ⟨rfl, rfl⟩ := Prod.mk.inj (Option.some.inj hrun)
      exact .failed (callerMachine m m₂) (settles rfl hx) (rooted.returns hm)
    | @ends _ s m₂ bare hx hm₂ hr =>
      have back := Mirrors.returns hw hr hm hm₂
      have reaches := Reaches.returns hw hr hm
      match s, bare, hx, hrun with
      | none, _, hx, hrun | some .stop, _, hx, hrun | some .again, _, hx, hrun =>
        obtain ⟨rfl, rfl⟩ := Prod.mk.inj (Option.some.inj hrun)
        exact .value .null _ ⟨rfl, rfl⟩ (.of_settles (settles rfl hx)) back reaches
      | some (.result v), bare, hx, hrun =>
        obtain ⟨rfl, rfl⟩ := Prod.mk.inj (Option.some.inj hrun)
        have scalar := bare v (by simp [Signal.carried])
        exact .value (.fresh v) _ ⟨rfl, scalar⟩ (.of_settles (settles rfl hx)) back reaches
      | some (.raised r), bare, hx, hrun =>
        obtain ⟨rfl, rfl⟩ := Prod.mk.inj (Option.some.inj hrun)
        have scalar := bare r.value (by simp [Signal.carried])
        exact .raised _ _ scalar (settles rfl hx) back reaches (.behind _ _ _)

/-- Calls with more fuel are honoured if those inside of them are. -/
theorem honours_call {limit fuel : Nat} (hg : g.limit = limit)
    (ih : ∀ g' : Scene, g'.limit = limit → Honours g' (invoke limit fuel g'.depth)) :
    Honours g (invoke limit (fuel + 1) g.depth) where
  lands {m σ σ' fn f d start vs site o} hm hskip hf he hvs hrun p := by
    have depth := hm.depth
    have most := hm.limit
    have body : (m.world.functions.get fn).body = .script (d.script g start) := by
      rw [get_function hf]
      exact he.body
    rw [invoke_succ] at hrun
    by_cases hdeep : limit ≤ g.depth
    · rw [if_pos hdeep] at hrun
      obtain ⟨rfl, rfl⟩ := Prod.mk.inj (Option.some.inj hrun)
      have run (j : Jobs) : callScript j fn none none { positional := vs } site m = _ :=
        callScript_of_deep j none body (by omega)
      rw [get_function hf, he.name, most, hg] at run
      exact .failed m (.of_eq fun fuel _ => run (jobs fuel)) hm.toRooted
    · have hd : m.callDepth < m.environment.maxCallDepth := by omega
      rw [if_neg hdeep] at hrun
      obtain ⟨many, fits⟩ := bindArguments_positional d.name.text site d.distinct
        (bindings_calleeWorld m.world (d.script g start)) vs
      by_cases hmany : d.params.length < vs.length
      · -- nothing has been bound yet in the scope that was made
        rw [if_pos hmany] at hrun
        obtain ⟨rfl, rfl⟩ := Prod.mk.inj (Option.some.inj hrun)
        have received : Receives m g.root [] [] (nest m.world g.root) :=
          ⟨rfl, bindings_calleeWorld m.world (d.script g start), .refl _ _⟩
        obtain ⟨mirrors, reaches⟩ := received.dropped hm .nil nofun
        exact .raised _ _ rfl
          (.of_eq fun fuel _ => callScript_rejected he hf hd (many hmany) (jobs fuel)) mirrors reaches
          (.behind _ _ _)
      · rw [if_neg hmany] at hrun
        obtain ⟨bindings, fills, -, arguments⟩ := fits (by omega)
        have received : Receives m g.root d.params vs _ := ⟨rfl, bindings, fills⟩
        cases hleft : d.params.drop vs.length with
        | nil =>
          rw [hleft] at hrun arguments
          exact lands_entered hg ih hm hskip hf he hvs hd received arguments hrun
        | cons x xs =>
          -- the arguments that there are have been bound, and are dropped again
          rw [hleft] at hrun arguments
          obtain ⟨rfl, rfl⟩ := Prod.mk.inj (Option.some.inj hrun)
          obtain ⟨mirrors, reaches⟩ := received.dropped hm d.distinct hvs
          exact .raised _ _ rfl (.of_eq fun fuel _ => callScript_rejected he hf hd arguments (jobs fuel))
            mirrors reaches (.behind _ _ _)

/-- Calls of functions of the tree are honoured, whatever their fuel is: by induction on it. -/
theorem honours_invoke {limit : Nat} (fuel : Nat) :
    ∀ g : Scene, g.limit = limit → Honours g (invoke limit fuel g.depth) := by
  induction fuel with
  | zero =>
    intro g _
    exact ⟨fun _ _ _ _ _ hrun => nomatch hrun⟩
  | succ fuel ih => exact fun g hg => honours_call hg ih

end Rewind.Tree
