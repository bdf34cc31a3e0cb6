/-
Methods.

An attribute that an object does not have itself is looked for on its blueprint and further up, and
a function that is found there is bound to the object and to the blueprint it stands on.  That
blueprint goes along with the call, whichever way the method is called, and stays with the thread
that runs the body; a coroutine keeps it between its turns.  So `super` starts above the blueprint
the running method stands on, and not above that of the object.

* `Machine.Amid` — the machines of a run; every part of a session begins in one;
* `Machine.Finds` — what is found on the way up from a blueprint;
* `RunsAs` — the body that is run has an owner all the time;
* `runsAs_callScript`, `runsAs_dispatch`, `runsAs_instantiate`, … — every way to call a method;
* `method_resolution` — attributes, `super`, and owners.
-/
import Rewind.Proofs.Aftermath
import Rewind.Proofs.Audit
import Rewind.Proofs.Binding
import Rewind.Proofs.Resumption

namespace Rewind

open Eval

variable {ε α β : Type}

/-! ### The machines of a run -/

/-- A machine of a run of a program from the directory `program`. -/
def Machine.Amid (program : Option String) (m : Machine) : Prop :=
  Grounds ⟨program, [], m, false⟩ m

theorem Grounds.amid {ground : Ground} {m : Machine} (hm : Grounds ground m) :
    m.Amid ground.program :=
  ⟨hm.distinct, hm.directory, nofun, hm.lineage, hm.depth, List.suffix_rfl, fun _ => rfl, nofun⟩

namespace Machine.Amid

variable {program : Option String} {m m' : Machine}

/-- What does not matter for a run may differ. -/
theorem of_eq (h : m.Amid program) (hs : m'.modules = m.modules) (hd : m'.directory = m.directory)
    (hc : m'.callDepth ≤ m'.environment.maxCallDepth)
    (hl : m'.world.blueprints = m.world.blueprints) : m'.Amid program :=
  ⟨hs ▸ h.distinct, by rw [hd, hs, h.directory], nofun, h.lineage.of_same hl, hc, List.suffix_rfl,
    fun _ => rfl, nofun⟩

theorem withWorld (h : m.Amid program) {w : World} (hl : w.blueprints = m.world.blueprints) :
    ({ m with world := w } : Machine).Amid program := h.of_eq rfl rfl h.depth hl

theorem pinned (h : m.Amid program) (p : List Pin) :
    ({ m with pinned := p } : Machine).Amid program := h.of_eq rfl rfl h.depth rfl

end Machine.Amid

/-! ### Owners -/

/-- Whatever parts of a program the computation begins on a thread with these callers, that thread
is then the method of `owner`. -/
def RunsAs (callers : List Thread) (owner : Option (Ref .blueprint)) (m : Machine)
    (x : Jobs → EStateM ε Machine α) : Prop :=
  ∀ (w : Watch) (fuel : Nat), w.Discreet →
    (∀ q m', (m'.callers = callers → m'.thread.mode.owner = owner) → w.begins q m' = "") →
      x (w.jobs (watched w fuel)) m = x (jobs fuel) m

namespace RunsAs

variable {callers : List Thread} {owner : Option (Ref .blueprint)} {m : Machine}

/-- What asks for no job begins nothing. -/
theorem const (x : EStateM ε Machine α) : RunsAs callers owner m fun _ => x :=
  fun _ _ _ _ => rfl

theorem congr {m' : Machine} {x y : Jobs → EStateM ε Machine α} (h : RunsAs callers owner m' y)
    (he : ∀ j, x j m = y j m') : RunsAs callers owner m x := by
  intro w fuel hw hs
  rw [he, he, h w fuel hw hs]

theorem before {x : Jobs → EStateM ε Machine α} (h : RunsAs callers owner m x)
    (f : α → EStateM ε Machine β) : RunsAs callers owner m fun j => x j >>= f := by
  intro w fuel hw hs
  show EStateM.bind _ _ _ = EStateM.bind _ _ _
  unfold EStateM.bind
  rw [h w fuel hw hs]

theorem after {x : EStateM ε Machine α} {f : Jobs → α → EStateM ε Machine β}
    (h : ∀ a m₁, x m = .ok a m₁ → RunsAs callers owner m₁ fun j => f j a) :
    RunsAs callers owner m fun j => x >>= f j := by
  intro w fuel hw hs
  show EStateM.bind _ _ _ = EStateM.bind _ _ _
  unfold EStateM.bind
  cases hx : x m with
  | ok a m₁ => exact h a m₁ hx w fuel hw hs
  | error e m₁ => rfl

theorem pinning {p : Pin} {x : Jobs → EStateM ε Machine α}
    (h : RunsAs callers owner { m with pinned := p :: m.pinned } x) :
    RunsAs callers owner m fun j => Eval.pinning p (x j) := by
  intro w fuel hw hs
  simp only [Eval.pinning]
  rw [h w fuel hw hs]

theorem attempt {x : Jobs → Eval α} (h : RunsAs callers owner m x) :
    RunsAs callers owner m fun j => Eval.attempt (x j) := by
  intro w fuel hw hs
  simp only [Eval.attempt]
  rw [h w fuel hw hs]

theorem lift {x : Jobs → Run α} (h : RunsAs callers owner m x) :
    RunsAs callers owner m fun j => (liftM (x j) : Eval α) := by
  intro w fuel hw hs
  simp only [Quiet.run_lift]
  rw [h w fuel hw hs]

end RunsAs

section Calls

variable {program : Option String} {m : Machine}

/-- A run that is followed under a watch that says nothing at faults is the run. -/
theorem Echo.eq [Stops ε] {w : Watch} {ground : Ground} (hw : w.Discreet)
    {r r' : EStateM.Result ε Machine α} (h : Echo w ground m r r') : r' = r := by
  cases r with
  | ok a m₁ => exact h.2
  | error e m₁ =>
    obtain ⟨-, h⟩ := h
    split at h
    · obtain ⟨qs, rfl⟩ := h
      rw [hw.afterFault, Machine.printing_empty]
    · exact h

/-- While a body runs its thread stays the method it is. -/
theorem runsAs_body (hm : m.Amid program) (column : Nat) :
    RunsAs m.callers m.thread.mode.owner m fun j => j.body column := by
  intro w fuel hw hs
  have agree : Watch.Agree {} w ⟨program, [], m, false⟩ := fun q m' h => hs q m' h.1.owner
  have follow := (follow_watched (fun _ _ => rfl) agree fuel).watched (fun _ _ => rfl) agree
  rw [watched_silent, jobs_silent] at follow
  exact (follow.body column m ⟨hm, fun _ => nofun⟩).eq hw

theorem runsAs_inCallee (hm : m.Amid program) (hd : m.callDepth < m.environment.maxCallDepth)
    (cursor : Cursor) (callee : Ref .scope) (owner : Option (Ref .blueprint)) (column : Nat) :
    RunsAs (m.thread.waiting :: m.callers) owner m fun j =>
      inCallee cursor callee (.functionBody owner) (j.body column) := by
  intro w fuel hw hs
  have amid : (calleeMachine m cursor callee (.functionBody owner)).Amid program :=
    hm.of_eq rfl rfl hd rfl
  have same := runsAs_body amid column w fuel hw hs
  dsimp only at same ⊢
  rw [inCallee_run, inCallee_run, same]

/-- The scope of a callee is made without touching the thread or the blueprints. -/
theorem argumentScope_amid (hm : m.Amid program) {f : Function} {body : Script}
    {receiver : Option Value} {args : CallArgs} {site : Token} {callee : Ref .scope} {m₁ : Machine}
    (h : argumentScope f body receiver args site m = .ok callee m₁) :
    m₁.Amid program ∧ ∃ w, m₁ = { m with world := w } := by
  rw [argumentScope_run] at h
  cases hr : bindArguments f.name body.params m.world.scopes.next receiver args site
      (calleeWorld m.world body) with
  | error e w =>
    rw [hr] at h
    contradiction
  | ok a w =>
    rw [hr] at h
    obtain ⟨-, rfl⟩ := EStateM.Result.ok.inj h
    have same := local_bindArguments f.name body.params m.world.scopes.next receiver args site
      (calleeWorld m.world body) w (.inl ⟨a, hr⟩)
    exact ⟨hm.withWorld same.2.2.2.blueprints, w, rfl⟩

/-- In the scope of a callee `self` is the receiver, unless another parameter has that name. -/
theorem argumentScope_self {f : Function} {body : Script} {v : Value} {args : CallArgs}
    {site : Token} {callee : Ref .scope} {m₁ : Machine}
    (distinct : (body.params.map (·.name)).Nodup) (self : "self" ∉ body.params.tail.map (·.name))
    (h : argumentScope f body (some v) args site m = .ok callee m₁) :
    m₁.world.scopes.getLocal? callee "self" = some v := by
  have fillable := fillable_openParams (some v) distinct self
  by_cases hf : args.Fits (openParams body.params (some v))
  · obtain ⟨w, -, received, run⟩ := argumentScope_of_fits f site fillable hf m
    obtain ⟨rfl, rfl⟩ := EStateM.Result.ok.inj ((run m rfl).symm.trans h)
    obtain ⟨copies, entries, -⟩ := received.values
    refine (received.looked _ _).2 ?_
    rw [entries]
    simp [CallArgs.given, CallArgs.placed]
  · obtain ⟨e, w, -, run⟩ := argumentScope_of_not_fits f site fillable hf m
    exact absurd ((run m rfl).symm.trans h) (by simp)

/-- A function that is called with an owner is run as a method of that owner. -/
theorem runsAs_callScript (hm : m.Amid program) (r : Ref .function) (receiver : Option Value)
    (owner : Option (Ref .blueprint)) (args : CallArgs) (site : Token) :
    RunsAs (m.thread.waiting :: m.callers) owner m fun j => callScript j r receiver owner args site := by
  cases hb : (m.world.functions.get r).body with
  | native native =>
    refine .pinning (.after fun f m₁ hf => ?_)
    obtain ⟨rfl, rfl⟩ := EStateM.Result.ok.inj hf
    rw [hb]
    exact .const _
  | script body =>
    obtain hd | hd := Nat.lt_or_ge m.callDepth m.environment.maxCallDepth
    · refine .congr (.pinning (.after fun callee m₁ ha => ?_))
        fun j => callScript_run j owner hb hd
      obtain ⟨amid, w, rfl⟩ := argumentScope_amid (hm.pinned _) ha
      unfold runCallee
      cases Cursor.at? body.source body.entry with
      | error failure => exact .const _
      | ok cursor => exact .before (runsAs_inCallee amid hd cursor callee owner _) _
    · exact .congr (.const _) fun j => callScript_of_deep j owner hb hd

theorem runsAs_callFunction (hm : m.Amid program) {r : Ref .function} {body : Script}
    (hb : (m.world.functions.get r).body = .script body) (n : Nat) (receiver : Option Value)
    (owner : Option (Ref .blueprint)) (args : CallArgs) (site : Token) :
    RunsAs (m.thread.waiting :: m.callers) owner m fun j =>
      callFunction j n r receiver owner args site := by
  refine .congr ?_ fun j => callFunction_run j n owner hb
  cases body.isAsync with
  | true => exact .const _
  | false => exact runsAs_callScript hm r receiver owner args site

/-- A bound method is run as a method of the blueprint that it is bound to. -/
theorem runsAs_dispatch (hm : m.Amid program) {k : Ref .method} {body : Script}
    (hb : (m.world.functions.get (m.world.methods.get k).function).body = .script body) (n : Nat)
    (args : CallArgs) (site : Token) :
    RunsAs (m.thread.waiting :: m.callers) (m.world.methods.get k).owner m fun j =>
      dispatch j n (.method k) args site := by
  refine .pinning (.after fun b m₁ h => ?_)
  obtain ⟨rfl, rfl⟩ := EStateM.Result.ok.inj h
  exact runsAs_callFunction (hm.pinned (.values [.method k] :: m.pinned)) hb n _ _ args site

/-- The same of a call whose outcome goes on the tape, or comes from there. -/
theorem runsAs_invokeValue (hm : m.Amid program) {k : Ref .method} {body : Script}
    (hb : (m.world.functions.get (m.world.methods.get k).function).body = .script body) (n : Nat)
    (args : CallArgs) (site : Token) :
    RunsAs (m.thread.waiting :: m.callers) (m.world.methods.get k).owner m fun j =>
      invokeValue j n (.method k) args site := by
  refine .after fun outcome m₁ h => ?_
  cases hr : m.thread.replays with
  | true =>
    obtain ⟨entry, -, he⟩ := replayed_of_replays hr
    obtain ⟨rfl, -⟩ := EStateM.Result.ok.inj (he.symm.trans h)
    exact .const _
  | false =>
    obtain ⟨rfl, rfl⟩ := EStateM.Result.ok.inj ((replayed_of_not_replays hr).symm.trans h)
    exact RunsAs.before (.lift (.attempt (.before (runsAs_dispatch hm hb n args site) own))) _

/-- The same of a call that is asked for as a job. -/
theorem runsAs_invoke (hm : m.Amid program) {k : Ref .method} {body : Script}
    (hb : (m.world.functions.get (m.world.methods.get k).function).body = .script body)
    (args : CallArgs) (site : Token) :
    RunsAs (m.thread.waiting :: m.callers) (m.world.methods.get k).owner m fun j =>
      j.invoke (.method k) args site := by
  intro w fuel hw hs
  -- the call itself still begins on the thread of the caller
  have silent : w.begins .call m = "" := hs .call m fun h => absurd h.symm (List.cons_ne_self _ _)
  show w.telling .call ((watched w fuel).invoke (.method k) args site) m = _
  rw [hw.telling_run, silent, Machine.printing_empty]
  cases fuel with
  | zero => rfl
  | succ fuel => exact runsAs_invokeValue hm hb fuel args site w fuel hw hs

/-- An object is made by running its `init` as a method of the blueprint it stands on. -/
theorem runsAs_instantiate (hm : m.Amid program) {r b : Ref .blueprint} {f : Ref .function}
    (h : m.world.Nearest "init" r (.function f) b) (args : CallArgs) (site : Token) :
    RunsAs (m.thread.waiting :: m.callers) (some b) m fun j => instantiate j r args site := by
  refine .after fun _ _ h₁ => .after fun _ _ h₂ => .after fun object m₁ h₃ => ?_
  -- what the new object changes does not matter from here on
  obtain ⟨ht, hc, hm₁, hn⟩ : m.thread = m₁.thread ∧ m.callers = m₁.callers ∧ m₁.Amid program ∧
      m₁.world.Nearest "init" r (.function f) b := by
    obtain ⟨-, rfl⟩ := EStateM.Result.ok.inj h₁
    obtain ⟨-, rfl⟩ := EStateM.Result.ok.inj h₂
    obtain ⟨-, rfl⟩ := EStateM.Result.ok.inj h₃
    exact ⟨rfl, rfl, hm.of_eq rfl rfl hm.depth rfl, h.of_same rfl rfl⟩
  rw [ht, hc]
  refine .after fun name _ h₄ => .after fun found _ h₅ => ?_
  obtain ⟨-, rfl⟩ := EStateM.Result.ok.inj h₄
  obtain ⟨hfound, rfl⟩ := EStateM.Result.ok.inj h₅
  obtain rfl := hfound.symm.trans (hm₁.lineage.findMember_iff.2 hn)
  refine .after fun isAsync _ h₆ => ?_
  obtain ⟨-, rfl⟩ := EStateM.Result.ok.inj h₆
  have run := RunsAs.pinning (runsAs_callScript (hm₁.pinned (.values [.object object] :: m₁.pinned))
    f (some (.object object)) (some b) args site)
  cases isAsync with
  | true => exact .const _
  | false => exact .before run _

/-- An operator of an object is looked for like any member. -/
theorem operator?_eq (hw : m.world.Lineage) {o : Ref .object} {name : String} {f : Ref .function}
    {b : Ref .blueprint}
    (h : m.world.Nearest name (m.world.objects.get o).blueprint (.function f) b) :
    m.world.operator? o name = some (f, b) := by
  unfold World.operator?
  rw [hw.findMember_iff.2 h]

/-- A method that is new is run as a method of the blueprint it is bound to. -/
theorem runsAs_newMethod (hm : m.Amid program) {o : Value} {f : Ref .function}
    {b : Ref .blueprint} {body : Script} (hb : (m.world.functions.get f).body = .script body)
    {g : Jobs → Value → Eval β}
    (hg : ∀ k m₁, m₁.thread = m.thread → m₁.callers = m.callers → m₁.Amid program →
      (m₁.world.functions.get (m₁.world.methods.get k).function).body = .script body →
      (m₁.world.methods.get k).owner = some b →
      RunsAs (m.thread.waiting :: m.callers) (some b) m₁ fun j => g j (.method k)) :
    RunsAs (m.thread.waiting :: m.callers) (some b) m fun j => newMethod ⟨o, f, some b⟩ >>= g j := by
  refine .after fun k m₁ h => ?_
  obtain ⟨rfl, rfl⟩ := EStateM.Result.ok.inj h
  have made : (m.world.methods.push ⟨o, f, some b⟩).get m.world.methods.next = ⟨o, f, some b⟩ := by
    simp [Arena.get, Arena.get?_push_next]
  refine hg _ _ rfl rfl (hm.withWorld rfl) ?_ (congrArg Method.owner made)
  exact (congrArg (fun b : Method => (m.world.functions.get b.function).body) made).trans hb

/-- The text of an object comes from `op_str`, run as a method of the blueprint it stands on. -/
theorem runsAs_objectText (hm : m.Amid program) {o : Ref .object} {f : Ref .function}
    {b : Ref .blueprint} {body : Script}
    (h : m.world.Nearest "op_str" (m.world.objects.get o).blueprint (.function f) b)
    (hb : (m.world.functions.get f).body = .script body) (site : Token) :
    RunsAs (m.thread.waiting :: m.callers) (some b) m fun j => objectText j site o := by
  refine .after fun found _ h₁ => ?_
  obtain ⟨hfound, rfl⟩ := EStateM.Result.ok.inj h₁
  obtain rfl := hfound.symm.trans (operator?_eq hm.lineage h)
  refine .after fun isAsync _ h₂ => ?_
  obtain ⟨-, rfl⟩ := EStateM.Result.ok.inj h₂
  have run (rest : Held → Eval (Option String)) :
      RunsAs (m.thread.waiting :: m.callers) (some b) m fun j => (do
        let method ← newMethod ⟨.object o, f, some b⟩
        let text ← j.invoke method {} site
        rest text : Eval (Option String)) := by
    refine runsAs_newMethod hm hb fun k m₁ ht hc hm₁ hb₁ ho => .before ?_ _
    rw [← ht, ← hc, ← ho]
    exact runsAs_invoke hm₁ hb₁ {} site
  cases isAsync with
  | true => exact .const _
  | false => exact run _

/-- Something is added to an object by `op_add`, run as a method of the blueprint it stands on. -/
theorem runsAs_add (hm : m.Amid program) {o : Ref .object} {f : Ref .function}
    {b : Ref .blueprint} {body : Script}
    (h : m.world.Nearest "op_add" (m.world.objects.get o).blueprint (.function f) b)
    (hb : (m.world.functions.get f).body = .script body) (op : Token) {left right : Held}
    (hl : left.value = .object o) (hr : ∀ s, right.value ≠ .str s) :
    RunsAs (m.thread.waiting :: m.callers) (some b) m fun j => add j op left right := by
  -- the method is looked up on the object, and called in the place of the operator
  have start : RunsAs (m.thread.waiting :: m.callers) (some b) m fun j => (do
      let found ← ask fun w => w.operator? o "op_add"
      found.elim (complain (Value.unsupported op (.object o) right.value) op) fun x => do
        let method ← newMethod ⟨.object o, x.1, some x.2⟩
        let right ← own right
        holding [.object o] (j.invoke method { positional := [right] } op) : Eval Held) := by
    refine .after fun found _ h₁ => ?_
    obtain ⟨hfound, rfl⟩ := EStateM.Result.ok.inj h₁
    obtain rfl := hfound.symm.trans (operator?_eq hm.lineage h)
    refine runsAs_newMethod hm hb fun k m₁ ht hc hm₁ hb₁ ho => .after fun v m₂ h₂ => .pinning ?_
    obtain ⟨ht₂, hc₂, hm₂, hb₂, ho₂⟩ : m₁.thread = m₂.thread ∧ m₁.callers = m₂.callers ∧
        m₂.Amid program ∧
        (m₂.world.functions.get (m₂.world.methods.get k).function).body = .script body ∧
        (m₂.world.methods.get k).owner = some b := by
      obtain ⟨-, rfl⟩ := EStateM.Result.ok.inj h₂
      exact ⟨rfl, rfl, hm₁.of_eq rfl rfl hm₁.depth rfl, hb₁, ho⟩
    rw [← ht, ← hc, ht₂, hc₂, ← ho₂]
    exact runsAs_invoke (hm₂.pinned (.values [.object o] :: m₂.pinned)) hb₂ _ op
  refine start.congr fun j => ?_
  unfold add
  rw [hl]
  cases hv : right.value with
  | str s => exact absurd hv (hr s)
  | _ =>
    dsimp only
    refine congrFun (congrArg (bind (ask fun w => w.operator? o "op_add" : Eval _)) ?_) m
    funext found
    cases found <;> rfl

/-- A coroutine takes each of its turns as the method of the blueprint its function was bound to. -/
theorem runsAs_runTurn (hm : m.Amid program) {t : Ref .coroutine} {f : Ref .function}
    {owner : Option (Ref .blueprint)} (hk : (m.world.coroutines.get t).kind = .script f owner) :
    RunsAs m.callers owner m fun j => runTurn j t := by
  -- a turn that does not begin runs as nobody
  refine .after fun turn m₁ h => ?_
  rw [beginTurn_run, hk] at h
  dsimp only at h
  split at h
  · obtain ⟨rfl, -⟩ := EStateM.Result.ok.inj h
    exact .const _
  split at h
  · obtain ⟨rfl, -⟩ := EStateM.Result.ok.inj h
    exact .const _
  split at h
  · contradiction
  obtain ⟨rfl, rfl⟩ := EStateM.Result.ok.inj h
  refine .after fun fn m₁ h₁ => ?_
  obtain ⟨hc, hm₁⟩ : m.callers = m₁.callers ∧ m₁.Amid program := by
    obtain ⟨-, rfl⟩ := EStateM.Result.ok.inj h₁
    exact ⟨rfl, hm.of_eq rfl rfl hm.depth rfl⟩
  cases fn.body with
  | native native => exact .const _
  | script body =>
    dsimp only
    cases Cursor.at? body.source body.entry with
    | error failure => exact .const _
    | ok cursor =>
      refine .after fun _ m₂ h₂ => .before ?_ _
      obtain ⟨hc₂, ho, hm₂⟩ : m₁.callers = m₂.callers ∧ owner = m₂.thread.mode.owner ∧
          m₂.Amid program := by
        obtain ⟨-, rfl⟩ := EStateM.Result.ok.inj h₂
        exact ⟨rfl, rfl, hm₁.of_eq rfl rfl hm₁.depth rfl⟩
      rw [hc, hc₂, ho]
      exact runsAs_body hm₂ _

theorem kind_of_newCoroutine {name : String} {kind : CoroutineKind} {scope : Option (Ref .scope)}
    {t : Ref .coroutine} {m' : Machine} (h : newCoroutine name kind scope m = (.ok t m' :
      EStateM.Result ε Machine (Ref .coroutine))) :
    m'.world.Has t ∧ (m'.world.coroutines.get t).kind = kind := by
  obtain ⟨rfl, rfl⟩ := EStateM.Result.ok.inj h
  have got := m.world.coroutines.get?_push_next
    { serial := m.coroutines + 1, name, kind, scope }
  have got' := World.get_of_get? (w := { m.world with coroutines := _ }) got
  exact ⟨got.trans (congrArg some got'.symm), congrArg Coroutine.kind got'⟩

/-- The call of an `async` method gives a coroutine that keeps the blueprint. -/
theorem kind_of_spawn {r : Ref .function} {receiver : Option Value}
    {owner : Option (Ref .blueprint)} {args : CallArgs} {site : Token} {held : Held} {m' : Machine}
    (h : spawn r receiver owner args site m = .ok held m') :
    ∃ t, held = .fresh (.coroutine t) ∧ m'.world.Has t ∧
      (m'.world.coroutines.get t).kind = .script r owner := by
  cases hb : (m.world.functions.get r).body with
  | native native =>
    unfold spawn at h
    rw [ask_bind, hb] at h
    contradiction
  | script body =>
    rw [spawn_run owner hb] at h
    obtain ⟨callee, m₁, -, h⟩ := ok_of_bind h
    obtain ⟨t, m₂, ht, h⟩ := ok_of_bind h
    obtain ⟨rfl, rfl⟩ := EStateM.Result.ok.inj h
    exact ⟨t, rfl, kind_of_newCoroutine ht⟩

end Calls

/-! ### Finding attributes -/

/-- What the search for `name` from `start` upwards gives for the receiver `o`, begun in `m`: a
function on the nearest blueprint that has the name, bound to the receiver and to that blueprint, or
another member as it is, and nothing only if no blueprint has it. -/
structure Machine.Finds (m : Machine) (o : Ref .object) (start : Ref .blueprint) (name : String)
    (result : EStateM.Result Interrupt Machine (Option Held)) : Prop where
  function : ∀ f b, m.world.Nearest name start (.function f) b →
    result = .ok (some (.fresh (.method m.world.methods.next)))
      { m with world := { m.world with
        methods := m.world.methods.push ⟨.object o, f, some b⟩ } }
  member : ∀ v b, m.world.Nearest name start v b → (∀ f, v ≠ .function f) →
    result = .ok (some (.view v)) m
  missing : (∀ v b, ¬ m.world.Nearest name start v b) → result = .ok none m

section Attributes

variable {program : Option String} {m : Machine}

/-- The search for a member and what it is bound to. -/
def findBound (o : Ref .object) (start : Ref .blueprint) (name : String) : Eval (Option Held) := do
  match ← ask fun w => w.findMember start name with
  | some (member, owner) => return some (← bindMember (.object o) member owner)
  | none => return none

theorem finds_findBound (hw : m.world.Lineage) (o : Ref .object) (start : Ref .blueprint)
    (name : String) : m.Finds o start name (findBound o start name m) := by
  unfold findBound
  rw [ask_bind]
  refine ⟨fun f b h => ?_, fun v b h hv => ?_, fun h => ?_⟩
  · rw [hw.findMember_iff.2 h]
    rfl
  · rw [hw.findMember_iff.2 h]
    cases v with
    | function f => exact absurd rfl (hv f)
    | _ => rfl
  · have none : m.world.findMember start name = none :=
      Option.eq_none_iff_forall_ne_some.2 fun x hx => h x.1 x.2 (hw.findMember_iff.1 hx)
    rw [none]
    rfl

theorem findAttribute?_object {target : Held} {o : Ref .object} (ht : target.value = .object o)
    {name : String} (hn : name ≠ "blueprint") :
    findAttribute? target name m = match (m.world.objects.get o).attrs.get? name with
      | some v => .ok (some (.view v)) m
      | none => findBound o (m.world.objects.get o).blueprint name m := by
  unfold findAttribute?
  rw [ht]
  dsimp only
  rw [if_neg hn]
  unfold objectAttribute?
  rw [ask_bind]
  cases (m.world.objects.get o).attrs.get? name with
  | some v => rfl
  | none => rfl

/-- The machine with a new view of an object. -/
def newProxy (m : Machine) (o : Ref .object) (start : Ref .blueprint) : Machine :=
  { m with world := { m.world with proxies := m.world.proxies.push ⟨o, start⟩ } }

theorem findAttribute?_newProxy (o : Ref .object) (start : Ref .blueprint) (name : String) :
    findAttribute? (.fresh (.proxy m.world.proxies.next)) name (newProxy m o start) =
      findBound o start name (newProxy m o start) := by
  have made : (m.world.proxies.push ⟨o, start⟩).get m.world.proxies.next = ⟨o, start⟩ := by
    simp [Arena.get, Arena.get?_push_next]
  show (ask _ >>= _ : Eval (Option Held)) (newProxy m o start) = _
  rw [ask_bind, show (newProxy m o start).world.proxies.get m.world.proxies.next = _ from made]
  rfl

/-- The name `self` stands for the object `o`; looking it up leads to the machine `m₁`. -/
def Machine.SelfIs (m : Machine) (o : Ref .object) (m₁ : Machine) : Prop :=
  (lookup "self" : Eval (Option Value)) m = .ok (some (.object o)) m₁

theorem superProxy_run {site : Token} {b : Ref .blueprint} {o : Ref .object} {m₁ : Machine}
    (hb : m.thread.mode.owner = some b) (hs : m.SelfIs o m₁) :
    superProxy site m = match (m₁.world.blueprints.get b).parent with
      | none => complain (.noParentBlueprint (m₁.world.blueprints.get b).name) site m₁
      | some start => .ok (.fresh (.proxy m₁.world.proxies.next)) (newProxy m₁ o start) := by
  unfold superProxy
  show (match m.thread.mode.owner with | none => _ | some owner => _ : Eval Held) m = _
  rw [hb]
  refine (bind_of_ok hs).trans ?_
  dsimp only
  rw [ask_bind]
  cases (m₁.world.blueprints.get b).parent <;> rfl

theorem Machine.SelfIs.lineage {o : Ref .object} {m₁ : Machine} (hm : m.Amid program)
    (hs : m.SelfIs o m₁) : m₁.world.Lineage := by
  have kept : Echo {} ⟨program, [], m, false⟩ m
      ((lookup "self" : Eval (Option Value)) m) ((lookup "self" : Eval (Option Value)) m) :=
    echoes_lookup "self" m hm
  rw [show (lookup "self" : Eval (Option Value)) m = _ from hs] at kept
  exact kept.1.lineage hm.lineage

end Attributes

/-! ### Method resolution -/

/-- What attributes of objects and of `super` are, in the machine `m`. -/
structure Machine.Resolves (m : Machine) : Prop where
  own : ∀ (target : Held) o name v, target.value = .object o → name ≠ "blueprint" →
    (m.world.objects.get o).attrs.get? name = some v →
      findAttribute? target name m = .ok (some (.view v)) m
  inherited : ∀ (target : Held) o name, target.value = .object o → name ≠ "blueprint" →
    (m.world.objects.get o).attrs.get? name = none →
      m.Finds o (m.world.objects.get o).blueprint name (findAttribute? target name m)
  super : ∀ site b o m₁, m.thread.mode.owner = some b → m.SelfIs o m₁ →
    (∀ start, m₁.world.Inherits b start → ∃ held m₂, superProxy site m = .ok held m₂ ∧
      (∀ name, m₂.Finds o start name (findAttribute? held name m₂)) ∧
      ∀ name v b', m₂.world.Nearest name start v b' → m₂.world.Above b b') ∧
    ((∀ start, ¬ m₁.world.Inherits b start) → ∃ e, superProxy site m = .error (.raised e) m₁)

/-- Whichever way a method is called in the machine `m`, its body is run as the method of the
blueprint that the function was found on, and begins in a scope where `self` is the receiver. -/
structure Machine.KeepsOwners (m : Machine) : Prop where
  function : ∀ r receiver owner args site,
    RunsAs (m.thread.waiting :: m.callers) owner m fun j => callScript j r receiver owner args site
  bound : ∀ k body n args site,
    (m.world.functions.get (m.world.methods.get k).function).body = .script body →
      RunsAs (m.thread.waiting :: m.callers) (m.world.methods.get k).owner m fun j =>
        invokeValue j n (.method k) args site
  init : ∀ r f b args site, m.world.Nearest "init" r (.function f) b →
    RunsAs (m.thread.waiting :: m.callers) (some b) m fun j => instantiate j r args site
  text : ∀ o f b body site,
    m.world.Nearest "op_str" (m.world.objects.get o).blueprint (.function f) b →
    (m.world.functions.get f).body = .script body →
      RunsAs (m.thread.waiting :: m.callers) (some b) m fun j => objectText j site o
  sum : ∀ o f b body op (left right : Held),
    m.world.Nearest "op_add" (m.world.objects.get o).blueprint (.function f) b →
    (m.world.functions.get f).body = .script body → left.value = .object o →
    (∀ s, right.value ≠ .str s) →
      RunsAs (m.thread.waiting :: m.callers) (some b) m fun j => add j op left right
  self : ∀ f (body : Script) v args site callee m',
    argumentScope f body (some v) args site m = .ok callee m' →
    (body.params.map (·.name)).Nodup → "self" ∉ body.params.tail.map (·.name) →
      m'.world.scopes.getLocal? callee "self" = some v
  coroutine : ∀ r receiver owner args site held m',
    spawn r receiver owner args site m = .ok held m' → ∃ t, held = .fresh (.coroutine t) ∧
      m'.world.Has t ∧ (m'.world.coroutines.get t).kind = .script r owner
  turn : ∀ t f owner, (m.world.coroutines.get t).kind = .script f owner →
    RunsAs m.callers owner m fun j => runTurn j t

theorem Machine.Amid.resolves {program : Option String} {m : Machine} (hm : m.Amid program) :
    m.Resolves := by
  refine ⟨fun target o name v ht hn hv => ?_, fun target o name ht hn hv => ?_,
    fun site b o m₁ hb hs => ⟨fun start hi => ?_, fun hi => ?_⟩⟩
  · rw [findAttribute?_object ht hn, hv]
  · rw [findAttribute?_object ht hn, hv]
    exact finds_findBound hm.lineage _ _ _
  · have lineage : (newProxy m₁ o start).world.Lineage := (hs.lineage hm).of_same rfl
    refine ⟨.fresh (.proxy m₁.world.proxies.next), newProxy m₁ o start, ?_, fun name => ?_,
      fun name v b' h => ?_⟩
    · rw [superProxy_run hb hs, show (m₁.world.blueprints.get b).parent = some start from hi]
    · rw [findAttribute?_newProxy]
      exact finds_findBound lineage _ _ _
    · exact h.above_of_inherits hi
  · have none : (m₁.world.blueprints.get b).parent = none :=
      Option.eq_none_iff_forall_ne_some.2 hi
    rw [superProxy_run hb hs, none]
    exact ⟨_, rfl⟩

theorem Machine.Amid.keepsOwners {program : Option String} {m : Machine} (hm : m.Amid program) :
    m.KeepsOwners where
  function := runsAs_callScript hm
  bound _ _ n args site hb := runsAs_invokeValue hm hb n args site
  init _ _ _ args site h := runsAs_instantiate hm h args site
  text _ _ _ _ site h hb := runsAs_objectText hm h hb site
  sum _ _ _ _ op _ _ h hb hl hr := runsAs_add hm h hb op hl hr
  self _ _ _ _ _ _ _ h distinct self := argumentScope_self distinct self h
  coroutine _ _ _ _ _ _ _ h := kind_of_spawn h
  turn _ _ _ hk := runsAs_runTurn hm hk

/-- In all runs of a session: an attribute of an object is its own or else the member of the nearest
blueprint, a function bound to the object and to that blueprint; a method runs as one of the
blueprint its function was found on, whichever way it is called, and so does a coroutine in each of
its turns; and `super` starts above that blueprint, whatever the blueprint of the object is.  So
methods that call each other through `super` stand on blueprints that are all different. -/
theorem method_resolution {env : Environment} {m : Machine} (hm : Session env m) (text : String)
    (fuel : Nat) :
    (∀ w : Watch, w.Discreet → (∀ q m', m'.Amid m.directory → w.begins q m' = "") →
      m.runWatched w text fuel = m.runSource text fuel) ∧
    (∀ m' : Machine, m'.Amid m.directory → m'.Resolves ∧ m'.KeepsOwners) ∧
    (∀ s s' t f owner, Reachable env s → Steps s s' → s.world.Has t →
      (s.world.coroutines.get t).kind = .script f owner →
        (s'.world.coroutines.get t).kind = .script f owner) ∧
    ∀ cascade : List (Ref .blueprint),
      cascade.IsChain (fun b b' => ∃ m' : Machine, m'.Amid m.directory ∧ m'.world.Above b b') →
        cascade.Nodup := by
  refine ⟨fun w hw hs => ?_, fun m' h => ⟨h.resolves, h.keepsOwners⟩,
    fun s s' t f owner hr hst ht => (hst.later hr.coherent ht).script, fun cascade h => ?_⟩
  · have agree : Watch.Agree {} w ⟨m.directory, [], m, false⟩ := fun q m' h => hs q m' h.1.amid
    rw [← m.runWatched_silent text fuel]
    exact Machine.runWatched_congr (fun _ _ => rfl) hw agree (hm.resting.grounds nofun)
      hm.resting.owner text fuel
  · have older : cascade.IsChain fun b b' => b'.index < b.index :=
      h.imp fun b b' ⟨m', hm', ha⟩ => ha.index_lt hm'.lineage
    exact (List.isChain_iff_pairwise.1 older).imp fun h he => h.ne (congrArg Ref.index he.symm)

/-- Three blueprints, each with a method that calls the one above through `super`. -/
def threeLevels : String :=
  "blueprint: A:\n    funct: m(self):\n        show(1)\n" ++
  "blueprint: B inherits A:\n    funct: m(self):\n        super.m()\n        show(2)\n" ++
  "blueprint: C inherits B:\n    funct: m(self):\n        super.m()\n        show(3)\n" ++
  "C().m()\n"

/-- A watch that speaks up where calls are deeper than they may be. -/
def tooDeep : Watch where
  begins _ m := if m.callDepth ≤ m.environment.maxCallDepth then "" else "!"

/-- On three levels every method runs once. -/
theorem method_resolution_of_threeLevels : Session {} (Machine.new {}) ∧
    (Machine.new {}).runWatched tooDeep threeLevels 20 =
      (Machine.new {}).runSource threeLevels 20 ∧
    account ((Machine.new {}).runSource threeLevels 20) = ("1\n2\n3\n", none) := by
  refine ⟨.new, ?_, by decide +kernel⟩
  exact (method_resolution .new threeLevels 20).1 tooDeep (fun _ _ => rfl) fun _ m' h =>
    if_pos (Grounds.depth h)

end Rewind
