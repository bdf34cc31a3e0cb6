/-
A watched run follows the run.

Function by function of the evaluator: if the jobs it is given follow other jobs, it follows itself
with those.  Whatever the program does, entries of modules that are there stay there, and what is
counted or swapped on the way in — the depth of calls, the loop that runs, the directory — is put
back on every way out.

* `Jobs.Echo` — jobs that follow other jobs;
* `echoes_readAttribute`, `echoes_callScript`, `echoes_weave`, … — access, calls, loops;
* `echoes_conditional` — expressions;
* `echoes_letStatement`, `echoes_blueprintStatement`, `echoes_bindSelection` — assignments, definitions
  and what a `load` binds.
-/
import Rewind.Proofs.Statements
import Rewind.Proofs.Watch

namespace Rewind

variable {ε α β : Type} [Stops ε] {w : Watch} {ground : Ground}

/-- The jobs `j'` follow the jobs `j`. -/
structure Jobs.Echo (w : Watch) (ground : Ground)
    (j j' : Jobs) : Prop where
  expression : Echoes w ground j.expression j'.expression
  unary : Echoes w ground j.unary j'.unary
  body : ∀ column m, Lawful ground (.body column) m →
    Rewind.Echo w ground m (j.body column m) (j'.body column m)
  invoke : ∀ callee args site,
    Echoes w ground (j.invoke callee args site) (j'.invoke callee args site)

/-- Only the body of a module is at column one. -/
theorem Jobs.Echo.inner {j j' : Jobs} (hj : j.Echo w ground j') (column : Nat) :
    Echoes w ground (j.body (column + 4)) (j'.body (column + 4)) := by
  refine fun m hm => hj.body _ m ⟨hm, fun h => ?_⟩
  have := Part.body.inj h
  omega

namespace Eval

/-! ### Failures, the world and the thread -/

theorem echoes_exhausted : Echoes w ground (exhausted : Run α) exhausted := .stop _

theorem echoes_fail (f : Failure) : Echoes w ground (fail f : Run α) (fail f) := .stop _

theorem echoes_malformed (issue : SyntaxIssue) (site : Token) :
    Echoes w ground (malformed issue site : Run α) (malformed issue site) := .stop _

theorem echoes_complain (complaint : Complaint) (site : Token) :
    Echoes w ground (complain complaint site : Eval α) (complain complaint site) := .stop _

theorem echoes_orComplain (site : Token) (x : Except Complaint α) :
    Echoes w ground (orComplain site x) (orComplain site x) := by
  cases x with
  | ok a => exact .pure a
  | error c => exact echoes_complain c site

theorem echoes_get : Echoes w ground (get : EStateM ε Machine Machine) get := .read id

theorem echoes_ask (f : World → α) :
    Echoes w ground (ask f : EStateM ε Machine α) (ask f) := .read fun m => f m.world

theorem echoes_onWorld {f : World → α × World}
    (hf : ∀ w : World, w.Stands (f w).2) :
    Echoes w ground (onWorld f : EStateM ε Machine α) (onWorld f) :=
  fun m _ => .ok _ (.of_eq rfl rfl rfl rfl rfl rfl rfl rfl (hf m.world))

theorem echoes_onHeap (f : StateM Heap α) :
    Echoes w ground (onHeap f : EStateM ε Machine α) (onHeap f) := echoes_onWorld fun _ => .same rfl rfl

theorem echoes_modifyWorld {f : World → World}
    (hf : ∀ w : World, w.Stands (f w)) :
    Echoes w ground (modifyWorld f : EStateM ε Machine Unit) (modifyWorld f) :=
  echoes_onWorld hf

theorem echoes_modifyScopes {f : Scopes → Scopes} (hf : ∀ s : Scopes, s.Endures (f s)) :
    Echoes w ground (modifyScopes f : EStateM ε Machine Unit) (modifyScopes f) :=
  echoes_modifyWorld fun _ => ⟨rfl, hf _⟩

theorem echoes_own (h : Held) : Echoes w ground (own h : EStateM ε Machine Value) (own h) :=
  echoes_onHeap _

theorem echoes_truthy (h : Held) :
    Echoes w ground (truthy h : EStateM ε Machine Bool) (truthy h) := echoes_ask _

theorem echoes_newFunction (f : Function) :
    Echoes w ground (newFunction f : EStateM ε Machine Value) (newFunction f) :=
  echoes_onWorld fun _ => .same rfl rfl

theorem echoes_newMethod (b : Method) :
    Echoes w ground (newMethod b : EStateM ε Machine Value) (newMethod b) :=
  echoes_onWorld fun _ => .same rfl rfl

theorem echoes_newScope (parent : Option (Ref .scope)) :
    Echoes w ground (newScope parent : EStateM ε Machine (Ref .scope)) (newScope parent) :=
  echoes_onWorld fun _ => ⟨rfl, .push _ _ _⟩

theorem echoes_modify {f : Machine → Machine} (hf : ∀ m, Kept ground.base m (f m)) :
    Echoes w ground (modify f : EStateM ε Machine Unit) (modify f) :=
  fun m _ => .ok _ (hf m)

theorem echoes_newCoroutine (name : String) (kind : CoroutineKind) (scope : Option (Ref .scope)) :
    Echoes w ground (newCoroutine name kind scope : EStateM ε Machine (Ref .coroutine))
      (newCoroutine name kind scope) :=
  fun _ _ => .ok _ (.of_eq rfl rfl rfl rfl rfl rfl rfl rfl (.same rfl rfl))

theorem echoes_emit (text : String) :
    Echoes w ground (emit text : EStateM ε Machine Unit) (emit text) :=
  echoes_modify fun _ => .of_eq rfl rfl rfl rfl rfl rfl rfl rfl (.same rfl rfl)

theorem echoes_modifyThread {f : Thread → Thread}
    (hf : ∀ t : Thread, (f t).mode.owner = t.mode.owner) :
    Echoes w ground (modifyThread f : EStateM ε Machine Unit) (modifyThread f) :=
  echoes_modify fun _ => .of_eq rfl rfl rfl rfl rfl rfl rfl (hf _) (.same rfl rfl)

theorem echoes_resetTapeUnlessReplaying :
    Echoes w ground (resetTapeUnlessReplaying : EStateM ε Machine Unit)
      resetTapeUnlessReplaying := echoes_modifyThread fun t => by split <;> rfl

theorem echoes_resetTape :
    Echoes w ground (resetTape : EStateM ε Machine Unit) resetTape :=
  echoes_modifyThread fun t => by split <;> rfl

/-- Where the thread that is followed is away, any thread may make place for another one. -/
theorem echoes_switch (f : Thread → Thread) : Echoes w { ground with away := true }
    (modifyThread f : EStateM ε Machine Unit) (modifyThread f) :=
  fun _ hm => .ok _ ⟨rfl, rfl, rfl, rfl, rfl, ⟨[], rfl, nofun⟩, id, rfl,
    fun hc => absurd hc (hm.away rfl), id, .refl _⟩

theorem echoes_isSkipping :
    Echoes w ground (isSkipping : EStateM ε Machine Bool) isSkipping := .read _

theorem echoes_mode : Echoes w ground (mode : EStateM ε Machine Mode) mode := .read _

theorem echoes_scope :
    Echoes w ground (scope : EStateM ε Machine (Ref .scope)) scope := .read _

theorem echoes_current : Echoes w ground (current : EStateM ε Machine Token) current :=
  .read _

theorem echoes_kind : Echoes w ground (kind : EStateM ε Machine TokenKind) kind := .read _

theorem echoes_capture :
    Echoes w ground (capture : EStateM ε Machine Position) capture := .read _

theorem echoes_move (f : Cursor → Except Failure Cursor) :
    Echoes w ground (move f) (move f) := by
  refine .of_tame fun _ m => ?_
  unfold move
  cases f m.thread.cursor with
  | error failure => exact .refl m
  | ok c => exact .of_eq rfl rfl rfl rfl rfl rfl rfl rfl (.same rfl rfl)

theorem echoes_bump : Echoes w ground bump bump :=
  .bind echoes_current fun _ => .bind (echoes_move _) fun _ => .pure _

theorem echoes_advance (wanted : TokenKind) :
    Echoes w ground (advance wanted) (advance wanted) :=
  .bind echoes_current fun _ => .bind (echoes_move _) fun _ => .pure _

theorem echoes_rewind (p : Position) : Echoes w ground (rewind p) (rewind p) := echoes_move _

theorem echoes_skipBody (column : Nat) :
    Echoes w ground (skipBody column) (skipBody column) := echoes_move _

theorem echoes_skipOver (k : TokenKind) : Echoes w ground (skipOver k) (skipOver k) :=
  .bind echoes_kind fun _ => .ite (.bind echoes_bump fun _ => .pure _) (.pure _)

theorem echoes_endStatement : Echoes w ground endStatement endStatement :=
  .bind (echoes_skipOver .colon) fun _ => .pure _

theorem echoes_enterBlock (column : Nat) :
    Echoes w ground (enterBlock column) (enterBlock column) := by
  refine .bind (echoes_advance .colon) fun _ => .bind echoes_current fun _ => ?_
  exact .guard (echoes_malformed _ _) (.ite (echoes_malformed _ _) (.pure _))

/-! ### Names, attributes and items -/

theorem echoes_resolve (name : String) :
    Echoes w ground (resolve name : EStateM ε Machine (Option (Ref .scope)))
      (resolve name) := by
  refine .bind echoes_scope fun r => .bind (echoes_ask _) fun found => ?_
  split
  · exact .pure _
  · refine .bind (echoes_ask _) fun b => ?_
    split
    · exact .pure _
    · refine .bind echoes_mode fun _ => .bind (echoes_ask _) fun _ => .ite (.pure _) ?_
      refine .bind echoes_get fun _ => .bind (echoes_ask _) fun _ => .ite (.pure _) ?_
      exact .bind (echoes_modifyWorld fun _ => World.stands_dissolve _ _) fun _ => echoes_ask _

theorem echoes_lookup (name : String) :
    Echoes w ground (lookup name : EStateM ε Machine (Option Value)) (lookup name) := by
  refine .bind (echoes_resolve name) fun r => ?_
  split
  · exact echoes_ask _
  · exact .pure _

theorem echoes_assign (name : String) (v : Value) :
    Echoes w ground (assign name v : EStateM ε Machine Unit) (assign name v) :=
  .bind (.holding _ (echoes_resolve name)) fun _ => .bind echoes_scope fun _ =>
    echoes_modifyScopes fun _ => .define _ _ _ _

theorem echoes_define (name : String) (v : Value) :
    Echoes w ground (define name v : EStateM ε Machine Unit) (define name v) :=
  .bind echoes_scope fun _ => echoes_modifyScopes fun _ => .define _ _ _ _

theorem echoes_pushScope :
    Echoes w ground (pushScope : EStateM ε Machine Unit) pushScope :=
  .bind echoes_scope fun _ => .bind (echoes_newScope _) fun _ => echoes_modifyThread fun _ => rfl

theorem echoes_popScope :
    Echoes w ground (popScope : EStateM ε Machine Unit) popScope := by
  refine .bind echoes_scope fun _ => .bind (echoes_ask _) fun outer => ?_
  split
  · exact .bind (echoes_modifyThread fun _ => rfl) fun _ => echoes_modifyScopes fun _ => .clear _ _
  · exact .pure _

theorem echoes_bindMember (receiver member : Value) (owner : Ref .blueprint) :
    Echoes w ground (bindMember receiver member owner)
      (bindMember receiver member owner) := by
  unfold bindMember
  split
  · exact .bind (echoes_newMethod _) fun _ => .pure _
  · exact .pure _

theorem echoes_objectAttribute? (r : Ref .object) (name : String) :
    Echoes w ground (objectAttribute? r name) (objectAttribute? r name) := by
  refine .bind (echoes_ask _) fun o => ?_
  split
  · exact .pure _
  · refine .bind (echoes_ask _) fun found => ?_
    split
    · exact .bind (echoes_bindMember _ _ _) fun _ => .pure _
    · exact .pure _

theorem echoes_findAttribute? (target : Held) (name : String) :
    Echoes w ground (findAttribute? target name) (findAttribute? target name) := by
  unfold findAttribute?
  split
  · exact .ite (.bind (echoes_ask _) fun _ => .pure _) (echoes_objectAttribute? _ _)
  · exact .ite (.bind (echoes_ask _) fun _ => .pure _) (.bind (echoes_ask _) fun _ => .pure _)
  · refine .bind (echoes_ask _) fun p => .bind (echoes_ask _) fun found => ?_
    split
    · exact .bind (echoes_bindMember _ _ _) fun _ => .pure _
    · exact .pure _
  · exact .bind (echoes_ask _) fun _ => .pure _
  · split
    · exact .bind (echoes_onWorld fun _ => .same rfl rfl) fun _ => .bind (echoes_newMethod _) fun _ => .pure _
    · exact .bind (echoes_ask _) fun _ => .pure _
    · exact .pure _
  · exact .pure _

theorem echoes_readAttribute (target : Held) (name : String) (site : Token) :
    Echoes w ground (readAttribute target name site) (readAttribute target name site) := by
  refine .bind (echoes_findAttribute? _ _) fun found => ?_
  split
  · exact .pure _
  · exact .bind (echoes_ask _) fun _ => echoes_complain _ _

theorem echoes_readItem (target : Held) (index : Value) (site : Token) :
    Echoes w ground (readItem target index site) (readItem target index site) :=
  .bind (echoes_ask _) fun _ => echoes_orComplain _ _

theorem echoes_storeAttribute (target : Value) (name : String) (v : Value) (site : Token) :
    Echoes w ground (storeAttribute target name v site)
      (storeAttribute target name v site) := by
  unfold storeAttribute
  split
  · exact echoes_modifyWorld fun _ => .same rfl rfl
  · exact .bind (echoes_ask _) fun _ => echoes_modifyScopes fun _ => .define _ _ _ _
  · exact echoes_onHeap _
  · exact echoes_complain _ _

theorem echoes_storeItem (target index v : Value) (site : Token) :
    Echoes w ground (storeItem target index v site) (storeItem target index v site) := by
  unfold storeItem
  split
  · refine .bind (echoes_ask _) fun length => ?_
    split
    · exact echoes_onHeap _
    · exact echoes_complain _ _
  · exact echoes_complain _ _
  · exact echoes_onHeap _
  all_goals exact echoes_complain _ _

theorem echoes_superProxy (site : Token) :
    Echoes w ground (superProxy site) (superProxy site) := by
  refine .bind echoes_mode fun mode => ?_
  split
  · exact echoes_complain _ _
  · refine .bind (echoes_lookup _) fun v => ?_
    split
    · refine .bind (echoes_ask _) fun b => ?_
      split
      · exact echoes_complain _ _
      · exact echoes_onWorld fun _ => .same rfl rfl
    · exact echoes_complain _ _

/-! ### Calls -/

theorem echoes_argumentScope (f : Function) (body : Script) (receiver : Option Value)
    (args : CallArgs) (site : Token) :
    Echoes w ground (argumentScope f body receiver args site)
      (argumentScope f body receiver args site) := by
  refine .bind (echoes_newScope _) fun r => .bind (echoes_onWorld fun w => ?_) fun bound => ?_
  · have h := local_bindArguments f.name body.params r receiver args site w
    cases hr : bindArguments f.name body.params r receiver args site w with
    | ok a w' => exact (h w' (.inl ⟨a, hr⟩)).2.2.2
    | error e w' => exact (h w' (.inr ⟨e, hr⟩)).2.2.2
  · split
    · exact .pure _
    · exact .bind (echoes_modifyScopes fun _ => .clear _ _) fun _ => echoes_complain _ _

theorem echoes_resume (outcome : Outcome) :
    Echoes w ground (resume outcome) (resume outcome) := by
  cases outcome with
  | ok v => exact .pure _
  | error r => exact .stop _

theorem echoes_replayed : Echoes w ground replayed replayed := by
  refine .bind echoes_get fun m => .ite (.pure _) (.bind (echoes_onHeap _) fun taken => ?_)
  split
  · exact .bind (echoes_modifyThread fun _ => rfl) fun _ => .pure _
  · exact .pure _

theorem echoes_settle (outcome : Outcome) :
    Echoes w ground (settle outcome) (settle outcome) := by
  refine .bind echoes_get fun m => .ite ?_ (echoes_resume _)
  exact .bind (echoes_onHeap _) fun _ => .bind (echoes_modifyThread fun _ => rfl) fun _ => echoes_resume _

/-- What follows a callee follows its caller: the depth of calls is back where it was, and a fault
of the callee is one of the caller. -/
theorem echo_inCallee_bind (cursor : Cursor) (r : Ref .scope) (mode : Mode) {x x' : Run α}
    (hx : Echoes w ground x x') {f f' : Except Fault α → Eval β}
    (herr : ∀ fault, f (.error fault) = throw (.fault fault))
    (herr' : ∀ fault, f' (.error fault) = throw (.fault fault))
    (hok : ∀ a, Echoes w ground (f (.ok a)) (f' (.ok a))) {m : Machine} (hm : Grounds ground m)
    (hd : m.callDepth < m.environment.maxCallDepth) :
    Rewind.Echo w ground m ((inCallee cursor r mode x >>= f) m)
      ((inCallee cursor r mode x' >>= f') m) := by
  have back {m' : Machine} (h : Kept ground.base (calleeMachine m cursor r mode) m') :
      Kept ground.base m (callerMachine m m') :=
    ⟨h.environment, h.globals, h.directory, congrArg (· - 1) h.callDepth, h.weaving, h.modules,
      h.distinct, rfl, fun _ => rfl, h.lineage, h.scopes.trans (.clear _ _)⟩
  have run (x : Run α) (f : Except Fault α → Eval β) : (inCallee cursor r mode x >>= f) m =
      EStateM.bind (inCallee cursor r mode x) f m := rfl
  -- the callee begins on both sides from one machine, and whatever it comes to is brought back
  -- alike
  refine .caught (calleeMachine m cursor r mode) (callerMachine m)
    (fun h => ?_) (fun h => ?_) (fun h => ?_) (fun h => ?_) back (fun _ _ => rfl) hm hok
    (hx _ (hm.enter (calleeMachine m cursor r mode) hm.distinct hm.directory hm.entries rfl hd
      hm.lineage ground.away))
  all_goals rw [run]; unfold EStateM.bind; rw [inCallee_run, h]
  · exact congrFun (herr _) _
  · exact congrFun (herr' _) _

section Jobs

variable {j j' : Jobs} (hj : j.Echo w ground j')

include hj

theorem echoes_callScript (r : Ref .function) (receiver : Option Value)
    (owner : Option (Ref .blueprint)) (args : CallArgs) (site : Token) :
    Echoes w ground (callScript j r receiver owner args site)
      (callScript j' r receiver owner args site) := by
  refine .holding _ (.bind (echoes_ask _) fun f => ?_)
  split
  · exact .lift (echoes_fail _)
  · refine .get_bind fun m hm => ?_
    -- a call that would be too deep fails on both sides before it begins
    by_cases hd : m.environment.maxCallDepth ≤ m.callDepth
    · rw [if_pos hd, if_pos hd]
      exact .error _ (.refl m)
    rw [if_neg hd, if_neg hd]
    refine (echoes_argumentScope _ _ _ _ _ m hm).bind_at fun callee m₁ hk => ?_
    have hm₁ := hm.kept hk
    rename_i body _
    cases Cursor.at? body.source body.entry with
    | error failure => exact .error _ (.refl m₁)
    | ok cursor =>
      have deep : m₁.callDepth < m₁.environment.maxCallDepth := by
        rw [hk.callDepth, hk.environment]
        exact Nat.lt_of_not_le hd
      refine echo_inCallee_bind _ _ _ (hj.inner _) (fun _ => rfl) (fun _ => rfl)
        (fun status => ?_) hm₁ deep
      split
      · contradiction
      · exact .pure _
      · exact .stop _
      · exact .lift (echoes_fail _)
      · exact .pure _

omit hj in
theorem echoes_spawn (r : Ref .function) (receiver : Option Value)
    (owner : Option (Ref .blueprint)) (args : CallArgs) (site : Token) :
    Echoes w ground (spawn r receiver owner args site)
      (spawn r receiver owner args site) := by
  refine .bind (echoes_ask _) fun f => ?_
  split
  · exact .lift (echoes_fail _)
  · exact .bind (echoes_argumentScope _ _ _ _ _) fun _ =>
      .bind (echoes_newCoroutine _ _ _) fun _ => .pure _

theorem echoes_instantiate (r : Ref .blueprint) (args : CallArgs) (site : Token) :
    Echoes w ground (instantiate j r args site) (instantiate j' r args site) := by
  refine .bind (echoes_modify fun _ => .of_eq rfl rfl rfl rfl rfl rfl rfl rfl (.same rfl rfl)) fun _ => ?_
  refine .bind echoes_get fun m => .bind (echoes_onWorld fun _ => .same rfl rfl) fun object => ?_
  refine .bind (echoes_ask _) fun name => .bind (echoes_ask _) fun init => ?_
  split
  · refine .bind (echoes_ask _) fun isAsync => .guard (.lift (echoes_malformed _ _)) ?_
    exact .bind (.holding _ (echoes_callScript hj _ _ _ _ _)) fun _ => .pure _
  · exact .guard (echoes_complain _ _) (.pure _)

/-! ### The event loop -/

omit hj in
theorem echoes_beginTurn (r : Ref .coroutine) :
    Echoes w ground (beginTurn r) (beginTurn r) := by
  refine .bind (echoes_ask _) fun c => .ite (.pure _) ?_
  split
  · refine .ite (.bind (echoes_modifyWorld fun w => w.stands_finish _ _) fun _ => .pure _) ?_
    split
    · exact echoes_fail _
    · exact .bind (echoes_modifyWorld fun _ => .same rfl rfl) fun _ => .pure _
  · exact .pure _

theorem echoes_runTurn (r : Ref .coroutine) :
    Echoes w { ground with away := true } (runTurn j r) (runTurn j' r) := by
  refine .bind (echoes_beginTurn r) fun turn => ?_
  split
  · exact .pure _
  · refine .bind (echoes_ask _) fun f => ?_
    split
    · exact echoes_fail _
    · split
      · exact echoes_fail _
      · refine .bind (echoes_switch _) fun _ => .bind (hj.inner _).away fun status => ?_
        -- however the body left off, what the turn leaves is written by the loop itself
        refine .bind echoes_get fun m => ?_
        split
        · refine echoes_modifyWorld fun w => ?_
          unfold keepTurn
          dsimp only
          split <;> exact .same rfl rfl
        · exact echoes_modifyWorld fun _ => (World.Stands.clearScope _ _).trans
            (World.stands_finish _ _ _)

omit hj in
theorem echoes_readClock : Echoes w ground (readClock : EStateM ε Machine Nat) readClock :=
  fun _ _ => .ok _ (.of_eq rfl rfl rfl rfl rfl rfl rfl rfl (.same rfl rfl))

omit hj in
theorem echoes_dequeue : Echoes w ground dequeue dequeue := by
  refine .bind (echoes_ask _) fun ready => ?_
  split
  · exact .pure _
  · exact .bind (echoes_modifyWorld fun _ => .same rfl rfl) fun _ => .pure _

theorem echoes_drive (n : Nat) :
    Echoes w { ground with away := true } (drive j n) (drive j' n) := by
  induction n with
  | zero => exact echoes_exhausted
  | succ n ih =>
    refine .bind echoes_readClock fun _ => .bind (echoes_modifyWorld World.stands_pollSleepers)
      fun _ => .bind echoes_dequeue fun next => ?_
    split
    · exact .bind (echoes_runTurn hj _) fun _ => ih
    · refine .bind (echoes_ask _) fun sleepers => ?_
      split
      · exact .pure _
      · exact .bind (echoes_modifyWorld fun _ => .same rfl rfl) fun _ => ih

theorem echoes_runLoop (n : Nat) (root : Ref .coroutine) :
    Echoes w { ground with away := true } (runLoop j n root) (runLoop j' n root) := by
  refine .bind (echoes_modifyWorld fun w => (w.openLoop.stands_start root).of rfl rfl) fun _ =>
    .bind (echoes_drive hj n) fun _ => ?_
  exact .bind (echoes_ask _) fun c => .ite (echoes_fail _) (.pure _)

omit hj in
theorem echoes_checkArity (native : Native) (args : List Value) (least most : Nat) (site : Token) :
    Echoes w ground (checkArity native args least most site)
      (checkArity native args least most site) :=
  .ite (echoes_complain _ _) (.pure _)

omit hj in
theorem echoes_coroutineArg (native : Native) (v : Value) (site : Token) :
    Echoes w ground (coroutineArg native v site) (coroutineArg native v site) := by
  refine .bind (echoes_ask _) fun r => ?_
  split
  · exact .pure _
  · exact echoes_complain _ _

omit hj in
/-- What is left to do once the loop has come to its end. -/
theorem echoes_weaveResult (root : Ref .coroutine) : Echoes w ground
    (do
      let c ← ask fun w => w.coroutines.get root
      match ← onHeap (Heap.duplicateOutcome c.outcome) with
      | .ok v => return .fresh v
      | .error r => fail (.workflow c.name (← ask fun w => w.text r.value)) : Eval Held)
    (do
      let c ← ask fun w => w.coroutines.get root
      match ← onHeap (Heap.duplicateOutcome c.outcome) with
      | .ok v => return .fresh v
      | .error r => fail (.workflow c.name (← ask fun w => w.text r.value))) := by
  refine .bind (echoes_ask _) fun c => .bind (echoes_onHeap _) fun outcome => ?_
  split
  · exact .pure _
  · exact .bind (echoes_ask _) fun _ => .lift (echoes_fail _)

/-- A loop is begun only where none runs, so none runs behind it either. -/
theorem echoes_weave (n : Nat) (args : List Value) (site : Token) :
    Echoes w ground (weave j n args site) (weave j' n args site) := by
  refine .bind (echoes_checkArity _ _ _ _ _) fun _ =>
    .bind (echoes_coroutineArg _ _ _) fun root => ?_
  refine .get_bind fun m hm => ?_
  have raises (complaint : Complaint) {f f' : Unit → Eval Held} :
      Rewind.Echo w ground m ((complain complaint site >>= f) m) ((complain complaint site >>= f') m) :=
    .error _ (.refl m)
  show Rewind.Echo w ground m ((if (m.thread.driven || m.weaving) = true then _ else _ : Eval Held) m)
    ((if (m.thread.driven || m.weaving) = true then _ else _ : Eval Held) m)
  by_cases hv : (m.thread.driven || m.weaving) = true
  · rw [if_pos hv, if_pos hv]
    exact raises _
  · rw [if_neg hv, if_neg hv]
    show Rewind.Echo w ground m
      ((if (m.world.coroutines.get root).stage ≠ .new then _ else _ : Eval Held) m)
      ((if (m.world.coroutines.get root).stage ≠ .new then _ else _ : Eval Held) m)
    refine .ite (raises _) (.ite (raises _) ?_)
    have hv : m.weaving = false := by simp_all
    -- the loop is over: thread and pins are those of the caller, and what has been torn down
    -- stands
    have back {m' : Machine} (h : Kept ground.base { m with
        weaving := true, pinned := .thread m.thread.waiting :: m.pinned } m') :
        Kept ground.base m (afterLoop m m') :=
      ⟨h.environment, h.globals, h.directory, h.callDepth, hv.symm, h.modules, h.distinct, rfl,
        fun _ => rfl, fun hl => (h.lineage hl).of_same (World.stands_teardown _).blueprints,
        h.scopes.trans (World.stands_teardown _).scopes⟩
    refine .caught { m with weaving := true, pinned := .thread m.thread.waiting :: m.pinned } (afterLoop m)
      (fun h => ?_) (fun h => ?_) (fun h => ?_) (fun h => ?_) back (fun _ _ => rfl) hm
      (fun _ : Unit => echoes_weaveResult root) (echoes_runLoop hj n root _
        (hm.enter { m with weaving := true, pinned := .thread m.thread.waiting :: m.pinned } hm.distinct
          hm.directory hm.entries rfl hm.depth hm.lineage true))
    all_goals refine (weaveLoop_run _ n root _ m).trans ?_
    all_goals rw [h]
    all_goals rfl

end Jobs

/-! ### The functions of the loop -/

theorem echoes_spawnTask (args : List Value) (site : Token) :
    Echoes w ground (spawnTask args site) (spawnTask args site) := by
  refine .bind (echoes_checkArity _ _ _ _ _) fun _ =>
    .bind (echoes_coroutineArg _ _ _) fun task => ?_
  refine .bind (echoes_ask _) fun c => .guard (echoes_complain _ _) ?_
  refine .bind echoes_get fun _ => .guard (echoes_complain _ _) ?_
  refine .bind (echoes_modifyWorld fun w => w.stands_start task) fun _ => ?_
  split <;> exact .pure _

theorem echoes_rest (args : List Value) (site : Token) :
    Echoes w ground (rest args site) (rest args site) := by
  refine .bind (echoes_checkArity _ _ _ _ _) fun _ => ?_
  dsimp only
  split
  · exact echoes_complain _ _
  · refine .guard (echoes_complain _ _) ?_
    split
    · exact echoes_complain _ _
    · exact .bind echoes_readClock fun _ => .bind (echoes_newCoroutine _ _ _) fun _ => .pure _

theorem echoes_yieldNow (args : List Value) (site : Token) :
    Echoes w ground (yieldNow args site) (yieldNow args site) :=
  .bind (echoes_checkArity _ _ _ _ _) fun _ => .bind echoes_readClock fun _ =>
    .bind (echoes_newCoroutine _ _ _) fun _ => .pure _

theorem echoes_returnExceptions (positional : Nat) (named : List (String × Value × Token))
    (chosen : Bool) : Echoes w ground (returnExceptions positional named chosen)
      (returnExceptions positional named chosen) := by
  induction named generalizing chosen with
  | nil => exact .pure _
  | cons a named ih =>
    have checked : Echoes w ground (do
        if 1 < positional then complain .returnExceptionsTwice a.2.2
        returnExceptions positional named (← truthy (.view a.2.1)) : Eval Bool) (do
        if 1 < positional then complain .returnExceptionsTwice a.2.2
        returnExceptions positional named (← truthy (.view a.2.1)) : Eval Bool) :=
      .guard (echoes_complain _ _) (.bind (echoes_truthy _) fun _ => ih _)
    exact .ite (.bind (echoes_complain _ _) fun _ => checked) checked

theorem echoes_gather (args : CallArgs) (site : Token) :
    Echoes w ground (gather args site) (gather args site) := by
  refine .bind (echoes_checkArity _ _ _ _ _) fun _ => ?_
  have made (r : Ref .array) (chosen : Bool) : Echoes w ground (do
      let tasks ← ask fun w => w.heap.array r
      let children ← tasks.toList.mapM fun v => coroutineArg .gather v site
      let state := GatherState.ofChildren children chosen
      return .fresh (.gather (← newCoroutine "gather_task" (.gather state) none)) : Eval Held) (do
      let tasks ← ask fun w => w.heap.array r
      let children ← tasks.toList.mapM fun v => coroutineArg .gather v site
      let state := GatherState.ofChildren children chosen
      return .fresh (.gather (← newCoroutine "gather_task" (.gather state) none)) : Eval Held) :=
    .bind (echoes_ask _) fun _ => .bind (.mapM (fun _ => echoes_coroutineArg _ _ _) _) fun _ =>
      .bind (echoes_newCoroutine _ _ _) fun _ => .pure _
  -- what the second argument is, if there is one, only decides whether exceptions are handed on
  split
  all_goals cases args.positional[1]? with
  | some v => ?_
  | none => ?_
  · exact .bind (echoes_truthy _) fun _ => .bind (echoes_returnExceptions _ _ _) (made _)
  · exact .bind (.pure _) fun _ => .bind (echoes_returnExceptions _ _ _) (made _)
  · exact .bind (echoes_truthy _) fun _ => .bind (echoes_returnExceptions _ _ _) fun _ =>
      echoes_complain _ _
  · exact .bind (.pure _) fun _ => .bind (echoes_returnExceptions _ _ _) fun _ =>
      echoes_complain _ _

theorem echoes_cancel (args : List Value) (site : Token) :
    Echoes w ground (cancel args site) (cancel args site) := by
  refine .bind (echoes_checkArity _ _ _ _ _) fun _ =>
    .bind (echoes_coroutineArg _ _ _) fun task => ?_
  refine .bind echoes_get fun _ => .ite ?_ ?_
  · exact .bind (echoes_onWorld fun w => w.stands_cancel task) fun _ => .pure _
  · exact .bind (echoes_onWorld fun w => w.stands_flagCancelled task) fun _ => .pure _

theorem echoes_lengthOf (args : List Value) (site : Token) :
    Echoes w ground (lengthOf args site) (lengthOf args site) := by
  refine .bind (echoes_checkArity _ _ _ _ _) fun _ => .bind (echoes_ask _) fun heap => ?_
  cases args.headD .null with
  | str | array | tuple | dict => exact .bind (.pure _) fun _ => .pure _
  | _ => exact .bind (echoes_complain _ _) fun _ => .pure _

theorem echoes_sliceText (args : List Value) (site : Token) :
    Echoes w ground (sliceText args site) (sliceText args site) := by
  refine .bind (echoes_checkArity _ _ _ _ _) fun _ => ?_
  split
  · refine .bind (.mapM (fun v => ?_) _) fun bounds => ?_
    · unfold sliceIndex
      split
      · exact .pure _
      · exact echoes_complain _ _
    · split <;> exact .pure _
  · exact echoes_complain _ _

theorem echoes_append (receiver : Option Value) (args : List Value) (site : Token) :
    Echoes w ground (append receiver args site) (append receiver args site) := by
  refine .bind (echoes_checkArity _ _ _ _ _) fun _ => ?_
  split
  · exact .bind (echoes_onHeap _) fun _ => .pure _
  · exact echoes_complain _ _

/-! ### Any call -/

section Jobs

variable {j j' : Jobs} (hj : j.Echo w ground j')

include hj

theorem echoes_objectText (site : Token) (r : Ref .object) :
    Echoes w ground (objectText j site r) (objectText j' site r) := by
  refine .bind (echoes_ask _) fun found => ?_
  split
  · exact .pure _
  · refine .bind (echoes_ask _) fun isAsync => .guard (echoes_complain _ _) ?_
    refine .bind (echoes_newMethod _) fun method => .bind (hj.invoke _ _ _) fun v => ?_
    split
    · exact .pure _
    · exact echoes_complain _ _

omit hj in
theorem echoes_renderWith {hold : List Value → Eval (List String) → Eval (List String)}
    {object object' : Ref .object → Eval (Option String)}
    (hhold : ∀ vs {x x'}, Echoes w ground x x' →
      Echoes w ground (hold vs x) (hold vs x'))
    (hobject : ∀ r, Echoes w ground (object r) (object' r)) (depth : Nat) (v : Value) :
    Echoes w ground (World.render (ask id) hold object depth v)
      (World.render (ask id) hold object' depth v) := by
  -- on the depth that is left; below a container every item is written with one less
  induction depth generalizing v with
  | zero => exact .pure _
  | succ depth ih =>
    cases v with
    | array r | tuple r =>
      exact .bind (echoes_ask _) fun _ => .bind (hhold _ (.mapM ih _)) fun _ => .pure _
    | dict r =>
      refine .bind (echoes_ask _) fun _ => .bind (hhold _ (.mapM (fun e => ?_) _)) fun _ => .pure _
      exact .bind (ih _) fun _ => .pure _
    | object r =>
      refine .bind (hobject _) fun text => ?_
      split
      · exact .pure _
      · exact .bind (echoes_ask _) fun _ => .pure _
    | _ => exact .bind (echoes_ask _) fun _ => .pure _

theorem echoes_render (v : Value) (site : Token) :
    Echoes w ground (render j v site) (render j' v site) :=
  .holding _ (echoes_renderWith (fun vs _ _ h => .holding vs h) (echoes_objectText hj site) _ v)

theorem echoes_showValues (args : List Value) (site : Token) :
    Echoes w ground (showValues j args site) (showValues j' args site) :=
  .bind (.holding _ (.mapM (fun v => echoes_render hj v site) _)) fun _ =>
    .bind (echoes_emit _) fun _ => .pure _

theorem echoes_callNative (n : Nat) (native : Native) (receiver : Option Value) (args : CallArgs)
    (site : Token) : Echoes w ground (callNative j n native receiver args site)
      (callNative j' n native receiver args site) := by
  refine .ite ?_ ?_
  on_goal 1 => split
  on_goal 1 => refine .bind (echoes_complain _ _) fun _ => ?_
  all_goals cases native with
  | «show» => exact echoes_showValues hj _ _
  | len => exact echoes_lengthOf _ _
  | slice => exact echoes_sliceText _ _
  | type => exact .bind (echoes_checkArity _ _ _ _ _) fun _ => .pure _
  | append => exact echoes_append _ _ _
  | weave => exact .holding _ (echoes_weave hj n _ _)
  | spawnTask => exact echoes_spawnTask _ _
  | rest => exact echoes_rest _ _
  | gather => exact echoes_gather _ _
  | cancel => exact echoes_cancel _ _
  | yieldNow => exact echoes_yieldNow _ _

theorem echoes_callFunction (n : Nat) (r : Ref .function) (receiver : Option Value)
    (owner : Option (Ref .blueprint)) (args : CallArgs) (site : Token) :
    Echoes w ground (callFunction j n r receiver owner args site)
      (callFunction j' n r receiver owner args site) := by
  refine .bind (echoes_ask _) fun f => ?_
  split
  · exact echoes_callNative hj n _ _ _ _
  · exact .ite (echoes_spawn _ _ _ _ _) (echoes_callScript hj _ _ _ _ _)

theorem echoes_dispatch (n : Nat) (callee : Value) (args : CallArgs) (site : Token) :
    Echoes w ground (dispatch j n callee args site) (dispatch j' n callee args site) := by
  refine .holding _ ?_
  split
  · exact echoes_callFunction hj n _ _ _ _ _
  · exact .bind (echoes_ask _) fun _ => echoes_callFunction hj n _ _ _ _ _
  · exact echoes_instantiate hj _ _ _
  · exact echoes_complain _ _

theorem echoes_invokeValue (n : Nat) (callee : Value) (args : CallArgs) (site : Token) :
    Echoes w ground (invokeValue j n callee args site)
      (invokeValue j' n callee args site) := by
  refine .bind echoes_replayed fun outcome => ?_
  split
  · exact echoes_resume _
  · refine .bind (.lift (.attempt (.bind (echoes_dispatch hj _ _ _ _) fun _ => echoes_own _)))
      fun _ => ?_
    split
    · exact echoes_settle _
    · exact echoes_settle _
    · exact .stop _

/-! ### Operands -/

omit hj in
theorem echoes_unlessSkipping {x x' : Eval Held} (hx : Echoes w ground x x') :
    Echoes w ground (unlessSkipping x) (unlessSkipping x') :=
  .bind echoes_isSkipping fun _ => .ite (.pure _) hx

theorem echoes_items (close : TokenKind) (n : Nat) (read : List Value) :
    Echoes w ground (items j close n read) (items j' close n read) := by
  induction n generalizing read with
  | zero => exact .lift echoes_exhausted
  | succ n ih =>
    refine .bind echoes_kind fun _ => .ite (.pure _) ?_
    refine .bind (.holding _ hj.expression) fun _ => .bind (echoes_own _) fun _ => ?_
    exact .bind (.lift (echoes_skipOver _)) fun _ => .ite (ih _) (.pure _)

omit hj in
theorem echoes_isNamed : Echoes w ground arguments.isNamed arguments.isNamed := by
  refine .bind echoes_kind fun _ => .ite (.pure _) (.bind echoes_get fun m => ?_)
  split
  · exact .pure _
  · exact echoes_fail _

omit hj in
theorem echoes_finishArguments (args : CallArgs) :
    Echoes w ground (arguments.finish args) (arguments.finish args) :=
  .bind (echoes_advance _) fun _ => .pure _

theorem echoes_arguments (n : Nat) (args : CallArgs) :
    Echoes w ground (arguments j n args) (arguments j' n args) := by
  induction n generalizing args with
  | zero => exact .lift echoes_exhausted
  | succ n ih =>
    refine .bind echoes_kind fun _ => .ite (.lift (echoes_finishArguments _)) ?_
    -- an argument that has been read is followed by a comma or by the end of the list
    have more (args : CallArgs) : Echoes w ground
        (do if ← skipOver .comma then arguments j n args else arguments.finish args : Eval CallArgs)
        (do if ← skipOver .comma then arguments j' n args else arguments.finish args) :=
      .bind (.lift (echoes_skipOver _)) fun _ => .ite (ih _) (.lift (echoes_finishArguments _))
    refine .bind (.lift echoes_isNamed) fun named => .ite ?_ ?_
    · refine .bind (.lift echoes_bump) fun _ => .bind (.lift echoes_bump) fun _ => ?_
      exact .bind (.holding _ hj.expression) fun _ => .bind (echoes_own _) fun _ =>
        .bind (.pure _) fun _ => more _
    · split
      · exact .bind (.lift (echoes_malformed _ _)) fun _ => more _
      · exact .bind (.holding _ hj.expression) fun _ => .bind (echoes_own _) fun _ =>
          .bind (.pure _) fun _ => more _

theorem echoes_tupleItems (n : Nat) (read : List Value) :
    Echoes w ground (tupleItems j n read) (tupleItems j' n read) := by
  induction n generalizing read with
  | zero => exact .lift echoes_exhausted
  | succ n ih =>
    refine .bind (.lift (echoes_skipOver _)) fun _ => .ite (.pure _) ?_
    refine .bind echoes_kind fun _ => .ite (.pure _) ?_
    exact .bind (.holding _ hj.expression) fun _ => .bind (echoes_own _) fun _ => ih _

theorem echoes_parenthesized (n : Nat) :
    Echoes w ground (parenthesized j n) (parenthesized j' n) := by
  refine .bind (.lift (echoes_skipOver _)) fun _ => .ite ?_ ?_
  · exact echoes_unlessSkipping (.bind (echoes_onHeap _) fun _ => .pure _)
  · refine .bind hj.expression fun _ => .bind echoes_kind fun _ => .ite ?_ ?_
    · exact .bind (.lift (echoes_advance _)) fun _ => .pure _
    · refine .bind (echoes_own _) fun _ => .bind (echoes_tupleItems hj _ _) fun _ => ?_
      refine .bind (.lift (echoes_advance _)) fun _ => ?_
      exact echoes_unlessSkipping (.bind (echoes_onHeap _) fun _ => .pure _)

theorem echoes_arrayLiteral (n : Nat) :
    Echoes w ground (arrayLiteral j n) (arrayLiteral j' n) :=
  .bind (echoes_items hj _ _ _) fun _ => .bind (.lift (echoes_advance _)) fun _ =>
    echoes_unlessSkipping (.bind (echoes_onHeap _) fun _ => .pure _)

theorem echoes_dictEntries (n : Nat) (d : Dict Value) :
    Echoes w ground (dictEntries j n d) (dictEntries j' n d) := by
  induction n generalizing d with
  | zero => exact .lift echoes_exhausted
  | succ n ih =>
    refine .bind echoes_kind fun _ => .ite (.pure _) ?_
    refine .bind echoes_current fun _ => .bind (.holding _ hj.expression) fun key => ?_
    refine .bind (.lift (echoes_advance _)) fun _ => ?_
    refine .bind (.holding _ hj.expression) fun _ => .bind (echoes_own _) fun _ => ?_
    have more (d : Dict Value) : Echoes w ground
        (do if ← skipOver .comma then dictEntries j n d else return d : Eval (Dict Value))
        (do if ← skipOver .comma then dictEntries j' n d else return d) :=
      .bind (.lift (echoes_skipOver _)) fun _ => .ite (ih _) (.pure _)
    refine .bind echoes_isSkipping fun _ => .ite (.bind (.pure _) fun _ => more _) ?_
    -- only a text is a key
    cases key.value with
    | str k => exact .bind (.pure _) fun _ => more _
    | _ => exact .bind (echoes_complain _ _) fun _ => more _

theorem echoes_dictLiteral (n : Nat) :
    Echoes w ground (dictLiteral j n) (dictLiteral j' n) :=
  .bind (echoes_dictEntries hj _ _) fun _ => .bind (.lift (echoes_advance _)) fun _ =>
    echoes_unlessSkipping (.bind (echoes_onHeap _) fun _ => .pure _)

theorem echoes_embedded (code : List Char) (site : Token) :
    Echoes w ground (embedded j code site) (embedded j' code site) := by
  refine .bind echoes_get fun m => ?_
  refine .bind (echoes_modify fun _ => .of_eq rfl rfl rfl rfl rfl rfl rfl rfl (.same rfl rfl)) fun _ => ?_
  split
  · exact .lift (echoes_malformed _ _)
  · refine .bind echoes_get fun m => .bind (echoes_modifyThread fun _ => rfl) fun _ => ?_
    refine .bind (.restoring _ (.bind hj.expression fun _ => .bind echoes_kind fun _ => .pure _))
      fun _ => ?_
    exact .guard (.lift (echoes_malformed _ _)) (echoes_own _)

theorem echoes_fill (site : Token) (done : String) (t : Template) :
    Echoes w ground (fill j site done t) (fill j' site done t) := by
  induction t generalizing done with
  | plain text => exact .pure _
  | broken => exact .lift (echoes_malformed _ _)
  | hole before code rest ih =>
    exact .bind (echoes_embedded hj _ _) fun _ => .bind (echoes_render hj _ _) fun _ => ih _

theorem echoes_interpolate (token : Token) :
    Echoes w ground (interpolate j token) (interpolate j' token) := echoes_fill hj _ _ _

omit hj in
theorem echoes_variable (token : Token) : Echoes w ground
    (do
      match ← lookup token.text with
      | some v => return .view v
      | none => complain (.undefinedVariable token.text) token : Eval Held)
    (do
      match ← lookup token.text with
      | some v => return .view v
      | none => complain (.undefinedVariable token.text) token) := by
  refine .bind (echoes_lookup _) fun found => ?_
  split
  · exact .pure _
  · exact echoes_complain _ _

omit hj in
theorem echoes_name (token : Token) : Echoes w ground (name token) (name token) := by
  refine .bind echoes_kind fun _ => .ite ?_ (echoes_variable token)
  split
  · exact .bind (echoes_newFunction _) fun _ => .pure _
  · exact echoes_variable token

theorem echoes_primary (n : Nat) : Echoes w ground (primary j n) (primary j' n) := by
  refine .bind (.lift echoes_bump) fun token => ?_
  cases token.kind with
  | int | float | kwTrue | kwFalse | kwNull => exact .pure _
  | str => exact echoes_unlessSkipping (.bind (echoes_interpolate hj _) fun _ => .pure _)
  | lparen => exact echoes_parenthesized hj n
  | lbracket => exact echoes_arrayLiteral hj n
  | lbrace => exact echoes_dictLiteral hj n
  | ident => exact echoes_unlessSkipping (echoes_name _)
  | kwSuper => exact echoes_unlessSkipping (echoes_superProxy _)
  | _ => exact .lift (echoes_malformed _ _)

theorem echoes_chain (n : Nat) (v : Held) :
    Echoes w ground (chain j n v) (chain j' n v) := by
  induction n generalizing v with
  | zero => exact .lift echoes_exhausted
  | succ n ih =>
    refine .bind echoes_kind fun k => ?_
    split
    · -- a word that may be a keyword too stands behind the dot
      have member (member : Token) : Echoes w ground (do
          if ← isSkipping then chain j n v
          else chain j n (← readAttribute v member.text member) : Eval Held) (do
          if ← isSkipping then chain j' n v
          else chain j' n (← readAttribute v member.text member) : Eval Held) :=
        .bind echoes_isSkipping fun _ => .ite (ih _)
          (.bind (echoes_readAttribute _ _ _) fun _ => ih _)
      refine .bind (.lift echoes_bump) fun _ => .bind echoes_kind fun _ => .ite ?_ ?_
      · exact .bind (.lift echoes_bump) member
      · exact .bind (.lift (echoes_advance _)) member
    · refine .bind (.lift echoes_bump) fun _ => .bind (.holding _ hj.expression) fun _ => ?_
      refine .bind (.lift (echoes_advance _)) fun _ => .bind echoes_isSkipping fun _ => ?_
      exact .ite (ih _) (.bind (echoes_own _) fun _ => .bind (echoes_readItem _ _ _) fun _ => ih _)
    · refine .bind (.lift echoes_bump) fun _ =>
        .bind (.holding _ (echoes_arguments hj _ _)) fun _ => ?_
      exact .bind echoes_isSkipping fun _ => .ite (ih _)
        (.bind (hj.invoke _ _ _) fun _ => ih _)
    · exact .pure _

theorem echoes_power (n : Nat) : Echoes w ground (power j n) (power j' n) := by
  refine .bind (echoes_primary hj n) fun _ => .bind (echoes_chain hj n _) fun _ => ?_
  refine .bind echoes_kind fun _ => .ite (.pure _) ?_
  refine .bind (.lift echoes_bump) fun _ => .bind (.holding _ hj.unary) fun _ => ?_
  exact echoes_unlessSkipping (.bind (echoes_orComplain _ _) fun _ => .pure _)

/-! ### Waiting and operators -/

omit hj in
theorem echoes_launch (target : Ref .coroutine) :
    Echoes w ground (launch target) (launch target) := by
  refine .bind (echoes_ask _) fun _ => .ite ?_ (.pure _)
  exact .bind echoes_get fun _ => .guard (.lift (echoes_fail _))
    (echoes_modifyWorld fun w => w.stands_start target)

omit hj in
theorem echoes_waitFor (keyword : Token) (v : Value) :
    Echoes w ground (waitFor keyword v) (waitFor keyword v) := by
  refine .bind (echoes_ask _) fun target => ?_
  split
  · exact echoes_complain _ _
  · refine .bind echoes_get fun m => ?_
    split
    · exact .lift (echoes_fail _)
    · refine .guard (echoes_complain _ _) (.bind (echoes_launch _) fun _ => ?_)
      refine .bind (echoes_ask _) fun c => .ite ?_ ?_
      · exact .bind (echoes_onHeap _) fun _ => echoes_settle _
      · exact .bind (echoes_modifyWorld fun _ => .same rfl rfl) fun _ => .stop _

theorem echoes_awaitExpr : Echoes w ground (awaitExpr j) (awaitExpr j') := by
  refine .bind (.lift (echoes_advance _)) fun _ => .bind echoes_mode fun _ => ?_
  refine .guard (.lift (echoes_malformed _ _)) (.bind hj.unary fun _ => ?_)
  refine .bind echoes_isSkipping fun _ => .ite (.pure _) (.bind echoes_replayed fun outcome => ?_)
  split
  · exact echoes_resume _
  · exact echoes_waitFor _ _

theorem echoes_unaryExpr (n : Nat) : Echoes w ground (unaryExpr j n) (unaryExpr j' n) := by
  refine .bind echoes_kind fun k => ?_
  split
  · refine .bind (.lift echoes_bump) fun _ => .bind hj.unary fun _ => ?_
    exact echoes_unlessSkipping (.bind (echoes_truthy _) fun _ => .pure _)
  · refine .bind (.lift echoes_bump) fun _ => .bind hj.unary fun _ => ?_
    exact echoes_unlessSkipping (.bind (echoes_orComplain _ _) fun _ => .pure _)
  · exact echoes_awaitExpr hj
  · exact echoes_power hj n

omit hj in
theorem echoes_repeated (text : String) (count : Int) (op : Token) :
    Echoes w ground (repeated text count op) (repeated text count op) := by
  have written : Echoes w ground (do
      if maxTextBytes < text.utf8ByteSize * count.toNat then
        fail (.system (.repeatTooLong count op.line))
      return .str (repeatText text count.toNat) : Eval Value) (do
      if maxTextBytes < text.utf8ByteSize * count.toNat then
        fail (.system (.repeatTooLong count op.line))
      return .str (repeatText text count.toNat) : Eval Value) :=
    .guard (.lift (echoes_fail _)) (.pure _)
  exact .ite (.bind (echoes_complain _ _) fun _ => written) written

omit hj in
theorem echoes_multiply (op : Token) (a b : Value) :
    Echoes w ground (multiply op a b) (multiply op a b) := by
  unfold multiply
  split
  · exact echoes_repeated _ _ _
  · exact echoes_repeated _ _ _
  all_goals exact echoes_orComplain _ _

theorem echoes_multiplicativeTail (n : Nat) (left : Held) :
    Echoes w ground (multiplicativeTail j n left) (multiplicativeTail j' n left) := by
  induction n generalizing left with
  | zero => exact .lift echoes_exhausted
  | succ n ih =>
    refine .bind echoes_kind fun k => ?_
    cases k with
    | star | slash | percent =>
      refine .bind (.lift echoes_bump) fun _ => .bind (.holding _ hj.unary) fun _ => ?_
      exact .bind echoes_isSkipping fun _ => .ite (ih _)
        (.bind (echoes_multiply _ _ _) fun _ => ih _)
    | _ => exact .pure _

theorem echoes_multiplicative (n : Nat) :
    Echoes w ground (multiplicative j n) (multiplicative j' n) :=
  .bind hj.unary fun _ => echoes_multiplicativeTail hj n _

theorem echoes_add (op : Token) (left right : Held) :
    Echoes w ground (add j op left right) (add j' op left right) := by
  unfold add
  split
  on_goal 3 =>
    refine .bind (echoes_ask _) fun found => ?_
    split
    · exact echoes_complain _ _
    · exact .bind (echoes_newMethod _) fun _ => .bind (echoes_own _) fun _ =>
        .holding _ (hj.invoke _ _ _)
  on_goal 3 => exact .bind (echoes_orComplain _ _) fun _ => .pure _
  all_goals exact .holding _ (.bind (echoes_render hj _ _) fun _ =>
    .bind (echoes_render hj _ _) fun _ => .pure _)

theorem echoes_additiveTail (n : Nat) (left : Held) :
    Echoes w ground (additiveTail j n left) (additiveTail j' n left) := by
  induction n generalizing left with
  | zero => exact .lift echoes_exhausted
  | succ n ih =>
    refine .bind echoes_kind fun k => ?_
    split
    · refine .bind (.lift echoes_bump) fun _ =>
        .bind (.holding _ (echoes_multiplicative hj n)) fun _ => ?_
      exact .bind echoes_isSkipping fun _ => .ite (ih _) (.bind (echoes_add hj _ _ _) fun _ => ih _)
    · refine .bind (.lift echoes_bump) fun _ =>
        .bind (.holding _ (echoes_multiplicative hj n)) fun _ => ?_
      exact .bind echoes_isSkipping fun _ => .ite (ih _)
        (.bind (echoes_orComplain _ _) fun _ => ih _)
    · exact .pure _

theorem echoes_additive (n : Nat) : Echoes w ground (additive j n) (additive j' n) :=
  .bind (echoes_multiplicative hj n) fun _ => echoes_additiveTail hj n _

theorem echoes_comparisonTail (n : Nat) (left : Held) :
    Echoes w ground (comparisonTail j n left) (comparisonTail j' n left) := by
  induction n generalizing left with
  | zero => exact .lift echoes_exhausted
  | succ n ih =>
    refine .bind echoes_kind fun k => ?_
    cases k with
    | lt | gt | lte | gte =>
      refine .bind (.lift echoes_bump) fun _ =>
        .bind (.holding _ (echoes_additive hj n)) fun _ => ?_
      exact .bind echoes_isSkipping fun _ => .ite (ih _)
        (.bind (echoes_orComplain _ _) fun _ => ih _)
    | _ => exact .pure _

theorem echoes_comparison (n : Nat) : Echoes w ground (comparison j n) (comparison j' n) :=
  .bind (echoes_additive hj n) fun _ => echoes_comparisonTail hj n _

theorem echoes_identityTail (n : Nat) (left : Held) :
    Echoes w ground (identityTail j n left) (identityTail j' n left) := by
  induction n generalizing left with
  | zero => exact .lift echoes_exhausted
  | succ n ih =>
    refine .bind (.lift (echoes_skipOver _)) fun _ => .ite (.pure _) ?_
    refine .bind (.lift (echoes_skipOver _)) fun _ =>
      .bind (.holding _ (echoes_comparison hj n)) fun _ => ?_
    exact .bind echoes_isSkipping fun _ => .ite (ih _) (ih _)

theorem echoes_identity (n : Nat) : Echoes w ground (identity j n) (identity j' n) :=
  .bind (echoes_comparison hj n) fun _ => echoes_identityTail hj n _

theorem echoes_equalityTail (n : Nat) (left : Held) :
    Echoes w ground (equalityTail j n left) (equalityTail j' n left) := by
  induction n generalizing left with
  | zero => exact .lift echoes_exhausted
  | succ n ih =>
    refine .bind echoes_kind fun k => ?_
    cases k with
    | eq | neq =>
      refine .bind (.lift echoes_bump) fun _ =>
        .bind (.holding _ (echoes_identity hj n)) fun _ => ?_
      exact .bind echoes_isSkipping fun _ => .ite (ih _) (ih _)
    | _ => exact .pure _

theorem echoes_equality (n : Nat) : Echoes w ground (equality j n) (equality j' n) :=
  .bind (echoes_identity hj n) fun _ => echoes_equalityTail hj n _

theorem echoes_andTail (n : Nat) (left : Held) :
    Echoes w ground (andTail j n left) (andTail j' n left) := by
  induction n generalizing left with
  | zero => exact .lift echoes_exhausted
  | succ n ih =>
    refine .bind (.lift (echoes_skipOver _)) fun _ => .ite (.pure _) ?_
    refine .bind echoes_isSkipping fun _ => .bind (echoes_truthy _) fun _ => .ite ?_ ?_
    · exact .bind (.skipping (echoes_equality hj n)) fun _ => ih _
    · exact .bind (.holding _ (echoes_equality hj n)) fun _ => ih _

theorem echoes_andExpr (n : Nat) : Echoes w ground (andExpr j n) (andExpr j' n) :=
  .bind (echoes_equality hj n) fun _ => echoes_andTail hj n _

theorem echoes_orTail (n : Nat) (left : Held) :
    Echoes w ground (orTail j n left) (orTail j' n left) := by
  induction n generalizing left with
  | zero => exact .lift echoes_exhausted
  | succ n ih =>
    refine .bind (.lift (echoes_skipOver _)) fun _ => .ite (.pure _) ?_
    refine .bind echoes_isSkipping fun _ => .bind (echoes_truthy _) fun _ => .ite ?_ ?_
    · exact .bind (.skipping (echoes_andExpr hj n)) fun _ => ih _
    · exact .bind (.holding _ (echoes_andExpr hj n)) fun _ => ih _

theorem echoes_orExpr (n : Nat) : Echoes w ground (orExpr j n) (orExpr j' n) :=
  .bind (echoes_andExpr hj n) fun _ => echoes_orTail hj n _

theorem echoes_skipConditional (n : Nat) :
    Echoes w ground (skipConditional j n) (skipConditional j' n) := by
  refine .bind (echoes_orExpr hj n) fun _ => .bind (.lift (echoes_skipOver _)) fun _ => ?_
  refine .ite ?_ (.pure _)
  exact .bind (echoes_orExpr hj n) fun _ => .bind (.lift (echoes_advance _)) fun _ =>
    .bind hj.expression fun _ => .pure _

theorem echoes_conditional (n : Nat) :
    Echoes w ground (conditional j n) (conditional j' n) := by
  refine .bind echoes_isSkipping fun _ => .ite ?_ ?_
  · exact .bind (echoes_skipConditional hj n) fun _ => .pure _
  · refine .bind echoes_get fun m => ?_
    split
    · exact .lift (echoes_fail _)
    · exact echoes_orExpr hj n
    · refine .bind echoes_capture fun _ => .bind (.skipping (echoes_orExpr hj n)) fun _ => ?_
      refine .bind (.lift (echoes_advance _)) fun _ => .bind (echoes_orExpr hj n) fun _ => ?_
      refine .bind (echoes_truthy _) fun _ => .bind (.lift (echoes_advance _)) fun _ => ?_
      refine .ite hj.expression (.bind (.lift (echoes_rewind _)) fun _ => ?_)
      refine .bind (echoes_orExpr hj n) fun _ => .bind (.skipping ?_) fun _ => .pure _
      exact .bind (.lift (echoes_advance _)) fun _ => .bind (echoes_orExpr hj n) fun _ =>
        .bind (.lift (echoes_advance _)) fun _ => .bind hj.expression fun _ => .pure _

/-! ### Assignments and definitions -/

theorem echoes_accessors (n : Nat) (read : List Accessor) :
    Echoes w ground (accessors j n read) (accessors j' n read) := by
  induction n generalizing read with
  | zero => exact .lift echoes_exhausted
  | succ n ih =>
    refine .bind echoes_kind fun k => ?_
    split
    · exact .bind (.lift echoes_bump) fun _ => .bind (.lift (echoes_advance _)) fun _ => ih _
    · refine .bind (.lift echoes_bump) fun _ => .bind (.holding _ hj.expression) fun _ => ?_
      exact .bind (echoes_own _) fun _ => .bind (.lift (echoes_advance _)) fun _ => ih _
    · exact .pure _

omit hj in
theorem echoes_follow (target : Value) (step : Accessor) :
    Echoes w ground (follow target step) (follow target step) := by
  cases step with
  | member => exact .bind (echoes_readAttribute _ _ _) fun _ => .pure _
  | item => exact .bind (echoes_readItem _ _ _) fun _ => .pure _

omit hj in
theorem echoes_store (target v : Value) (step : Accessor) :
    Echoes w ground (store target v step) (store target v step) := by
  cases step with
  | member => exact echoes_storeAttribute _ _ _ _
  | item => exact echoes_storeItem _ _ _ _

theorem echoes_letStatement (n : Nat) :
    Echoes w ground (letStatement j n) (letStatement j' n) := by
  refine .bind (.lift echoes_bump) fun _ => .bind (.lift (echoes_advance _)) fun _ => ?_
  refine .bind (.lift (echoes_advance _)) fun _ => .bind (echoes_accessors hj _ _) fun steps => ?_
  refine .bind (.lift (echoes_advance _)) fun _ => .bind (.holding _ hj.expression) fun _ => ?_
  refine .bind (echoes_own _) fun _ => .bind (.lift echoes_endStatement) fun _ => ?_
  cases steps with
  | nil => exact .bind (echoes_assign _ _) fun _ => .pure _
  | cons last before =>
    refine .bind (.holding _ (echoes_lookup _)) fun found => ?_
    cases found with
    | none => exact .bind (echoes_complain _ _) fun _ => .pure _
    | some base =>
      exact .bind (.foldlM (fun _ _ => echoes_follow _ _) _ _) fun _ =>
        .bind (echoes_store _ _ _) fun _ => .pure _

theorem echoes_parameter (function : String) (read : List Param) :
    Echoes w ground (parameter j function read) (parameter j' function read) := by
  refine .bind (.lift (echoes_advance _)) fun _ => .guard (.lift (echoes_malformed _ _)) ?_
  refine .bind (.lift (echoes_skipOver _)) fun _ => .ite ?_ ?_
  · exact .bind (.holding _ hj.expression) fun _ => .bind (echoes_own _) fun _ => .pure _
  · exact .guard (.lift (echoes_malformed _ _)) (.pure _)

theorem echoes_parameters (function : String) (n : Nat) (read : List Param) :
    Echoes w ground (parameters j function n read) (parameters j' function n read) := by
  induction n generalizing read with
  | zero => exact .lift echoes_exhausted
  | succ n ih =>
    refine .bind echoes_kind fun _ => .ite (.pure _) (.bind (echoes_parameter hj _ _) fun _ => ?_)
    exact .bind (.lift (echoes_skipOver _)) fun _ => .ite (ih _) (.pure _)

theorem echoes_functStatement (n : Nat) :
    Echoes w ground (functStatement j n) (functStatement j' n) := by
  refine .bind echoes_current fun _ => .bind (.lift (echoes_skipOver _)) fun _ => ?_
  refine .bind (.lift (echoes_advance _)) fun _ => .bind (.lift (echoes_advance _)) fun _ => ?_
  refine .bind (.lift (echoes_advance _)) fun _ => .bind (.lift (echoes_advance _)) fun _ => ?_
  refine .bind (echoes_parameters hj _ _ _) fun _ => .bind (.lift (echoes_advance _)) fun _ => ?_
  refine .bind (.lift (echoes_enterBlock _)) fun _ => .bind echoes_capture fun _ => ?_
  refine .bind (.lift (echoes_skipBody _)) fun _ => .bind echoes_get fun _ => ?_
  refine .bind echoes_scope fun _ => .bind (echoes_newFunction _) fun _ => ?_
  exact .bind (echoes_define _ _) fun _ => .pure _

omit hj in
theorem echoes_parentBlueprint : Echoes w ground parentBlueprint parentBlueprint := by
  refine .bind (.lift (echoes_skipOver _)) fun _ => .ite (.pure _) ?_
  refine .bind (.lift (echoes_advance _)) fun _ => .bind (echoes_lookup _) fun found => ?_
  split
  · exact .pure _
  · exact echoes_complain _ _
  · exact echoes_complain _ _

omit hj in
theorem kept_ownerMachine {base m m' : Machine} {r : Ref .blueprint} {members : Ref .scope}
    (h : Kept base (memberMachine m r members) m') : Kept base m (ownerMachine m m') :=
  ⟨h.environment, h.globals, h.directory, h.callDepth, h.weaving, h.modules, h.distinct, rfl,
    fun _ => rfl, h.lineage, h.scopes⟩

omit hj in
theorem echoes_inBlueprint_bind (r : Ref .blueprint) (members : Ref .scope) {x x' : Run α}
    (hx : Echoes w ground x x') {f f' : Except Fault α → Eval β}
    (herr : ∀ fault, f (.error fault) = throw (.fault fault))
    (herr' : ∀ fault, f' (.error fault) = throw (.fault fault))
    (hok : ∀ a, Echoes w ground (f (.ok a)) (f' (.ok a))) :
    Echoes w ground (inBlueprint r members x >>= f) (inBlueprint r members x' >>= f') := by
  intro m hm
  have run (x : Run α) (f : Except Fault α → Eval β) : (inBlueprint r members x >>= f) m =
      EStateM.bind (inBlueprint r members x) f m := rfl
  refine .caught (memberMachine m r members) (ownerMachine m)
    (fun h => ?_) (fun h => ?_) (fun h => ?_) (fun h => ?_) kept_ownerMachine (fun _ _ => rfl) hm hok
    (hx _ (hm.enter (memberMachine m r members) hm.distinct hm.directory hm.entries rfl hm.depth
      hm.lineage ground.away))
  all_goals rw [run]; unfold EStateM.bind; rw [inBlueprint_run, h]
  · exact congrFun (herr _) _
  · exact congrFun (herr' _) _

omit hj in
theorem echoes_newBlueprint (name : String) (parent : Option (Ref .blueprint))
    (outer : Ref .scope) : Echoes w ground
      (onWorld (·.newBlueprint name parent outer) : Eval (Ref .blueprint × Ref .scope))
      (onWorld (·.newBlueprint name parent outer)) :=
  fun _ _ => .ok _ ⟨rfl, rfl, rfl, rfl, rfl, ⟨[], rfl, nofun⟩, id, rfl, fun _ => rfl,
    fun hl => World.lineage_newBlueprint hl parent outer, .push _ _ _⟩

theorem echoes_blueprintStatement :
    Echoes w ground (blueprintStatement j) (blueprintStatement j') := by
  refine .bind (.lift echoes_bump) fun _ => .bind (.lift (echoes_advance _)) fun _ => ?_
  refine .bind (.lift (echoes_advance _)) fun name => .bind echoes_parentBlueprint fun parent => ?_
  refine .bind (.lift (echoes_enterBlock _)) fun _ => .bind echoes_scope fun outer => ?_
  refine .bind (echoes_newBlueprint _ _ _) fun p => ?_
  obtain ⟨r, members⟩ := p
  refine echoes_inBlueprint_bind r members (hj.inner _) (fun _ => rfl) (fun _ => rfl) fun status => ?_
  cases status with
  | normal => exact .bind (echoes_define _ _) fun _ => .pure _
  | _ => exact .pure _

/-! ### Modules -/

omit hj in
theorem echoes_moduleName : Echoes w ground moduleName moduleName := by
  refine .bind echoes_kind fun k => ?_
  split
  · exact echoes_bump
  · exact echoes_bump
  · exact .bind echoes_current fun _ => echoes_malformed _ _

omit hj in
theorem echoes_alias? : Echoes w ground alias? alias? := by
  refine .bind (echoes_skipOver _) fun _ => .ite ?_ (.pure _)
  exact .bind (echoes_advance _) fun _ => .pure _

omit hj in
theorem echoes_selection (n : Nat) (read : List (Token × Option Token)) :
    Echoes w ground (selection n read) (selection n read) := by
  induction n generalizing read with
  | zero => exact echoes_exhausted
  | succ n ih =>
    refine .bind echoes_kind fun _ => .ite (.pure _) ?_
    refine .bind (echoes_advance _) fun _ => .bind echoes_alias? fun _ => ?_
    exact .bind (echoes_skipOver _) fun _ => .ite (ih _) (.pure _)

omit hj in
theorem echoes_bindSelection (exported : Value) (module : String)
    (names : List (Token × Option Token)) :
    Echoes w ground (bindSelection exported module names)
      (bindSelection exported module names) := by
  induction names with
  | nil => exact .pure _
  | cons name names ih =>
    obtain ⟨item, renamed⟩ := name
    have member : Echoes w ground (bindSelection.member? exported item.text)
        (bindSelection.member? exported item.text) := by
      unfold bindSelection.member?
      split
      · exact echoes_ask _
      · exact .pure _
    refine .bind member fun found => ?_
    split
    · exact echoes_complain _ _
    · exact .bind (echoes_onHeap _) fun _ => .bind (echoes_define _ _) fun _ => ih

end Jobs

end Eval

end Rewind
