/-
Statements and bodies are orderly.

Every construct passes its header, runs its body and goes on behind it.  If the body has yielded, the
construct asks for a frame, and the frame it is taken up from later is of the kind it has asked for.

* `orderly_letStatement`, `orderly_functStatement`, … — statements without a body that can yield;
* `orderly_ifStatement`, `orderly_loopStatement`, `orderly_tryStatement` — constructs;
* `orderly_enter`, `orderly_runBody` — statements with their frames, and bodies;
* `works_jobs` — the jobs do what they should, whatever the fuel.
-/
import Rewind.Proofs.Expressions

namespace Rewind.Eval

variable {A : Source → Prop} {b : Bool} {ε : Type} [Stops ε] {j : Jobs} (hj : Works j)

/-- A failure ends a statement in whatever stands behind it. -/
theorem orderly_malformed_bind {α : Type} (issue : SyntaxIssue) (site : Token)
    (f : α → Eval Status) : Orderly b A ((liftM (malformed issue site : Run α) : Eval α) >>= f) :=
  fun _ _ hm _ _ => (Settles.refl hm.sound).breaks_self trivial

theorem orderly_malformed (issue : SyntaxIssue) (site : Token) :
    Orderly b A (liftM (malformed issue site : Run Status) : Eval Status) :=
  fun _ _ hm _ _ => (Settles.refl hm.sound).breaks_self trivial

theorem orderly_complain (complaint : Complaint) (site : Token) :
    Orderly b A (complain complaint site : Eval Status) :=
  fun _ _ hm _ _ => (Settles.refl hm.sound).passes

theorem orderly_exhausted : Orderly b A (liftM (exhausted : Run Status) : Eval Status) :=
  fun _ _ hm _ _ => (Settles.refl hm.sound).breaks_self trivial

/-! ### Assignment -/

include hj

theorem quiet_accessors (n : Nat) (read : List Accessor) : Quiet A (accessors j n read) := by
  induction n generalizing read with
  | zero => exact .lift quiet_exhausted
  | succ n ih =>
    refine .bind quiet_kind fun k => ?_
    split
    · exact .bind (.lift quiet_bump) fun _ => .bind (.lift (quiet_advance _)) fun _ => ih _
    · refine .bind (.lift quiet_bump) fun _ => .bind (quiet_holding _ hj.expression) fun _ => ?_
      exact .bind (quiet_own _) fun _ => .bind (.lift (quiet_advance _)) fun _ => ih _
    · exact .pure _

omit hj in
theorem quiet_follow (target : Value) (step : Accessor) : Quiet A (follow target step) := by
  cases step with
  | member name site => exact .bind (quiet_readAttribute _ _ _) fun _ => .pure _
  | item index site => exact .bind (quiet_readItem _ _ _) fun _ => .pure _

omit hj in
theorem quiet_store (target v : Value) (step : Accessor) : Quiet A (store target v step) := by
  cases step with
  | member name site => exact quiet_storeAttribute _ _ _ _
  | item index site => exact quiet_storeItem _ _ _ _

theorem orderly_letStatement (n : Nat) : Orderly b A (letStatement j n) := by
  refine .bind (.lift quiet_bump) fun _ => .bind (.lift (quiet_advance _)) fun _ => ?_
  refine .bind (.lift (quiet_advance _)) fun name => .bind (quiet_accessors hj n _) fun steps => ?_
  refine .bind (.lift (quiet_advance _)) fun _ => .bind (quiet_holding _ hj.expression) fun _ => ?_
  refine .bind (quiet_own _) fun v => .bind (.lift quiet_endStatement) fun _ => ?_
  split
  · exact .bind (quiet_assign _ _) fun _ => .pure (by simp)
  · refine .bind (quiet_holding _ (quiet_lookup _)) fun base => ?_
    split
    · exact .bind (quiet_complain _ _) fun _ => .pure (by simp)
    · refine .bind (quiet_foldlM (fun _ _ => quiet_follow _ _) _ _) fun _ => ?_
      exact .bind (quiet_store _ _ _) fun _ => .pure (by simp)

/-! ### Statements that leave a body -/

theorem quiet_resultItems (n : Nat) (read : List Value) : Quiet A (resultItems j n read) := by
  induction n generalizing read with
  | zero => exact .lift quiet_exhausted
  | succ n ih =>
    refine .bind (.lift (quiet_skipOver _)) fun _ => .ite (fun _ => ?_) fun _ => .pure _
    exact .bind (quiet_holding _ hj.expression) fun _ => .bind (quiet_own _) fun _ => ih _

theorem orderly_returnStatement (n : Nat) : Orderly b A (returnStatement j n) := by
  have left (v : Value) : Orderly b A (do
      endStatement
      return .leaving (.result v) : Eval Status) :=
    .bind (.lift quiet_endStatement) fun _ => .pure (by simp)
  have valued : Orderly b A (do
      let first ← own (← j.expression)
      let v ←
        if (← kind) = .comma then
          let values ← resultItems j n [first]
          onHeap (Heap.newTuple values.toArray)
        else pure first
      endStatement
      return .leaving (.result v) : Eval Status) := by
    refine .bind hj.expression fun _ => .bind (quiet_own _) fun _ => .bind quiet_kind fun _ => ?_
    refine .ite (fun _ => ?_) fun _ => .bind (.pure _) left
    exact .bind (quiet_resultItems hj n _) fun _ => .bind (quiet_onHeap _) left
  refine .bind (.lift quiet_bump) fun keyword => .bind quiet_mode fun _ => ?_
  refine .ite (fun _ => orderly_malformed_bind _ _ _) fun _ => ?_
  refine .bind (.lift (quiet_advance _)) fun _ => .bind quiet_current fun _ => ?_
  exact .ite (fun _ => .pure (by simp)) fun _ => valued

theorem orderly_raiseStatement : Orderly b A (raiseStatement j) := by
  refine .bind (.lift quiet_bump) fun keyword => .bind (.lift (quiet_advance _)) fun _ => ?_
  refine .bind hj.expression fun _ => .bind (quiet_own _) fun v => ?_
  refine .bind (.lift quiet_endStatement) fun _ => ?_
  split
  · exact .pure (by simp)
  · exact orderly_complain _ _

omit hj in
theorem orderly_loopSignal (signal : Signal) : Orderly b A (loopSignal signal) := by
  refine .bind quiet_current fun _ => .bind quiet_mode fun _ => ?_
  refine .ite (fun _ => orderly_malformed_bind _ _ _) fun _ => ?_
  exact .bind (.lift quiet_bump) fun _ => .bind (.lift quiet_endStatement) fun _ => .pure (by simp)

omit hj in
theorem orderly_skipStatement : Orderly b A skipStatement :=
  .bind (.lift quiet_bump) fun _ => .bind (.lift quiet_endStatement) fun _ => .pure (by simp)

theorem orderly_expressionStatement : Orderly b A (expressionStatement j) :=
  .bind hj.expression fun _ => .bind (.lift quiet_endStatement) fun _ => .pure (by simp)

/-! ### Definitions -/

theorem quiet_parameter (function : String) (read : List Param) :
    Quiet A (parameter j function read) := by
  refine .bind (.lift (quiet_advance _)) fun token => ?_
  have rest : Quiet A (do
      if ← skipOver .assign then
        let v ← own (← holding (read.filterMap (·.default)) j.expression)
        return ⟨token.text, some v⟩
      if read.any (·.default.isSome) then malformed (.defaultMissing token.text) token
      return ⟨token.text, none⟩ : Eval Param) := by
    refine .bind (.lift (quiet_skipOver _)) fun _ => .ite (fun _ => ?_) fun _ => ?_
    · exact .bind (quiet_holding _ hj.expression) fun _ => .bind (quiet_own _) fun _ => .pure _
    · exact .ite (fun _ => .bind (.lift (quiet_malformed _ _)) fun _ => .pure _) fun _ => .pure _
  exact .ite (fun _ => .bind (.lift (quiet_malformed _ _)) fun _ => rest) fun _ => rest

theorem quiet_parameters (function : String) (n : Nat) (read : List Param) :
    Quiet A (parameters j function n read) := by
  induction n generalizing read with
  | zero => exact .lift quiet_exhausted
  | succ n ih =>
    refine .bind quiet_kind fun _ => .ite (fun _ => .pure _) fun _ => ?_
    refine .bind (quiet_parameter hj _ _) fun _ => .bind (.lift (quiet_skipOver _)) fun _ => ?_
    exact .ite (fun _ => ih _) fun _ => .pure _

/-- The body of a function that is defined starts at a token of the source. -/
theorem orderly_functStatement (n : Nat) : Orderly b A (functStatement j n) := by
  refine .bind quiet_current fun _ => .bind (.lift (quiet_skipOver _)) fun isAsync => ?_
  refine .bind (.lift (quiet_advance _)) fun _ => .bind (.lift (quiet_advance _)) fun _ => ?_
  refine .bind (.lift (quiet_advance _)) fun name => .bind (.lift (quiet_advance _)) fun _ => ?_
  refine .bind (quiet_parameters hj _ n _) fun params => .bind (.lift (quiet_advance _)) fun _ => ?_
  refine .bind (.lift (quiet_enterBlock _)) fun _ => .capture_bind fun entry => ?_
  refine .bind (.lift (quiet_skipBody _)) fun _ => .get_bind fun c m hm hr hs => ?_
  refine (Orderly.bind (A := fun s => A s ∧ s.Marks entry) quiet_scope fun scope =>
    .bind (quiet_newFunction ?_) fun _ => .bind (quiet_define _ _) fun _ => .pure (by simp)) c m hm hr hs
  intro body hb
  obtain rfl := Body.script.inj hb
  exact hs.2

omit hj in
theorem quiet_parentBlueprint : Quiet A parentBlueprint := by
  refine .bind (.lift (quiet_skipOver _)) fun _ => .ite (fun _ => .pure _) fun _ => ?_
  refine .bind (.lift (quiet_advance _)) fun _ => .bind (quiet_lookup _) fun found => ?_
  split
  · exact .pure _
  · exact quiet_complain _ _
  · exact quiet_complain _ _

/-- The machine in which the body of a blueprint runs. -/
def memberMachine (m : Machine) (r : Ref .blueprint) (members : Ref .scope) : Machine :=
  { m with
    thread := { m.thread with scope := members, mode := .blueprintBody r, tape := {} }
    pinned := .thread m.thread.waiting :: m.pinned }

/-- The machine behind a blueprint whose body has come to `m'`. -/
def ownerMachine (m m' : Machine) : Machine :=
  { m' with
    thread := { m'.thread with
      scope := m.thread.scope, mode := m.thread.mode, tape := m.thread.tape }
    pinned := m.pinned }

omit hj in
theorem inBlueprint_run {α : Type} (r : Ref .blueprint) (members : Ref .scope) (x : Run α)
    (m : Machine) : inBlueprint r members x m = match x (memberMachine m r members) with
      | .ok a m' => .ok (.ok a) (ownerMachine m m')
      | .error f m' => .ok (.error f) (ownerMachine m m') := by
  simp only [inBlueprint, bind, EStateM.bind, get_run,
    modifyThread, modify_run, pinning, catchFault]
  have enter : memberMachine m r members = { m with
      thread := { m.thread with scope := members, mode := .blueprintBody r, tape := {} }
      pinned := .thread m.thread.waiting :: m.pinned } := rfl
  rw [← enter]
  cases x (memberMachine m r members) <;> rfl

omit hj in
theorem steady_ownerMachine {m m' : Machine} {r : Ref .blueprint} {members : Ref .scope}
    (h : Steady (memberMachine m r members) m') : Steady m (ownerMachine m m') :=
  ⟨⟨rfl, h.environment, h.globals, h.directory, h.callDepth, h.weaving⟩, h.task, h.driven⟩

omit hj in
theorem passes_ownerMachine {c : Control} {m m' : Machine} {r : Ref .blueprint}
    {members : Ref .scope} (h : Passes c (memberMachine m r members) m') :
    Passes c m (ownerMachine m m') :=
  ⟨⟨steady_ownerMachine h.1.toSteady, rfl, h.1.skip, h.1.parked, h.1.parking, h.1.source, h.1.sound,
    h.1.resume⟩, h.2⟩

omit hj in
/-- The body of a blueprint cannot yield, since it is not the body of a coroutine. -/
theorem carried_memberMachine {c : Control} {m : Machine} (hm : Ready c m) (hr : Resumable m)
    (r : Ref .blueprint) (members : Ref .scope) {x : Run Status}
    (hx : Orderly false (fun _ => True) x) :
    match x (memberMachine m r members) with
    | .ok status m' => status ≠ .yielded ∧ Passes c (memberMachine m r members) m'
    | .error f m' => Breaks c f (memberMachine m r members) m' := by
  have async : (memberMachine m r members).thread.mode.inAsync ≠ true := by
    simp [memberMachine, Mode.blueprintBody]
  have h := hx c (memberMachine m r members)
    ⟨hm.sound, hm.world, hm.acts, hm.weaving, hm.driven, fun h => absurd h async⟩ hr trivial
  cases hb : x (memberMachine m r members) with
  | error f m' =>
    rw [hb] at h
    exact h
  | ok status m' =>
    rw [hb] at h
    cases status with
    | normal => exact ⟨by simp, h⟩
    | leaving signal => exact ⟨by simp, h⟩
    | yielded =>
      -- the body of a blueprint is in no coroutine, so it does not yield
      obtain ⟨⟨_, _, _, hp, _⟩, -⟩ := h
      exact absurd hp.async async

omit hj in
theorem orderly_inBlueprint_bind (r : Ref .blueprint) (members : Ref .scope) {x : Run Status}
    (hx : Orderly false (fun _ => True) x) {f : Except Fault Status → Eval Status}
    (herr : ∀ fault, f (.error fault) = throw (.fault fault))
    (hok : ∀ status, status ≠ .yielded → Orderly b A (f (.ok status))) :
    Orderly b A (inBlueprint r members x >>= f) := by
  intro c m hm hr hs
  have h := carried_memberMachine hm hr r members hx
  show Carried b c m (EStateM.bind _ f m)
  unfold EStateM.bind
  rw [inBlueprint_run]
  cases hb : x (memberMachine m r members) with
  | ok status m' =>
    rw [hb] at h
    have hpass := passes_ownerMachine h.2
    refine .trans hpass (hok status h.1 c _ (hm.passes hpass) (hr.passed hpass.1) ?_)
    rw [hpass.1.source]
    exact hs
  | error fault m' =>
    rw [hb] at h
    show Carried b c m (f (.error fault) (ownerMachine m m'))
    rw [herr]
    exact ⟨steady_ownerMachine h.1, h.2.1, h.2.2.unwind (.of_world rfl rfl)⟩

theorem orderly_blueprintStatement : Orderly b A (blueprintStatement j) := by
  refine .bind (.lift quiet_bump) fun _ => .bind (.lift (quiet_advance _)) fun _ => ?_
  refine .bind (.lift (quiet_advance _)) fun name => .bind quiet_parentBlueprint fun parent => ?_
  refine .bind (.lift (quiet_enterBlock _)) fun _ => .bind quiet_scope fun outer => ?_
  refine .bind (quiet_onWorld_of_same (fun _ => rfl) (fun _ => rfl) fun _ => rfl) fun p => ?_
  obtain ⟨r, members⟩ := p
  refine orderly_inBlueprint_bind r members (hj.body _) (fun _ => rfl) fun status hn => ?_
  cases status with
  | yielded => contradiction
  | normal => exact .bind (quiet_define _ _) fun _ => .pure (by simp)
  | leaving signal => exact .pure (by simp)

/-! ### Modules -/

omit hj in
theorem quiet_namespace? (path : String) : Quiet A (namespace? path) :=
  .bind (.read id) fun _ => .pure _

omit hj in
theorem quiet_dropNamespace (path : String) : Quiet A (dropNamespace path) :=
  quiet_modify (fun _ => ⟨⟨rfl, rfl, rfl, rfl, rfl, rfl⟩, rfl, rfl⟩) (fun _ => rfl) fun _ => rfl

omit hj in
theorem quiet_keepNamespace (path : String) (v : Value) : Quiet A (keepNamespace path v) :=
  .bind (quiet_dropNamespace path) fun _ =>
    quiet_modify (fun _ => ⟨⟨rfl, rfl, rfl, rfl, rfl, rfl⟩, rfl, rfl⟩) (fun _ => rfl) fun _ => rfl

omit hj in
theorem quiet_weaverModule : Quiet A weaverModule := by
  unfold weaverModule
  refine .bind (quiet_namespace? _) fun found => ?_
  cases found with
  | some v => exact .pure _
  | none =>
    -- which functions there are does not matter, and the list is better not computed with
    dsimp only
    generalize Native.weaver = natives
    refine .bind (quiet_mapM (fun native => ?_) _) fun _ => .bind (quiet_onHeap _) fun _ => ?_
    · exact .bind (quiet_newFunction (sound_native _ _)) fun _ => .pure _
    · exact .bind (quiet_keepNamespace _ _) fun _ => .pure _

omit hj in
theorem quiet_exports (r : Ref .scope) : Quiet A (exports r) := by
  refine .bind (quiet_ask _) fun entries => .bind (quiet_mapM (fun entry => ?_) _) fun _ =>
    quiet_onHeap _
  exact .bind (quiet_onHeap _) fun _ => .pure _

omit hj in
/-- A cursor on a module's file is at a token. -/
theorem quiet_openModule_bind (name path : String) {β : Type}
    {f : Except Failure Cursor → Eval β}
    (herr : ∀ failure, (Fault.failure failure).Plain → Quiet A (f (.error failure)))
    (hok : ∀ cursor : Cursor, cursor.Sound → Quiet A (f (.ok cursor))) :
    Quiet A (openModule name path >>= f) := by
  -- whatever is opened, only the number of sources goes up
  have opened : ∀ m, ∃ r m', openModule name path m = .ok r m' ∧
      (∃ sources, m' = { m with sources }) ∧ (∀ cursor, r = .ok cursor → cursor.Sound) ∧
      ∀ failure, r = .error failure → (Fault.failure failure).Plain := by
    intro m
    unfold openModule
    simp only [bind, EStateM.bind, get_run]
    cases m.environment.files.readText path with
    | error fault =>
      refine ⟨_, m, rfl, ⟨m.sources, rfl⟩, fun _ h => by contradiction, fun failure h => ?_⟩
      obtain rfl := Except.error.inj h
      trivial
    | ok text =>
      refine ⟨_, _, rfl, ⟨m.sources + 1, rfl⟩, fun cursor h => ?_, fun failure h => ?_⟩
      all_goals cases hc : Cursor.ofSource ⟨m.sources, text.toList⟩ with
      | error fault => rw [hc] at h; cases h <;> trivial
      | ok d => rw [hc] at h; cases h <;> exact (Cursor.sound_ofSource hc).1
  intro c m hm hs
  obtain ⟨r, m', hr, ⟨sources, rfl⟩, hc, hf⟩ := opened m
  show Ended c m (EStateM.bind _ f m)
  unfold EStateM.bind
  rw [hr]
  have hset : Settles c m { m with sources } :=
    ⟨.of_thread ⟨⟨rfl, rfl, rfl, rfl, rfl, rfl⟩, rfl, rfl⟩ rfl hm.sound, .refl _⟩
  refine .trans hset ?_
  cases r with
  | error failure => exact herr failure (hf failure rfl) c _ (hm.settles hset) hs
  | ok cursor => exact hok cursor (hc cursor rfl) c _ (hm.settles hset) hs

/-- The machine in which a module runs. -/
def moduleMachine (m : Machine) (cursor : Cursor) (r : Ref .scope) (directory : Option String) :
    Machine :=
  { m with thread := { cursor, scope := r }, directory, pinned := .thread m.thread.waiting :: m.pinned }

/-- The machine behind a module that has come to `m'`. -/
def loaderMachine (m m' : Machine) : Machine :=
  { m' with thread := m.thread, directory := m.directory, pinned := m.pinned }

omit hj in
theorem inModule_run {α : Type} (cursor : Cursor) (r : Ref .scope) (directory : Option String)
    (x : Run α) (m : Machine) :
    inModule cursor r directory x m = match x (moduleMachine m cursor r directory) with
      | .ok a m' => .ok (.ok a) (loaderMachine m m')
      | .error f m' => .ok (.error f) (loaderMachine m m') := by
  simp only [inModule, bind, EStateM.bind, get_run, modify_run, pinning, catchFault]
  have enter : moduleMachine m cursor r directory = { m with
      thread := { cursor, scope := r }, directory, pinned := .thread m.thread.waiting :: m.pinned } := rfl
  rw [← enter]
  cases x (moduleMachine m cursor r directory) <;> rfl

omit hj in
/-- A module runs on a thread of its own, which no loop drives. -/
theorem quiet_inModule_bind {cursor : Cursor} (hc : cursor.Sound) (r : Ref .scope)
    (directory : Option String) {x : Run Status} (hx : Orderly false (fun _ => True) x) {β : Type}
    {f : Except Fault Status → Eval β} (hok : ∀ status, Quiet A (f (.ok status)))
    (herr : ∀ {c m m' fault}, Fault.Arises (m.situation c) m' fault → Settles c m m' → Ready c m →
      A m.thread.cursor.source → Ended c m (f (.error fault) m')) :
    Quiet A (inModule cursor r directory x >>= f) := by
  intro c m hm hs
  let inner := moduleMachine m cursor r directory
  have hi : Ready c inner :=
    ⟨hc, hm.world, hm.acts, hm.weaving, fun h => by contradiction, fun h => by contradiction⟩
  have h := hx c inner hi (.inl rfl) trivial
  -- thread and directory are those of the loader again
  have left {m' : Machine} (hst : Steady inner m')
      (hw : Proceeds (inner.situation c) (m'.situation c)) : Settles c m (loaderMachine m m') :=
    ⟨.of_thread ⟨⟨rfl, hst.environment, hst.globals, rfl, hst.callDepth, hst.weaving⟩, rfl, rfl⟩
      rfl hm.sound, hw⟩
  have next {status : Status} {m' : Machine} (h : Settles c m (loaderMachine m m')) :
      Ended c m (f (.ok status) (loaderMachine m m')) :=
    .trans h (hok status c _ (hm.settles h) hs)
  show Ended c m (EStateM.bind _ f m)
  unfold EStateM.bind
  rw [inModule_run]
  cases hr : x inner with
  | ok status m' =>
    rw [hr] at h
    cases status with
    | yielded =>
      -- the top of a module is in no coroutine, so it does not yield
      obtain ⟨⟨_, _, _, hp, _⟩, -⟩ := h
      exact absurd hp.async (by simp [inner, moduleMachine])
    | normal => exact next (left h.1.toSteady h.2)
    | leaving signal => exact next (left h.1.toSteady h.2)
  | error fault m' =>
    rw [hr] at h
    exact herr (h.2.2.unwind (.of_world rfl rfl)) (left h.1 h.2.1) hm hs

omit hj in
theorem quiet_forget (path : String) (r : Ref .scope) : Quiet A (runModule.forget path r) :=
  .bind (quiet_dropNamespace _) fun _ => quiet_modifyScopes _

omit hj in
theorem unwinds_forget {path : String} {r : Ref .scope} {a : Unit} {m m' : Machine}
    (h : runModule.forget path r m = .ok a m') : m.Unwinds m' := by
  obtain ⟨-, rfl⟩ := EStateM.Result.ok.inj h
  exact ⟨rfl, .onScopes m.world (·.clear r)⟩

theorem quiet_runModule (name path : String) : Quiet A (runModule j name path) := by
  refine .bind (quiet_keepNamespace _ _) fun _ => quiet_openModule_bind name path
    (fun _ hf => ?_) fun cursor hc => ?_
  · exact .bind (quiet_dropNamespace _) fun _ => .lift (quiet_fail _ hf)
  · refine .bind (quiet_newScope _) fun r => quiet_inModule_bind hc r _ (hj.body 1) (fun status => ?_)
      fun hf h hm hs => (quiet_forget _ _).rethrow (fun h => unwinds_forget h) hf h hm hs
    split
    · contradiction
    · exact .bind (quiet_forget _ _) fun _ => .raise _
    · refine .bind (quiet_exports r) fun _ => .bind (quiet_onHeap _) fun _ => ?_
      refine .bind (quiet_keepNamespace _ _) fun _ => .bind (quiet_modify ?_ ?_ ?_) fun _ => .pure _
      · exact fun _ => ⟨⟨rfl, rfl, rfl, rfl, rfl, rfl⟩, rfl, rfl⟩
      · exact fun _ => rfl
      · exact fun _ => rfl

theorem quiet_loadModule (name : String) (site : Token) : Quiet A (loadModule j name site) := by
  refine .ite (fun _ => .bind quiet_weaverModule fun _ => quiet_onHeap _) fun _ => ?_
  refine .bind (.read id) fun m => ?_
  split
  · exact quiet_complain _ _
  · refine .bind (quiet_namespace? _) fun found => ?_
    split
    · exact quiet_onHeap _
    · exact quiet_runModule hj _ _

omit hj in
theorem quiet_moduleName : Quiet A moduleName := by
  refine .bind quiet_kind fun k => ?_
  split
  · exact quiet_bump
  · exact quiet_bump
  · exact .bind quiet_current fun _ => quiet_malformed _ _

omit hj in
theorem quiet_alias? : Quiet A alias? := by
  refine .bind (quiet_skipOver _) fun _ => .ite (fun _ => ?_) fun _ => .pure _
  exact .bind (quiet_advance _) fun _ => .pure _

omit hj in
theorem quiet_selection (n : Nat) (read : List (Token × Option Token)) :
    Quiet A (selection n read) := by
  induction n generalizing read with
  | zero => exact quiet_exhausted
  | succ n ih =>
    refine .bind quiet_kind fun _ => .ite (fun _ => .pure _) fun _ => ?_
    refine .bind (quiet_advance _) fun _ => .bind quiet_alias? fun _ => ?_
    exact .bind (quiet_skipOver _) fun _ => .ite (fun _ => ih _) fun _ => .pure _

omit hj in
theorem quiet_bindSelection (exported : Value) (module : String)
    (names : List (Token × Option Token)) : Quiet A (bindSelection exported module names) := by
  induction names with
  | nil => exact .pure _
  | cons name names ih =>
    obtain ⟨item, renamed⟩ := name
    have member : Quiet A (bindSelection.member? exported item.text) := by
      unfold bindSelection.member?
      split
      · exact quiet_ask _
      · exact .pure _
    refine .bind member fun found => ?_
    split
    · exact quiet_complain _ _
    · exact .bind (quiet_onHeap _) fun _ => .bind (quiet_define _ _) fun _ => ih

theorem quiet_loadItem (n : Nat) : Quiet A (loadItem j n) := by
  refine .bind (.lift (quiet_skipOver _)) fun _ => .ite (fun _ => ?_) fun _ => ?_
  · refine .bind (.lift (quiet_selection _ _)) fun _ => .bind (.lift (quiet_advance _)) fun _ => ?_
    refine .bind (.lift (quiet_advance _)) fun _ => .bind (.lift quiet_moduleName) fun _ => ?_
    exact .bind (quiet_loadModule hj _ _) fun _ => quiet_bindSelection _ _ _
  · refine .bind (.lift quiet_moduleName) fun _ => .bind (.lift quiet_alias?) fun _ => ?_
    exact .bind (quiet_loadModule hj _ _) fun _ => quiet_define _ _

theorem quiet_loadItems (n : Nat) : Quiet A (loadItems j n) := by
  induction n with
  | zero => exact .lift quiet_exhausted
  | succ n ih =>
    refine .bind (quiet_loadItem hj n) fun _ => .bind (.lift (quiet_skipOver _)) fun _ => ?_
    exact .ite (fun _ => ih) fun _ => .pure _

theorem orderly_loadStatement (n : Nat) : Orderly b A (loadStatement j n) := by
  refine .bind (.lift quiet_bump) fun _ => .bind (.lift (quiet_advance _)) fun _ => ?_
  refine .bind (quiet_loadItems hj n) fun _ => .bind (.lift quiet_endStatement) fun _ => ?_
  exact .pure (by simp)

/-! ### Scopes and blocks -/

omit hj in
theorem passing_pushScope : Passing A (pushScope : Eval Unit) := by
  intro c m hm _
  refine ⟨?_, .act (.compute hm.goesOn rfl rfl (.of_same rfl)) rfl⟩
  exact ⟨⟨⟨rfl, rfl, rfl, rfl, rfl, rfl⟩, rfl, rfl⟩, rfl, rfl, rfl, rfl, rfl, hm.sound,
    List.suffix_refl _⟩

omit hj in
theorem popScope_run (m : Machine) :
    popScope m = match m.world.scopes.parent m.thread.scope with
      | some outer => .ok () { m with
          thread := { m.thread with scope := outer }
          world := m.world.onScopes (·.clear m.thread.scope) }
      | none => (.ok () m : EStateM.Result Interrupt Machine Unit) := by
  simp only [popScope, bind, EStateM.bind, scope, ask]
  cases m.world.scopes.parent m.thread.scope <;> rfl

omit hj in
theorem passing_popScope : Passing A (popScope : Eval Unit) := by
  intro c m hm _
  rw [popScope_run]
  split
  · refine ⟨?_, .act (.compute hm.goesOn rfl rfl (.of_same rfl)) rfl⟩
    exact ⟨⟨⟨rfl, rfl, rfl, rfl, rfl, rfl⟩, rfl, rfl⟩, rfl, rfl, rfl, rfl, rfl, hm.sound,
      List.suffix_refl _⟩
  · exact (Settles.refl hm.sound).passes

omit hj in
theorem orderly_finishBlock (column : Nat) {body : Run Status} (hb : Orderly false A body) :
    Orderly true A (finishBlock column body) := by
  refine .body .block (.lift hb) rfl (by simp) (fun _ _ => trivial) fun status hn => ?_
  have closed : Orderly true A (do
      popScope
      let close ← current
      if close.kind ≠ .rbrace then malformed .unclosedBlock close
      if close.column ≠ column then malformed (.misalignedBrace close.column column) close
      let _ ← bump
      return status : Eval Status) := by
    refine .after passing_popScope fun _ => .bind quiet_current fun close => ?_
    refine .ite (fun _ => orderly_malformed_bind _ _ _) fun _ => ?_
    refine .ite (fun _ => orderly_malformed_bind _ _ _) fun _ => ?_
    exact .bind (.lift quiet_bump) fun _ => .pure hn
  cases status with
  | yielded => contradiction
  | normal => exact closed
  | leaving signal => exact closed

theorem orderly_blockStatement : Orderly true A (blockStatement j) :=
  .bind (.lift quiet_bump) fun _ => .after passing_pushScope fun _ =>
    orderly_finishBlock _ (hj.body _)

/-! ### Branches -/

omit hj in
theorem quiet_skipBranches (column n : Nat) : Quiet A (skipBranches column n) := by
  induction n with
  | zero => exact quiet_exhausted
  | succ n ih =>
    refine .bind quiet_current fun _ => .ite (fun _ => ?_) fun _ => .pure _
    exact .bind quiet_bump fun _ => .bind (quiet_skipBody _) fun _ => ih

omit hj in
theorem orderly_finishBranch (n column : Nat) {body : Run Status} (hb : Orderly false A body) :
    Orderly true A (finishBranch n column body) := by
  refine .body .branch (.lift hb) rfl (by simp) (fun _ _ => trivial) fun status hn => ?_
  have passed : Orderly true A (do
      skipBranches column n
      return status : Eval Status) :=
    .bind (.lift (quiet_skipBranches column n)) fun _ => .pure hn
  cases status with
  | yielded => contradiction
  | normal => exact passed
  | leaving signal => exact passed

theorem orderly_branches (column n : Nat) : Orderly true A (branches j column n) := by
  induction n with
  | zero => exact orderly_exhausted
  | succ n ih =>
    refine .bind (.lift (quiet_advance _)) fun _ => .bind hj.expression fun _ => ?_
    refine .bind (quiet_truthy _) fun _ => .bind (.lift (quiet_enterBlock _)) fun _ => ?_
    refine .ite (fun _ => orderly_finishBranch n column (hj.body _)) fun _ => ?_
    refine .bind (.lift (quiet_skipBody _)) fun _ => .bind quiet_current fun token => ?_
    refine .ite (fun _ => .pure (by simp)) fun _ => ?_
    split
    · exact .bind (.lift quiet_bump) fun _ => ih
    · exact .bind (.lift quiet_bump) fun _ => .bind (.lift (quiet_enterBlock _)) fun _ =>
        orderly_finishBranch n column (hj.body _)
    · exact .pure (by simp)

theorem orderly_ifStatement (n : Nat) : Orderly true A (ifStatement j n) :=
  .bind (.lift quiet_bump) fun _ => orderly_branches hj _ n

/-! ### Exceptions -/

omit hj in
theorem quiet_isClause (k : TokenKind) (column : Nat) : Quiet A (isClause k column) :=
  .bind quiet_current fun _ => .pure _

omit hj in
theorem ofPending_ne_yielded (pending : Option Signal) : Status.ofPending pending ≠ .yielded := by
  cases pending <;> simp [Status.ofPending]

omit hj in
theorem orderly_finallyBody (pending : Option Signal) {body : Run Status}
    (hb : Orderly false A body) : Orderly true A (finallyBody pending body) := by
  refine .body (.attempt (.cleanup pending)) (orderly_holding _ (.lift hb)) rfl (by simp)
    (fun _ _ => trivial) fun status hn => ?_
  cases status with
  | yielded => contradiction
  | normal => exact .pure (ofPending_ne_yielded pending)
  | leaving signal => exact .pure hn

theorem orderly_finallyClause (column : Nat) (handled : Bool) (pending : Option Signal) :
    Orderly true A (finallyClause j column handled pending) := by
  refine .bind (.lift (quiet_isClause _ _)) fun _ => .ite (fun _ => ?_) fun _ => ?_
  · exact .bind (.lift quiet_bump) fun _ => .bind (.lift (quiet_enterBlock _)) fun _ =>
      orderly_finallyBody pending (hj.body _)
  · refine .ite (fun _ => .bind quiet_current fun _ => orderly_malformed_bind _ _ _) fun _ => ?_
    exact .pure (ofPending_ne_yielded pending)

theorem orderly_handlerBody (column : Nat) {body : Run Status} (hb : Orderly false A body) :
    Orderly true A (handlerBody j column body) := by
  refine .body (.attempt .handler) (.lift hb) rfl (by simp) (fun _ _ => trivial)
    fun status hn => ?_
  cases status with
  | yielded => contradiction
  | normal => exact .after passing_popScope fun _ => orderly_finallyClause hj column true none
  | leaving signal =>
    exact .after passing_popScope fun _ => orderly_finallyClause hj column true (some signal)

/-- A handler behind the name it gives to the exception, if it gives one. -/
theorem orderly_clause (column : Nat) (pending : Option Signal) (name : Option Token) :
    Orderly true A (do
      enterBlock column
      match pending with
      | some (.raised r) =>
        pushScope
        match name with
        | some token => define token.text r.value
        | none => pure ()
        handlerBody j column (j.body (column + 4))
      | other =>
        skipBody (column + 4)
        finallyClause j column true other : Eval Status) := by
  refine .bind (.lift (quiet_enterBlock _)) fun _ => ?_
  split
  · refine .after passing_pushScope fun _ => ?_
    cases name with
    | some token => exact .bind (quiet_define _ _) fun _ => orderly_handlerBody hj column (hj.body _)
    | none => exact orderly_handlerBody hj column (hj.body _)
  · exact .bind (.lift (quiet_skipBody _)) fun _ => orderly_finallyClause hj column true _

theorem orderly_handlerClause (column : Nat) (pending : Option Signal) :
    Orderly true A (handlerClause j column pending) := by
  have clause := orderly_clause (A := A) hj column pending
  refine .bind (.lift quiet_bump) fun _ => .bind (.lift (quiet_skipOver _)) fun _ => ?_
  refine .ite (fun _ => ?_) fun _ => .bind (.pure _) clause
  exact .bind (.map _ (.lift (quiet_advance _))) clause

theorem orderly_tryClauses (column : Nat) (pending : Option Signal) :
    Orderly true A (tryClauses j column pending) :=
  .bind (.lift (quiet_isClause _ _)) fun _ => .ite (fun _ => orderly_handlerClause hj column pending)
    fun _ => orderly_finallyClause hj column false pending

theorem orderly_runTry (column : Nat) {body : Run Status} (hb : Orderly false A body)
    (phase : TryPhase) : Orderly true A (runTry j column body phase) := by
  cases phase with
  | body =>
    refine .body (.attempt .body) (.lift hb) rfl (by simp) (fun _ _ => trivial)
      fun status hn => ?_
    cases status with
    | yielded => contradiction
    | normal => exact orderly_tryClauses hj column none
    | leaving signal => exact orderly_tryClauses hj column (some signal)
  | handler => exact orderly_handlerBody hj column hb
  | cleanup pending => exact orderly_finallyBody pending hb

theorem orderly_tryStatement : Orderly true A (tryStatement j) :=
  .bind (.lift quiet_bump) fun _ => .bind (.lift (quiet_enterBlock _)) fun _ =>
    orderly_runTry hj _ (hj.body _) .body

/-! ### Loops -/

omit hj in
theorem passing_resetTapeUnlessReplaying :
    Passing A (resetTapeUnlessReplaying : EStateM ε Machine Unit) := by
  intro c m hm _
  show Passes c m { m with thread := if m.thread.mode.inAsync && !m.thread.tape.replaying then
    { m.thread with tape := Tape.reset } else m.thread }
  split
  · exact ⟨⟨⟨⟨rfl, rfl, rfl, rfl, rfl, rfl⟩, rfl, rfl⟩, rfl, rfl, rfl, rfl, rfl, hm.sound,
      List.suffix_refl _⟩, .refl _⟩
  · exact (Settles.refl hm.sound).passes

theorem passing_whileCondition (column : Nat) (header : Position) :
    Passing (fun s => A s ∧ s.Marks header) (whileCondition j column header) := by
  refine .bind (Quiet.lift (quiet_rewind header)).passing fun _ => ?_
  refine .bind passing_resetTapeUnlessReplaying fun _ => Quiet.passing ?_
  refine .bind quiet_current fun _ => .bind hj.expression fun held => ?_
  split
  · exact .bind (.lift (quiet_enterBlock _)) fun _ => .pure _
  · exact quiet_complain _ _

omit hj in
theorem orderly_whileRound {header : Position} {again : Eval Status} {body : Run Status}
    (ha : Orderly true (fun s => A s ∧ s.Marks header) again)
    (hb : Orderly false (fun s => A s ∧ s.Marks header) body) :
    Orderly true (fun s => A s ∧ s.Marks header) (whileRound header again body) := by
  refine .body (.whileLoop header) (.lift hb) rfl (by simp) (fun _ h => h.2) fun status hn => ?_
  cases status with
  | yielded => contradiction
  | normal => exact ha
  | leaving signal =>
    cases signal with
    | again => exact ha
    | stop => exact .pure (by simp)
    | result v => exact .pure (by simp)
    | raised r => exact .pure (by simp)

theorem orderly_whileRounds (column : Nat) (header : Position) (n : Nat) :
    Orderly true (fun s => A s ∧ s.Marks header) (whileRounds j column header n) := by
  induction n with
  | zero => exact orderly_exhausted
  | succ n ih =>
    refine .after (passing_whileCondition hj column header) fun _ => .ite (fun _ => ?_) fun _ => ?_
    · exact orderly_whileRound ih (hj.body _)
    · exact .bind (.lift (quiet_skipBody _)) fun _ => .pure (by simp)

omit hj in
theorem passing_leaveLoop (column : Nat) (body : Position) :
    Passing (fun s => A s ∧ s.Marks body) (leaveLoop column body) :=
  .bind passing_popScope fun _ => .bind (Quiet.lift (quiet_rewind body)).passing fun _ =>
    (Quiet.lift (quiet_skipBody _)).passing

omit hj in
theorem orderly_leaveLoop (column : Nat) (body : Position) {status : Status}
    (hn : status ≠ .yielded) : Orderly b (fun s => A s ∧ s.Marks body) (do
      leaveLoop column body
      return status : Eval Status) :=
  .after (passing_leaveLoop column body) fun _ => .pure hn

omit hj in
theorem body_advance? {l l' : RangeLoop} (h : l.advance? = some l') : l'.body = l.body := by
  unfold RangeLoop.advance? at h
  split at h
  · dsimp only at h
    split at h
    · rw [← Option.some.inj h]
    · contradiction
  · rw [← Option.some.inj h]

omit hj in
/-- A counting loop goes on with its next round or is left. -/
theorem orderly_advanced (column : Nat) (l : RangeLoop) {again : RangeLoop → Eval Status}
    (ha : ∀ l : RangeLoop, Orderly true (fun s => A s ∧ s.Marks l.body) (again l)) :
    Orderly true (fun s => A s ∧ s.Marks l.body) (match l.advance? with
      | some l => again l
      | none => do
        leaveLoop column l.body
        return .normal : Eval Status) := by
  split
  · rename_i l' hl
    exact body_advance? hl ▸ ha l'
  · exact orderly_leaveLoop column l.body (by simp)

omit hj in
theorem orderly_rangeRound (column : Nat) (l : RangeLoop) {again : RangeLoop → Eval Status}
    {body : Run Status}
    (ha : ∀ l : RangeLoop, Orderly true (fun s => A s ∧ s.Marks l.body) (again l))
    (hb : Orderly false (fun s => A s ∧ s.Marks l.body) body) :
    Orderly true (fun s => A s ∧ s.Marks l.body) (rangeRound column l again body) := by
  have advanced := orderly_advanced (A := A) column l ha
  refine .body (.rangeLoop l) (.lift hb) rfl (by simp) (fun _ h => h.2) fun status hn => ?_
  cases status with
  | yielded => contradiction
  | normal => exact advanced
  | leaving signal =>
    cases signal with
    | again => exact advanced
    | stop => exact orderly_leaveLoop column l.body (by simp)
    | result v => exact orderly_leaveLoop column l.body (by simp)
    | raised r => exact orderly_leaveLoop column l.body (by simp)

theorem orderly_rangeRounds (column n : Nat) (l : RangeLoop) :
    Orderly true (fun s => A s ∧ s.Marks l.body) (rangeRounds j column n l) := by
  induction n generalizing l with
  | zero => exact orderly_exhausted
  | succ n ih =>
    refine .ite (fun _ => orderly_leaveLoop column l.body (by simp)) fun _ => ?_
    refine .bind (quiet_define _ _) fun _ => .bind (.lift (quiet_rewind l.body)) fun _ => ?_
    exact orderly_rangeRound column l ih (hj.body _)

omit hj in
theorem orderly_eachRound (column : Nat) (l : EachLoop) {again : EachLoop → Eval Status}
    {body : Run Status}
    (ha : ∀ l : EachLoop, Orderly true (fun s => A s ∧ s.Marks l.body) (again l))
    (hb : Orderly false (fun s => A s ∧ s.Marks l.body) body) :
    Orderly true (fun s => A s ∧ s.Marks l.body) (eachRound column l again body) := by
  refine .body (.eachLoop l) (.lift hb) rfl (by simp) (fun _ h => h.2) fun status hn => ?_
  cases status with
  | yielded => contradiction
  | normal => exact ha { l with next := l.next + 1 }
  | leaving signal =>
    cases signal with
    | again => exact ha { l with next := l.next + 1 }
    | stop => exact orderly_leaveLoop column l.body (by simp)
    | result v => exact orderly_leaveLoop column l.body (by simp)
    | raised r => exact orderly_leaveLoop column l.body (by simp)

theorem orderly_eachRounds (column n : Nat) (l : EachLoop) :
    Orderly true (fun s => A s ∧ s.Marks l.body) (eachRounds j column n l) := by
  induction n generalizing l with
  | zero => exact orderly_exhausted
  | succ n ih =>
    unfold eachRounds
    split
    · exact orderly_leaveLoop column l.body (by simp)
    · refine .bind (quiet_onHeap _) fun _ => .bind (quiet_define _ _) fun _ => ?_
      exact .bind (.lift (quiet_rewind l.body)) fun _ => orderly_eachRound column l ih (hj.body _)

omit hj in
theorem orderly_overItems (l : EachLoop) {x : Eval Status} (hx : Orderly b A x) :
    Orderly b A (overItems l x) := orderly_holding _ (orderly_inLoop hx)

omit hj in
theorem quiet_checkBounds (first last step : Value) (site : Token) :
    Quiet A (checkBounds first last step site) := by
  refine .bind ?_ fun _ => .ite (fun _ => quiet_complain _ _) fun _ => .pure _
  generalize [first, last, step] = bounds
  induction bounds with
  | nil => exact .pure _
  | cons bound bounds ih =>
    rw [List.forIn_cons]
    refine .bind (.ite (fun _ => .bind (quiet_complain _ _) fun _ => .pure _) fun _ => .pure _)
      fun next => ?_
    split
    · exact .pure _
    · exact ih

theorem orderly_rangeLoop (n column : Nat) (var : String) : Orderly true A (rangeLoop j n column var) := by
  refine .bind (.lift quiet_bump) fun _ => .bind quiet_current fun site => ?_
  refine .bind hj.expression fun _ => .bind (quiet_own _) fun first => ?_
  refine .bind (.lift (quiet_advance _)) fun _ => .bind (quiet_holding _ hj.expression) fun _ => ?_
  refine .bind (quiet_own _) fun last => ?_
  have entered (step : Value) : Orderly true A (do
      enterBlock column
      checkBounds first last step site
      let l := { var, current := first, last, step, body := ← capture }
      pushScope
      inLoop (rangeRounds j column n l) : Eval Status) := by
    refine .bind (.lift (quiet_enterBlock _)) fun _ => .bind (quiet_checkBounds _ _ _ _) fun _ => ?_
    refine .capture_bind fun body => .after passing_pushScope fun _ => orderly_inLoop ?_
    exact orderly_rangeRounds hj column n ⟨var, first, last, step, body⟩
  refine .bind (.lift (quiet_skipOver _)) fun _ => .ite (fun _ => ?_) fun _ => ?_
  · exact .bind (quiet_holding _ hj.expression) fun _ => .bind (quiet_own _) entered
  · exact .bind (.pure _) entered

theorem orderly_eachLoop (n column : Nat) (var : String) : Orderly true A (eachLoop j n column var) := by
  refine .bind (.lift quiet_bump) fun _ => .bind quiet_current fun _ => ?_
  refine .bind hj.expression fun _ => .bind (.lift (quiet_enterBlock _)) fun _ => ?_
  refine .bind (quiet_ask _) fun _ => .bind (quiet_orComplain _ _) fun items => ?_
  refine .capture_bind fun body => .after passing_pushScope fun _ => ?_
  exact orderly_overItems _ (orderly_eachRounds hj column n ⟨var, items, 0, body⟩)

theorem orderly_forLoop (n column : Nat) : Orderly true A (forLoop j n column) := by
  refine .bind (.lift (quiet_advance _)) fun _ => .bind (.lift (quiet_advance _)) fun var => ?_
  refine .bind quiet_kind fun k => ?_
  split
  · exact orderly_rangeLoop hj n column _
  · exact orderly_eachLoop hj n column _
  · exact .bind quiet_current fun _ => orderly_malformed _ _

theorem orderly_loopStatement (n : Nat) : Orderly true A (loopStatement j n) := by
  refine .bind (.lift quiet_bump) fun _ => .bind (.lift (quiet_advance _)) fun _ => ?_
  refine .bind quiet_kind fun k => ?_
  split
  · refine .bind (.lift quiet_bump) fun _ => .capture_bind fun header => orderly_inLoop ?_
    exact orderly_whileRounds hj _ header n
  · exact orderly_forLoop hj n _
  · exact .bind quiet_current fun _ => orderly_malformed _ _

/-! ### Any statement -/

theorem orderly_statement (n : Nat) : Orderly true A (statement j n) := by
  refine .bind quiet_current fun token => .bind quiet_mode fun _ => ?_
  refine .ite (fun _ => orderly_malformed_bind _ _ _) fun _ => ?_
  cases token.kind with
  | kwLet => exact orderly_letStatement hj n
  | kwFunct | kwAsync => exact orderly_functStatement hj n
  | kwReturn => exact orderly_returnStatement hj n
  | kwIf => exact orderly_ifStatement hj n
  | kwLoop => exact orderly_loopStatement hj n
  | kwBreak | kwContinue => exact orderly_loopSignal _
  | kwSkip => exact orderly_skipStatement
  | lbrace => exact orderly_blockStatement hj
  | kwRaise => exact orderly_raiseStatement hj
  | kwTry => exact orderly_tryStatement hj
  | kwBlueprint => exact orderly_blueprintStatement hj
  | kwLoad => exact orderly_loadStatement hj n
  | ident | kwSuper | kwAwait => exact orderly_expressionStatement hj
  | eof => exact .pure (by simp)
  | _ => exact orderly_malformed _ _

theorem orderly_reenter (n column : Nat) {body : Run Status} (kind : FrameKind)
    (hb : ∀ {A : Source → Prop}, Orderly false A body) :
    Orderly true kind.Marked (reenter j n column body kind) := by
  have marked {p : Position} (s : Source) (h : s.Marks p) : True ∧ s.Marks p := ⟨trivial, h⟩
  cases kind with
  | simple => exact orderly_statement hj n
  | block => exact orderly_finishBlock column hb
  | branch => exact orderly_finishBranch n column hb
  | whileLoop header =>
    refine orderly_inLoop (.weaken (orderly_whileRound ?_ hb) marked)
    exact orderly_whileRounds hj column header n
  | rangeLoop l =>
    refine orderly_inLoop (.weaken (orderly_rangeRound column l (fun l => ?_) hb) marked)
    exact orderly_rangeRounds hj column n l
  | eachLoop l =>
    refine orderly_overItems l (.weaken (orderly_eachRound column l (fun l => ?_) hb) marked)
    exact orderly_eachRounds hj column n l
  | attempt phase => exact orderly_runTry hj column hb phase

/-! ### Execution -/

omit hj in
theorem takeFrame_run (start : Position) (m : Machine) :
    takeFrame start m = match m.thread.resume with
      | frame :: rest =>
        if frame.start = start then
          .ok (some frame.kind) { m with thread := { m.thread with resume := rest } }
        else .ok none m
      | [] => .ok none m := by
  show (match m.thread.resume with | frame :: rest => _ | [] => _ : Run (Option FrameKind)) m = _
  cases m.thread.resume with
  | nil => rfl
  | cons frame rest =>
    by_cases h : frame.start = start
    · simp only [h, if_true]
      rfl
    · simp only [h, if_false]
      rfl

omit hj in
theorem takeCancellation_of_not_async {m : Machine} (ha : m.thread.mode.inAsync = false) :
    takeCancellation m = .ok none m := by
  simp only [takeCancellation, bind, EStateM.bind, get_run, ha]
  rfl

omit hj in
/-- In an `async` body a cancellation that has not been delivered is taken. -/
theorem takeCancellation_of_async {m : Machine} {r : Ref .coroutine}
    (ha : m.thread.mode.inAsync = true) (hr : m.thread.task = some r) :
    takeCancellation m =
      if (!(m.world.coroutines.get r).isCancelled ||
          (m.world.coroutines.get r).cancelDelivered) = true then .ok none m
      else .ok (some (Coroutine.cancellation m.thread.cursor.current.line
          m.thread.cursor.current.column))
        { m with world := m.world.modifyCoroutine r fun c => { c with cancelDelivered := true } } := by
  simp only [takeCancellation, bind, EStateM.bind, get_run, ha,
    hr, ask]
  split <;> rfl

omit hj in
/-- The coroutine in its turn may notice that it is cancelled. -/
theorem passing_takeCancellation : Passing A takeCancellation := by
  intro c m hm hs
  have unchanged : PassedOn c m (.ok none m : EStateM.Result Fault Machine (Option Raised)) :=
    (Settles.refl hm.sound).passes
  cases ha : m.thread.mode.inAsync with
  | false =>
    rw [takeCancellation_of_not_async ha]
    exact unchanged
  | true =>
    obtain ⟨r, rfl, hr⟩ := hm.driven (hm.async ha)
    rw [takeCancellation_of_async ha hr]
    split
    · exact unchanged
    · rename_i hn
      obtain ⟨hc, hd⟩ : (m.world.coroutines.get r).isCancelled = true ∧
          (m.world.coroutines.get r).cancelDelivered = false := by simpa using hn
      exact Settles.passes (Settles.step hm (.notice hc hd) (Arena.size_modify _ _ _))

/-- A statement that is not re-entered: a cancellation comes first. -/
theorem orderly_anew (n : Nat) : Orderly true (fun _ => True) (do
    resetTapeUnlessReplaying
    match ← takeCancellation with
    | some raised => return .leaving (.raised raised)
    | none => statement j n : Eval Status) := by
  refine .after passing_resetTapeUnlessReplaying fun _ => ?_
  refine .after (fun c m hm hs => ?_) fun raised => ?_
  · have h := passing_takeCancellation (A := fun _ => True) c m hm hs
    rw [Quiet.run_lift]
    cases ht : takeCancellation m <;> · rw [ht] at h; exact h
  · split
    · exact .pure (by simp)
    · exact orderly_statement hj n

theorem orderly_enter (n : Nat) (start : Position) :
    Orderly true (fun _ => True) (enter j n start) := by
  intro c m hm hr hs
  have anew := orderly_anew hj n
  show Carried true c m (EStateM.bind (liftM (takeFrame start)) _ m)
  unfold EStateM.bind
  rw [Quiet.run_lift, takeFrame_run]
  cases hf : m.thread.resume with
  | nil => exact anew c m hm hr hs
  | cons frame rest =>
    by_cases hst : frame.start = start
    · simp only [hst, if_true]
      -- the frame leads on: what is left of the chain is one again
      have hchain : Chain m.thread.cursor.source (frame :: rest) := by
        obtain hn | hc := hr
        · rw [hf] at hn; contradiction
        · rwa [hf] at hc
      have hp : Passes c m { m with thread := { m.thread with resume := rest } } := by
        refine ⟨⟨⟨⟨rfl, rfl, rfl, rfl, rfl, rfl⟩, rfl, rfl⟩, rfl, rfl, rfl, rfl, rfl, hm.sound, ?_⟩, .refl _⟩
        rw [hf]
        exact List.suffix_cons frame rest
      have hk : frame.kind.Marked m.thread.cursor.source := by
        cases hchain with
        | simple => exact trivial
        | construct _ _ hk => exact hk
      refine .trans hp ?_
      exact orderly_reenter hj n start.column frame.kind (hj.body _) c _ (hm.passes hp)
        (hr.passed hp.1) hk
    · simp only [hst, if_false]
      exact anew c m hm hr hs

omit hj in
theorem passing_resetTape : Passing A (resetTape : EStateM ε Machine Unit) := by
  intro c m hm _
  show Passes c m { m with thread := if m.thread.mode.inAsync then
    { m.thread with tape := Tape.reset } else m.thread }
  split
  · exact ⟨⟨⟨⟨rfl, rfl, rfl, rfl, rfl, rfl⟩, rfl, rfl⟩, rfl, rfl, rfl, rfl, rfl, hm.sound,
      List.suffix_refl _⟩, .refl _⟩
  · exact (Settles.refl hm.sound).passes

omit hj in
/-- What the end of a statement comes to, in terms of its run. -/
theorem conclude_run (start : Position) (x : Eval Status) (m : Machine) :
    conclude start x m = match x m with
      | .ok .yielded m' =>
        .ok .yielded { m' with thread := { m'.thread with
          parking := none
          parked := ⟨start, m'.thread.parking.getD .simple⟩ :: m'.thread.parked } }
      | .ok status m' => (do resetTape; return status : Run Status) m'
      | .error (.raised r) m' => (do resetTape; return .leaving (.raised r) : Run Status) m'
      | .error .suspended m' =>
        .ok .yielded { m' with thread := { m'.thread with
          parked := ⟨start, .simple⟩ :: m'.thread.parked } }
      | .error (.fault f) m' => .error f m' := by
  simp only [conclude, bind, EStateM.bind, attempt]
  cases x m with
  | ok status m' => cases status <;> rfl
  | error e m' => cases e <;> rfl

omit hj in
/-- A statement that does not start with a colon is executed where it stands. -/
theorem execute_run (j : Jobs) (n : Nat) {m : Machine} (h : m.thread.cursor.kind ≠ .colon) :
    execute j n m =
      conclude m.thread.cursor.capture (enter j n m.thread.cursor.capture) m := by
  have moved : move Cursor.skipColons m = .ok () m := by
    simp only [move, Cursor.skipColons_eq_self h]
  simp only [execute, bind, EStateM.bind, moved, capture]

/-- The execution of a statement that stands at a token which can start one. -/
theorem carried_execute (n : Nat) {c : Control} {m : Machine} (hm : Ready c m) (hr : Resumable m)
    (hcolon : m.thread.cursor.kind ≠ .colon) (heof : m.thread.cursor.kind ≠ .eof) :
    Carried false c m (execute j n m) := by
  have starts : m.thread.cursor.source.Starts m.thread.cursor.capture :=
    ⟨_, _, hm.sound, rfl, hcolon, heof⟩
  have h := orderly_enter hj n m.thread.cursor.capture c m hm hr trivial
  -- behind a statement that is over nothing of its tape is left
  have reset {status : Status} (hn : status ≠ .yielded) {m' : Machine} (hp : Passes c m m') :
      Carried false c m ((do resetTape; return status : Run Status) m') := by
    refine .trans hp ?_
    have : Orderly false (fun _ => True) (do resetTape; return status : Run Status) :=
      .after passing_resetTape fun _ => .pure hn
    exact this c m' (hm.passes hp) (hr.passed hp.1) trivial
  rw [execute_run j n hcolon, conclude_run]
  cases he : enter j n m.thread.cursor.capture m with
  | ok status m' =>
    rw [he] at h
    cases status with
    | yielded =>
      obtain ⟨⟨r, frames, rfl, hp, hw⟩, ha⟩ := h
      -- a construct has parked frames of its own, which go below the statement's
      obtain ⟨kind, hk, hn, hmark⟩ := ha rfl
      refine ⟨⟨r, ⟨m.thread.cursor.capture, kind⟩ :: frames, rfl, ?_, hw⟩, fun h => by contradiction⟩
      refine ⟨hp.toSteady.withThread rfl rfl, hp.async, hp.mode, hp.skip, hp.source, hp.sound, ?_, ?_,
        ?_, hp.tape⟩
      · simp [hk, hp.parked]
      · exact .construct starts hn (hp.source ▸ hmark) hp.chain
      · obtain ⟨fuel, k, m₁, m₂, hrun, hlast, hrest⟩ := hp.halted
        refine ⟨fuel, k, m₁, m₂, hrun, ?_, hrest⟩
        obtain ⟨init, rfl⟩ := List.getLast?_eq_some_iff.1 hlast
        rw [← List.cons_append, List.getLast?_concat]
    | normal => exact reset (by simp) h
    | leaving signal => exact reset (by simp) h
  | error e m' =>
    rw [he] at h
    cases e with
    | raised r => exact reset (by simp) h
    | suspended =>
      obtain ⟨r, rfl, ha, hp, ht, hw⟩ := h
      -- a simple statement parks nothing but its place, to be begun anew
      refine ⟨⟨r, [⟨m.thread.cursor.capture, .simple⟩], rfl, ?_, hw⟩, fun h => by contradiction⟩
      refine ⟨hp.toSteady.withThread rfl rfl, ha, hp.mode, hp.skip, hp.source, hp.sound, ?_,
        .simple starts, ?_, ht⟩
      · simp [hp.parked]
      · obtain ⟨fuel, rfl⟩ := hj.tied
        exact ⟨fuel, n, m, m', he, rfl, rfl, rfl, rfl⟩
    | fault f => exact h

omit hj in
/-- What a body comes to from the token behind the colons: it is over at the end of the text and at
a token that starts a line left of its column, rejected at one that starts a line right of it, and
else the statement there is executed. -/
theorem statements_run (j : Jobs) (column n : Nat) {m : Machine} {d : Cursor}
    (h : m.thread.cursor.skipColons = .ok d) :
    let m₁ : Machine := { m with thread := { m.thread with cursor := d } }
    statements j column (n + 1) m =
      if d.kind = .eof then .ok .normal m₁
      else if d.atLineStart = true ∧ d.current.column < column then .ok .normal m₁
      else if d.atLineStart = true ∧ column < d.current.column then
        .error (.failure (.malformed (.unexpectedIndentation column d.current.column) d.current.line
          d.current.column)) m₁
      else goOn column (statements j column n) (execute j n) m₁ := by
  intro m₁
  show EStateM.bind (move Cursor.skipColons) _ m = _
  unfold EStateM.bind
  simp only [move, h]
  show (if d.kind = .eof then _ else _ : Run Status) m₁ = _
  split
  · rfl
  show (if d.atLineStart = true then _ else _ : Run Status) m₁ = _
  -- only at the start of a line does the column decide
  cases d.atLineStart with
  | false => rfl
  | true =>
    show (if d.current.column < column then _ else _ : Run Status) m₁ = _
    simp only [true_and]
    split
    · rfl
    show (if column < d.current.column then _ else _ : Run Status) m₁ = _
    split <;> rfl

theorem orderly_statements (column n : Nat) : Orderly false A (statements j column n) := by
  induction n with
  | zero => exact fun _ _ hm _ _ => (Settles.refl hm.sound).breaks_self trivial
  | succ n ih =>
    intro c m hm hr hs
    have moved := quiet_skipColons (A := A) c m hm hs
    cases hd : m.thread.cursor.skipColons with
    | error failure =>
      have : statements j column (n + 1) m = .error (.failure failure) m := by
        show EStateM.bind (move Cursor.skipColons) _ m = _
        unfold EStateM.bind
        simp only [move, hd]
      rw [this]
      exact (Settles.refl hm.sound).breaks_self (reads_skipColons _ _ hd)
    | ok d =>
      simp only [move, hd] at moved
      let m₁ : Machine := { m with thread := { m.thread with cursor := d } }
      have hm₁ : Ready c m₁ := hm.settles moved
      have hr₁ : Resumable m₁ := hr.passed moved.1.passed
      have hs₁ : A m₁.thread.cursor.source := moved.1.source ▸ hs
      have past : Carried false c m₁ (.ok .normal m₁ : EStateM.Result Fault Machine Status) :=
        (Settles.refl hm₁.sound).passes
      rw [statements_run j column n hd]
      refine .trans moved.passes ?_
      by_cases heof : d.kind = .eof
      · rw [if_pos heof]
        exact past
      rw [if_neg heof]
      -- a statement that has passed is followed by the rest, a signal by what is skipped
      have executed : Carried false c m₁ (goOn column (statements j column n) (execute j n) m₁) := by
        have h := carried_execute hj n hm₁ hr₁ (Cursor.kind_skipColons hd) heof
        show Carried false c m₁ (EStateM.bind (execute j n) _ m₁)
        unfold EStateM.bind
        cases he : execute j n m₁ with
        | error fault m₂ =>
          rw [he] at h
          exact h
        | ok status m₂ =>
          rw [he] at h
          have next {x : Run Status} (hx : Orderly false A x) (hp : Passes c m₁ m₂) :
              Carried false c m₁ (x m₂) :=
            .trans hp (hx c m₂ (hm₁.passes hp) (hr₁.passed hp.1) (hp.1.source ▸ hs₁))
          cases status with
          | yielded => exact h
          | normal => exact next ih h
          | leaving signal =>
            exact next (.bind (quiet_skipBody column) fun _ => .pure (by simp)) h
      split
      · exact past
      · split
        · exact (Settles.refl hm₁.sound).breaks_self trivial
        · exact executed

theorem orderly_runBody (n column : Nat) : Orderly false A (runBody j n column) := by
  intro c m hm hr hs
  show Carried false c m ((match m.thread.resume with | frame :: _ => _ | [] => _ : Run Status) m)
  cases hf : m.thread.resume with
  | nil => exact orderly_statements hj column n c m hm hr hs
  | cons frame rest =>
    have hmark : m.thread.cursor.source.Marks frame.start := by
      obtain hn | hc := hr
      · rw [hf] at hn; contradiction
      · rw [hf] at hc
        cases hc with
        | simple hs => exact hs.marks
        | construct hs => exact hs.marks
    have : Orderly false (fun s => A s ∧ s.Marks frame.start) (do
        rewind frame.start
        statements j column n : Run Status) :=
      .bind (quiet_rewind frame.start) fun _ => orderly_statements hj column n
    exact this c m hm hr ⟨hs, hmark⟩

omit hj in
/-- Every job ends as it should, whatever the fuel: by induction on it, since each job only hands on
to jobs with less. -/
theorem works_jobs (fuel : Nat) : Works (jobs fuel) := by
  induction fuel with
  | zero =>
    refine ⟨⟨0, rfl⟩, .lift quiet_exhausted, .lift quiet_exhausted, fun _ => ?_,
      fun _ _ _ => .lift quiet_exhausted⟩
    exact fun _ _ hm _ _ => (Settles.refl hm.sound).breaks_self trivial
  | succ fuel ih =>
    exact ⟨⟨fuel + 1, rfl⟩, quiet_conditional ih fuel, quiet_unaryExpr ih fuel,
      fun column => orderly_runBody ih fuel column, fun _ _ _ => quiet_invokeValue ih fuel _ _ _⟩

end Rewind.Eval
