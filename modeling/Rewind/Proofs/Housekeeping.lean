/-
Statements keep values apart.

What is assigned, bound or returned is one's own before.  A body of a blueprint or a module leaves the
thread that waits for it alone.  A statement that is suspended gives what it goes on with into the
keeping of its thread, and takes it from there when it is entered again.

* `keeps_letStatement`, `keeps_functStatement`, `keeps_blueprintStatement` — assignments, definitions;
* `keeps_runModule`, `keeps_loadStatement` — modules;
* `retains_branches`, `retains_runTry`, `retains_loopStatement` — constructs that may suspend;
* `retains_statement`, `retains_enter`, `keeps_execute` — any statement;
* `keeps_statementsBy`, `keeps_bodyBy` — bodies.
-/
import Rewind.Proofs.Operands

namespace Rewind

variable {ε α β : Type} [Stops ε] {H K : Hand}

/-- What is held is come upon, if it is not come upon already. -/
theorem Held.gives_seen (held : Held) : held.hand.Gives {.seen held.value} := by
  cases held with
  | fresh v => exact .reveal v
  | view v => exact .refl _

/-- Storing values one by one brings in no others. -/
theorem Dict.values_foldl_set_le (entries : List (String × Value)) (d : Dict Value) :
    (↑(entries.foldl (fun d e => d.set e.1 e.2) d).values : Multiset Value) ≤
      ↑d.values + ↑(entries.map (·.2)) := by
  induction entries generalizing d with
  | nil => exact Multiset.le_add_right _ _
  | cons e entries ih =>
    refine (ih _).trans ?_
    rw [List.map_cons, ← Multiset.cons_coe, ← Multiset.singleton_add, ← add_assoc]
    refine add_le_add_left ?_ _
    rw [add_comm, Multiset.singleton_add]
    exact d.values_set_le e.1 e.2

namespace Eval

section Jobs

variable {j j' : Jobs} (hj : j.Keep j')

include hj

/-! ### Assignments and definitions -/

theorem keeps_accessors (n : Nat) (read : List Accessor) :
    Keeps 0 (accessors j n read) (accessors j' n read) fun _ => 0 := by
  induction n generalizing read with
  | zero => exact .lift keeps_exhausted
  | succ n ih =>
    refine .skip keeps_kind fun k => ?_
    split
    · exact .skip (.lift keeps_bump) fun _ => .skip (.lift (keeps_advance _)) fun _ => ih _
    · refine .skip (.lift keeps_bump) fun _ => keeps_kept hj _ fun index => .of_gives (.drop _) ?_
      exact .skip (.lift (keeps_advance _)) fun _ => ih _
    · exact .pure (.refl _)

omit hj in
/-- A step from what may be come upon leads to what may be come upon. -/
theorem keeps_follow (target : Value) (step : Accessor) :
    Keeps {.seen target} (follow target step) (follow target step) fun v => {.seen v} := by
  cases step with
  | member => exact .bind (keeps_readAttribute (.view target) _ _) fun held => .pure held.gives_seen
  | item => exact .bind (keeps_readItem (.view target) _ _) fun held => .pure held.gives_seen

omit hj in
theorem keeps_follows (target : Value) (steps : List Accessor) :
    Keeps {.seen target} (steps.foldlM follow target) (steps.foldlM follow target)
      fun v => {.seen v} := by
  induction steps generalizing target with
  | nil => exact .pure (.refl _)
  | cons step steps ih =>
    rw [List.foldlM_cons]
    exact .bind (keeps_follow target step) ih

omit hj in
theorem keeps_store (target v : Value) (step : Accessor) :
    Keeps ({.seen target} + {.owned v}) (store target v step) (store target v step) fun _ => 0 := by
  cases step with
  | member => exact keeps_storeAttribute _ _ _ _
  | item => exact keeps_storeItem _ _ _ _

theorem keeps_letStatement (n : Nat) :
    Keeps 0 (letStatement j n) (letStatement j' n) Status.hand := by
  refine .skip (.lift keeps_bump) fun _ => .skip (.lift (keeps_advance _)) fun _ => ?_
  refine .skip (.lift (keeps_advance _)) fun name => .skip (keeps_accessors hj _ _) fun steps => ?_
  refine .skip (.lift (keeps_advance _)) fun _ => keeps_kept hj _ fun v => ?_
  rw [zero_add]
  refine .skip (.lift keeps_endStatement) fun _ => ?_
  cases steps with
  | nil => exact .bind (keeps_assign _ _) fun _ => .pure (.refl _)
  | cons last before =>
    refine .next (.holding _ (keeps_lookup _)) fun found => ?_
    cases found with
    | none => exact .bind (M := fun _ => 0) (keeps_complain _ _) fun _ => .pure (.refl _)
    | some base =>
      refine .after (keeps_follows base _) fun target => ?_
      rw [add_comm]
      exact .bind (keeps_store _ _ _) fun _ => .pure (.refl _)

theorem keeps_parameter (function : String) (read : List Param) :
    Keeps 0 (parameter j function read) (parameter j' function read)
      fun p => paramsHand [p] := by
  refine .skip (.lift (keeps_advance _)) fun _ => .guard (.lift (keeps_malformed _ _)) ?_
  refine .skip (.lift (keeps_skipOver _)) fun _ => .ite ?_ ?_
  · refine keeps_kept hj _ fun v => .pure (.of_eq ?_)
    rw [zero_add]
    rfl
  · exact .guard (.lift (keeps_malformed _ _)) (.pure (.refl _))

omit hj in
theorem paramsHand_cons (p : Param) (params : List Param) :
    paramsHand (p :: params) = paramsHand [p] + paramsHand params := by
  unfold paramsHand
  rw [← List.singleton_append, List.filterMap_append, ← Multiset.coe_add, Hand.ofValues_add]

omit hj in
theorem paramsHand_reverse (params : List Param) : paramsHand params.reverse = paramsHand params := by
  rw [paramsHand, List.filterMap_reverse, Multiset.coe_reverse]
  rfl

theorem keeps_parameters (function : String) (n : Nat) (read : List Param) :
    Keeps (paramsHand read) (parameters j function n read) (parameters j' function n read)
      paramsHand := by
  induction n generalizing read with
  | zero => exact .lift keeps_exhausted
  | succ n ih =>
    have done (read : List Param) : (paramsHand read).Gives (paramsHand read.reverse) :=
      .of_eq (paramsHand_reverse read).symm
    refine .skip keeps_kind fun _ => .ite (.pure (done read)) (.next (keeps_parameter hj _ _) fun p => ?_)
    rw [add_comm, ← paramsHand_cons]
    exact .skip (.lift (keeps_skipOver _)) fun _ => .ite (ih _) (.pure (done _))

theorem keeps_functStatement (n : Nat) :
    Keeps 0 (functStatement j n) (functStatement j' n) Status.hand := by
  refine .skip keeps_current fun _ => .skip (.lift (keeps_skipOver _)) fun isAsync => ?_
  refine .skip (.lift (keeps_advance _)) fun _ => .skip (.lift (keeps_advance _)) fun _ => ?_
  refine .skip (.lift (keeps_advance _)) fun name => .skip (.lift (keeps_advance _)) fun _ => ?_
  refine .bind (keeps_parameters hj _ _ []) fun params => .skip (.lift (keeps_advance _)) fun _ => ?_
  refine .skip (.lift (keeps_enterBlock _)) fun _ => .skip keeps_capture fun entry => ?_
  refine .skip (.lift (keeps_skipBody _)) fun _ => .skip keeps_get fun m => ?_
  refine .skip keeps_scope fun scope => .bind (keeps_newFunction ⟨_, .script ⟨params, _, _, _, _, _⟩⟩) fun f => ?_
  exact .bind (keeps_define _ _) fun _ => .pure (.refl _)

omit hj in
theorem keeps_parentBlueprint : Keeps 0 parentBlueprint parentBlueprint fun _ => 0 := by
  refine .skip (.lift (keeps_skipOver _)) fun _ => .ite (.pure (.refl _)) ?_
  refine .skip (.lift (keeps_advance _)) fun _ => .bind (keeps_lookup _) fun found => ?_
  refine .of_gives (.drop _) ?_
  split
  · exact .pure (.refl _)
  · exact keeps_complain _ _
  · exact keeps_complain _ _

omit hj in
/-- The body of a blueprint has a tape of its own. -/
theorem keeps_inBlueprint (r : Ref .blueprint) (members : Ref .scope) {x x' : Run α}
    {post : α → Hand} (hx : Keeps 0 x x' post) :
    Keeps 0 (inBlueprint r members x) (inBlueprint r members x') (Keeps.handedOn post) := by
  intro m R hm
  have entered : (memberMachine m r members).Safe R :=
    hm.change rfl (le_of_eq (by
      simp only [Machine.stock_eq, memberMachine, tapesHand_thread, Thread.waiting_tape, Thread.hand, hand_empty]
      abel)) hm.parking (Machine.tasks_enter _ rfl (.inl rfl)) rfl
  refine Fares.caught _ (ownerMachine m) (fun x => inBlueprint_run r members x m)
    (fun _ hb => congrArg (fun b => { b with pinned := m.pinned }) hb) (fun m' K hb h => ?_) hx entered
  have hp : m'.pinned = .thread m.thread.waiting :: m.pinned := congrArg Bonds.pinned hb
  refine h.change rfl ?_ h.parking (Machine.tasks_leave hp rfl (.inr rfl)) rfl
  refine le_of_le_of_eq (Multiset.le_add_right _ m'.thread.tape.hand) ?_
  simp only [Machine.stock_eq, ownerMachine, hp, tapesHand_thread, Thread.waiting_tape, Thread.hand]
  abel

theorem keeps_blueprintStatement :
    Keeps 0 (blueprintStatement j) (blueprintStatement j') Status.hand := by
  refine .skip (.lift keeps_bump) fun _ => .skip (.lift (keeps_advance _)) fun _ => ?_
  refine .skip (.lift (keeps_advance _)) fun name => .skip keeps_parentBlueprint fun parent => ?_
  refine .skip (.lift (keeps_enterBlock _)) fun _ => .skip keeps_scope fun outer => ?_
  refine .skip (keeps_onWorld (fun _ _ => id) fun w R hw => hw.newBlueprint _ _ _) fun p => ?_
  obtain ⟨r, members⟩ := p
  refine .bind (keeps_inBlueprint r members (hj.body _)) fun ended => ?_
  split
  · exact .stop (.refl _)
  · exact .of_gives (.of_flat (g := .owned (.blueprint r)) rfl) (.bind (keeps_define _ (.blueprint r)) fun _ => .pure (.refl _))
  · exact .pure (.refl _)

/-! ### Modules -/

omit hj in
/-- A namespace that is kept may be copied. -/
theorem keeps_namespace? (path : String) :
    Keeps 0 (namespace? path) (namespace? path) fun found => knownHand found.toList := by
  intro m R hm
  rw [namespace?_run]
  refine .ok rfl ?_
  rw [add_zero] at hm
  cases hf : m.modules.find? (·.1 == path) with
  | none => exact hm.of_gives (.of_eq (add_zero _).symm)
  | some e =>
    have kept : .owned e.2 ∈ m.stock := by
      have mem := List.mem_map_of_mem (f := (·.2)) (List.mem_of_find?_eq_some hf)
      refine Multiset.mem_add.2 (.inl (Multiset.mem_add.2 (.inl ?_)))
      exact Multiset.mem_map_of_mem _ (Multiset.mem_coe.2 mem)
    have learnt := hm.world.learn (hm.world.knows (.inl (Multiset.mem_add.2 (.inl kept))))
    have known : m.Safe (R + {.known e.2}) := { hm with world := by rwa [← add_assoc] }
    exact known

omit hj in
/-- Namespaces that are changed. -/
theorem keeps_modules {f : List (String × Value) → List (String × Value)}
    (hf : ∀ entries, (.ofValues ↑((f entries).map (·.2)) : Hand) ≤ .ofValues ↑(entries.map (·.2)) + H) :
    Keeps H (modify fun m => { m with modules := f m.modules } : EStateM ε Machine Unit)
      (modify fun m => { m with modules := f m.modules }) fun _ => 0 :=
  fun m R hm => .ok rfl (hm.change rfl (by
    have less := add_le_add_right (hf m.modules) (tapesHand m.pinned + m.thread.hand + R)
    refine (le_of_eq ?_).trans (less.trans_eq ?_)
    · simp only [Machine.stock_eq]
      abel
    · simp only [Machine.stock_eq]
      abel) hm.parking (fun _ => id) rfl)

omit hj in
theorem keeps_dropNamespace (path : String) :
    Keeps 0 (dropNamespace path) (dropNamespace path) fun _ => 0 :=
  keeps_modules fun entries => by
    rw [add_zero]
    exact Hand.ofValues_mono (Multiset.coe_le.2 (List.filter_sublist.map _).subperm)

omit hj in
theorem keeps_keepNamespace (path : String) (v : Value) :
    Keeps {.owned v} (keepNamespace path v) (keepNamespace path v) fun _ => 0 :=
  .skip (keeps_dropNamespace path) fun _ => keeps_modules fun entries => le_of_eq (by
    rw [List.map_cons, hand_collected])

omit hj in
theorem keeps_newMember (name : String) (native : Native) :
    Keeps 0 (do return (name, ← newFunction ⟨name, .native native⟩) : Eval (String × Value))
      (do return (name, ← newFunction ⟨name, .native native⟩)) fun e => {.owned e.2} :=
  .bind (keeps_newFunction ⟨name, .native native⟩) fun _ => .pure (.refl _)

omit hj in
theorem sum_owned (entries : List (String × Value)) :
    (entries.map fun e => ({.owned e.2} : Hand)).sum = .ofValues ↑(entries.map (·.2)) := by
  induction entries with
  | nil => rfl
  | cons e entries ih => rw [List.map_cons, List.sum_cons, ih, List.map_cons, ← hand_collected, add_comm]

omit hj in
/-- Values that are one's own make a dictionary that is one's own. -/
theorem keeps_newNamespace (entries : List (String × Value)) :
    Keeps (entries.map fun e => {.owned e.2}).sum
      (onHeap (Heap.newDict (entries.foldl (fun d e => d.set e.1 e.2) {})) : Eval Value)
      (onHeap (Heap.newDict (entries.foldl (fun d e => d.set e.1 e.2) {}))) fun v => {.owned v} := by
  refine .of_gives (.of_le ?_) (keeps_newDict _)
  rw [sum_owned]
  exact Hand.ofValues_mono ((Dict.values_foldl_set_le entries {}).trans_eq (zero_add _))

omit hj in
theorem keeps_weaverModule : Keeps 0 weaverModule weaverModule fun v => {.known v} := by
  unfold weaverModule
  -- which functions there are does not matter, and the list is better not computed with
  generalize Native.weaver = natives
  refine .bind (keeps_namespace? _) fun found => ?_
  cases found with
  | some v => exact .pure (.of_eq (knownHand_singleton v))
  | none =>
    have none : (natives.map fun _ => (0 : Hand)).sum = 0 := by simp
    refine .of_gives (.of_eq none.symm) (.bind (.mapM (fun native => keeps_newMember native.name native) natives) fun members => ?_)
    refine .bind (keeps_newNamespace members) fun v => ?_
    refine .of_gives (.know (.inl (Multiset.mem_singleton_self _))) ?_
    rw [add_comm]
    exact .after (keeps_keepNamespace _ v) fun _ => .pure (.of_eq (add_zero _))

omit hj in
theorem sum_known (entries : List (String × Value)) :
    (entries.map fun e => ({.known e.2} : Hand)).sum = knownHand (entries.map (·.2)) := by
  induction entries with
  | nil => rfl
  | cons e entries ih => rw [List.map_cons, List.sum_cons, ih, List.map_cons, knownHand_cons]

omit hj in
/-- What a module exports are copies. -/
theorem keeps_exports (r : Ref .scope) : Keeps 0 (exports r) (exports r) fun v => {.owned v} := by
  refine .bind (keeps_askFor _ (fun entries => knownHand (entries.map (·.2))) fun w R hw => ?_)
    fun entries => ?_
  · rw [add_zero] at hw
    exact hw.learnAll fun v hv => hw.knows_opened (World.mem_opened_of_entries hv)
  · generalize hl : (entries.filter fun e => !e.1.startsWith "_") = listed
    have exported : listed.Sublist entries := hl ▸ List.filter_sublist
    refine .of_gives (.of_le (knownHand_mono (exported.map _))) ?_
    rw [← sum_known]
    refine .bind (.mapM (fun e => ?_) _) keeps_newNamespace
    exact .bind (keeps_duplicate e.2) fun _ => .pure (.refl _)

omit hj in
/-- What the thread goes on with that waits for the module is held meanwhile. -/
theorem safe_moduleMachine {m : Machine} {R : Hand} (hm : m.Safe R) (cursor : Cursor) (r : Ref .scope)
    (directory : Option String) : (moduleMachine m cursor r directory).Safe (R + m.thread.ahead) :=
  hm.change rfl (le_of_eq (by
    simp only [Machine.stock_eq, moduleMachine, tapesHand_thread, Thread.waiting_tape, Thread.hand, Thread.ahead,
      hand_empty, framesHand_nil]
    abel)) rfl (Machine.tasks_enter _ rfl (.inr rfl)) rfl

omit hj in
/-- The body of a module has a thread of its own. -/
theorem keeps_inModule (cursor : Cursor) (r : Ref .scope) (directory : Option String)
    {x x' : Run α} {post : α → Hand} (hx : Keeps 0 x x' post) :
    Keeps 0 (inModule cursor r directory x) (inModule cursor r directory x')
      (Keeps.handedOn post) := by
  intro m R hm
  have entered := safe_moduleMachine (by rwa [add_zero] at hm) cursor r directory
  refine Fares.caught _ (loaderMachine m) (fun x => inModule_run cursor r directory x m)
    (fun _ hb => congrArg (fun b => { m.bonds with weaving := b.weaving }) hb) (fun m' K hb h => ?_)
    hx entered
  have hp : m'.pinned = .thread m.thread.waiting :: m.pinned := congrArg Bonds.pinned hb
  refine h.change rfl ?_ hm.parking (Machine.tasks_leave hp rfl (.inl rfl)) rfl
  refine le_of_le_of_eq (Multiset.le_add_right _ m'.thread.hand) ?_
  simp only [Machine.stock_eq, loaderMachine, hp, tapesHand_thread, Thread.waiting_tape, Thread.hand, Thread.ahead]
  abel

omit hj in
theorem keeps_openModule (name path : String) :
    Keeps 0 (openModule name path) (openModule name path) fun _ => 0 := by
  refine .skip keeps_get fun m => ?_
  split
  · exact .pure (.refl _)
  · refine .skip keeps_get fun m => ?_
    refine .skip (keeps_modify (fun _ => rfl) (fun _ => rfl) (fun _ => rfl) fun _ => rfl) fun _ => ?_
    exact .pure (.refl _)

omit hj in
theorem keeps_forget (path : String) (r : Ref .scope) :
    Keeps 0 (runModule.forget path r) (runModule.forget path r) fun _ => 0 :=
  .skip (keeps_dropNamespace _) fun _ => keeps_clear r

omit hj in
/-- The namespace of a module is kept, and a copy of it given. -/
theorem keeps_keepModule (r : Ref .scope) (path : String) : Keeps 0 (do
      let v ← exports r
      let bound ← onHeap (Heap.duplicate v)
      keepNamespace path v
      modify fun m => { m with moduleScopes := r :: m.moduleScopes }
      return bound : Eval Value) (do
      let v ← exports r
      let bound ← onHeap (Heap.duplicate v)
      keepNamespace path v
      modify fun m => { m with moduleScopes := r :: m.moduleScopes }
      return bound) fun v => {.owned v} := by
  refine .bind (keeps_exports r) fun v => ?_
  -- the namespace and the importer's value are two copies; what is kept is the one the module
  -- made
  refine .of_gives (.know (.inl (Multiset.mem_singleton_self _))) (.after (keeps_duplicate v) fun bound => ?_)
  rw [add_comm]
  refine .after (keeps_keepNamespace _ _) fun _ => ?_
  rw [add_zero]
  refine .skip (keeps_modify (fun _ => rfl) (fun _ => rfl) (fun _ => rfl) fun _ => rfl) fun _ => ?_
  exact .pure (.refl _)

theorem keeps_runModule (name path : String) :
    Keeps 0 (runModule j name path) (runModule j' name path) fun v => {.owned v} := by
  refine .of_gives (.of_flat (g := .owned .null) rfl) (.bind (keeps_keepNamespace path .null) fun _ => ?_)
  refine .skip (keeps_openModule _ _) fun opened => ?_
  split
  · exact .skip (keeps_dropNamespace _) fun _ => .lift (keeps_fail _)
  · refine .skip (keeps_newScope _) fun r => ?_
    refine .bind (keeps_inModule _ _ _ (hj.body 1)) fun ended => ?_
    split
    · exact .skip (keeps_forget _ _) fun _ => .stop (.refl _)
    · exact .skip (keeps_forget _ _) fun _ => .stop (.of_eq (by rfl))
    · exact .of_gives (.drop _) (keeps_keepModule _ _)

theorem keeps_loadModule (name : String) (site : Token) :
    Keeps 0 (loadModule j name site) (loadModule j' name site) fun v => {.owned v} := by
  refine .ite (.bind keeps_weaverModule keeps_duplicate) (.skip keeps_get fun m => ?_)
  split
  · exact keeps_complain _ _
  · refine .bind (keeps_namespace? _) fun found => ?_
    split
    · exact .of_gives (.of_eq (knownHand_singleton _)) (keeps_duplicate _)
    · exact keeps_runModule hj _ _

omit hj in
theorem keeps_moduleName : Keeps 0 moduleName moduleName fun _ => 0 := by
  refine .skip keeps_kind fun k => ?_
  split
  · exact keeps_bump
  · exact keeps_bump
  · exact .skip keeps_current fun _ => keeps_malformed _ _

omit hj in
theorem keeps_alias? : Keeps 0 alias? alias? fun _ => 0 := by
  refine .skip (keeps_skipOver _) fun _ => .ite ?_ (.pure (.refl _))
  exact .skip (keeps_advance _) fun _ => .pure (.refl _)

omit hj in
theorem keeps_selection (n : Nat) (read : List (Token × Option Token)) :
    Keeps 0 (selection n read) (selection n read) fun _ => 0 := by
  induction n generalizing read with
  | zero => exact keeps_exhausted
  | succ n ih =>
    refine .skip keeps_kind fun _ => .ite (.pure (.refl _)) ?_
    refine .skip (keeps_advance _) fun _ => .skip keeps_alias? fun _ => ?_
    exact .skip (keeps_skipOver _) fun _ => .ite (ih _) (.pure (.refl _))

omit hj in
theorem keeps_member? (exported : Value) (name : String) :
    Keeps 0 (bindSelection.member? exported name) (bindSelection.member? exported name)
      fun found => knownHand found.toList := by
  unfold bindSelection.member?
  split
  · refine keeps_askFor _ _ fun w R hw => ?_
    rw [add_zero] at hw
    refine hw.learnAll fun v hv => ?_
    exact hw.sound.knows _ v (Heap.mem_inside_dict (Option.mem_toList.1 hv))
  · exact .pure (.refl _)

omit hj in
theorem keeps_bindSelection (exported : Value) (module : String)
    (names : List (Token × Option Token)) :
    Keeps 0 (bindSelection exported module names) (bindSelection exported module names)
      fun _ => 0 := by
  induction names with
  | nil => exact .pure (.refl _)
  | cons name names ih =>
    obtain ⟨item, renamed⟩ := name
    refine .bind (keeps_member? exported item.text) fun found => ?_
    split
    · exact keeps_complain _ _
    · rename_i v
      exact .of_gives (.of_eq (knownHand_singleton v)) (.bind (keeps_duplicate v) fun copy =>
        .bind (keeps_define _ copy) fun _ => ih)

theorem keeps_loadItem (n : Nat) : Keeps 0 (loadItem j n) (loadItem j' n) fun _ => 0 := by
  refine .skip (.lift (keeps_skipOver _)) fun _ => .ite ?_ ?_
  · refine .skip (.lift (keeps_selection _ _)) fun _ => .skip (.lift (keeps_advance _)) fun _ => ?_
    refine .skip (.lift (keeps_advance _)) fun _ => .skip (.lift keeps_moduleName) fun _ => ?_
    exact .bind (keeps_loadModule hj _ _) fun _ => .of_gives (.drop _) (keeps_bindSelection _ _ _)
  · refine .skip (.lift keeps_moduleName) fun _ => .skip (.lift keeps_alias?) fun _ => ?_
    exact .bind (keeps_loadModule hj _ _) fun _ => keeps_define _ _

theorem keeps_loadItems (n : Nat) : Keeps 0 (loadItems j n) (loadItems j' n) fun _ => 0 := by
  induction n with
  | zero => exact .lift keeps_exhausted
  | succ n ih =>
    exact .skip (keeps_loadItem hj n) fun _ => .skip (.lift (keeps_skipOver _)) fun _ =>
      .ite ih (.pure (.refl _))

theorem keeps_loadStatement (n : Nat) :
    Keeps 0 (loadStatement j n) (loadStatement j' n) Status.hand :=
  .skip (.lift keeps_bump) fun _ => .skip (.lift (keeps_advance _)) fun _ =>
    .skip (keeps_loadItems hj n) fun _ => .skip (.lift keeps_endStatement) fun _ => .pure (.refl _)

/-! ### Blocks, branches and exceptions -/

omit hj in
theorem retains_finishBlock (column : Nat) {body body' : Run Status}
    (hb : Keeps 0 body body' Status.hand) :
    Retains 0 (finishBlock column body) (finishBlock column body') := by
  refine .bind (.lift hb) fun status => ?_
  cases status with
  | yielded => exact .park .block
  | _ =>
    refine .skip keeps_popScope fun _ => .skip keeps_current fun close => ?_
    refine .guard (.lift (keeps_malformed _ _)) (.guard (.lift (keeps_malformed _ _)) ?_)
    exact .skip (.lift keeps_bump) fun _ => .pure (.refl _)

theorem retains_blockStatement : Retains 0 (blockStatement j) (blockStatement j') :=
  .skip (.lift keeps_bump) fun _ => .skip keeps_pushScope fun _ =>
    retains_finishBlock _ (hj.body _)

omit hj in
theorem keeps_skipBranches (column n : Nat) :
    Keeps 0 (skipBranches column n) (skipBranches column n) fun _ => 0 := by
  induction n with
  | zero => exact keeps_exhausted
  | succ n ih =>
    refine .skip keeps_current fun token => .ite ?_ (.pure (.refl _))
    exact .skip keeps_bump fun _ => .skip (keeps_skipBody _) fun _ => ih

omit hj in
theorem retains_finishBranch (n column : Nat) {body body' : Run Status}
    (hb : Keeps 0 body body' Status.hand) :
    Retains 0 (finishBranch n column body) (finishBranch n column body') := by
  refine .bind (.lift hb) fun status => ?_
  cases status with
  | yielded => exact .park .branch
  | _ => exact .skip (.lift (keeps_skipBranches _ _)) fun _ => .pure (.refl _)

theorem retains_branches (column n : Nat) :
    Retains 0 (branches j column n) (branches j' column n) := by
  induction n with
  | zero => exact .of_keeps (.lift keeps_exhausted)
  | succ n ih =>
    refine .skip (.lift (keeps_advance _)) fun _ => .bind hj.expression fun _ => ?_
    refine .of_gives (.drop _) (.skip (keeps_truthy _) fun _ => .skip (.lift (keeps_enterBlock _)) fun _ => ?_)
    refine .ite (retains_finishBranch _ _ (hj.body _)) ?_
    refine .skip (.lift (keeps_skipBody _)) fun _ => .skip keeps_current fun token => ?_
    refine .ite (.pure (.refl _)) ?_
    split
    · exact .skip (.lift keeps_bump) fun _ => ih
    · exact .skip (.lift keeps_bump) fun _ => .skip (.lift (keeps_enterBlock _)) fun _ =>
        retains_finishBranch _ _ (hj.body _)
    · exact .pure (.refl _)

theorem retains_ifStatement (n : Nat) : Retains 0 (ifStatement j n) (ifStatement j' n) :=
  .skip (.lift keeps_bump) fun _ => retains_branches hj _ _

omit hj in
theorem keeps_isClause (k : TokenKind) (column : Nat) :
    Keeps 0 (isClause k column) (isClause k column) fun _ => 0 :=
  .skip keeps_current fun _ => .pure (.refl _)

/-- The values of a signal that waits for the end of `finally`. -/
def pendingHand (pending : Option Signal) : Hand :=
  .ofValues ↑(pending.toList.flatMap Signal.carried)

omit hj in
theorem pendingHand_some (signal : Signal) : pendingHand (some signal) = signal.hand := by
  rw [pendingHand, Option.toList_some, List.flatMap_singleton]
  rfl

omit hj in
theorem gives_ofPending (pending : Option Signal) :
    (pendingHand pending).Gives (Status.ofPending pending).hand := by
  cases pending with
  | none => exact .refl _
  | some signal => exact .of_eq (pendingHand_some signal)

omit hj in
theorem retains_finallyBody (pending : Option Signal) {body body' : Run Status}
    (hb : Keeps 0 body body' Status.hand) :
    Retains (pendingHand pending) (finallyBody pending body) (finallyBody pending body') := by
  refine .next (.holding _ (.lift hb)) fun status => ?_
  cases status with
  | yielded => exact .of_gives (.of_eq (add_zero _)) (.park (.attempt (.cleanup pending)))
  | normal => exact .of_gives (.of_eq (add_zero _)) (.pure (gives_ofPending pending))
  | leaving signal => exact .pure (.of_le (Multiset.le_add_left _ _))

theorem retains_finallyClause (column : Nat) (handled : Bool) (pending : Option Signal) :
    Retains (pendingHand pending) (finallyClause j column handled pending)
      (finallyClause j' column handled pending) := by
  refine .skip (.lift (keeps_isClause _ _)) fun _ => .ite ?_ ?_
  · exact .skip (.lift keeps_bump) fun _ => .skip (.lift (keeps_enterBlock _)) fun _ =>
      retains_finallyBody _ (hj.body _)
  · refine .ite (.skip keeps_current fun _ => .bind (M := fun _ => pendingHand pending)
      (.lift (keeps_malformed _ _)) fun _ => ?_) ?_
    all_goals exact .pure (gives_ofPending pending)

theorem retains_handlerBody (column : Nat) {body body' : Run Status}
    (hb : Keeps 0 body body' Status.hand) :
    Retains 0 (handlerBody j column body) (handlerBody j' column body') := by
  refine .bind (.lift hb) fun status => ?_
  cases status with
  | yielded => exact .park (.attempt .handler)
  | normal => exact .skip keeps_popScope fun _ => retains_finallyClause hj column true none
  | leaving signal =>
    refine .of_gives (.of_eq (pendingHand_some signal).symm) ?_
    exact .skip keeps_popScope fun _ => retains_finallyClause hj column true (some signal)

theorem retains_clause (column : Nat) (pending : Option Signal) (name : Option Token) :
    Retains (pendingHand pending)
    (do
      enterBlock column
      match pending with
      | some (.raised r) =>
        pushScope
        match name with
        | some token => define token.text r.value
        | none => pure ()
        handlerBody j column (j.body (column + 4))
      | other =>
        skipBody (column + 4)
        finallyClause j column true other : Eval Status)
    (do
      enterBlock column
      match pending with
      | some (.raised r) =>
        pushScope
        match name with
        | some token => define token.text r.value
        | none => pure ()
        handlerBody j' column (j'.body (column + 4))
      | other =>
        skipBody (column + 4)
        finallyClause j' column true other) := by
  refine .skip (.lift (keeps_enterBlock _)) fun _ => ?_
  split
  · -- the exception's value is bound in the handler's scope, and otherwise let go
    rename_i r
    refine .skip keeps_pushScope fun _ => ?_
    cases name with
    | some token =>
      refine .of_gives (.of_eq (pendingHand_some (.raised r))) ?_
      exact .bind (keeps_define token.text r.value) fun _ => retains_handlerBody hj _ (hj.body _)
    | none => exact .of_gives (.drop _) (retains_handlerBody hj _ (hj.body _))
  · exact .skip (.lift (keeps_skipBody _)) fun _ => retains_finallyClause hj _ _ _

theorem retains_handlerClause (column : Nat) (pending : Option Signal) :
    Retains (pendingHand pending) (handlerClause j column pending)
      (handlerClause j' column pending) := by
  refine .skip (.lift keeps_bump) fun _ => .skip (.lift (keeps_skipOver _)) fun _ => .ite ?_ ?_
  · have named : Keeps 0 (some <$> (advance .ident : Eval Token)) (some <$> (advance .ident : Eval Token))
        fun _ => 0 := by
      rw [map_eq_pure_bind]
      exact .skip (.lift (keeps_advance _)) fun _ => .pure (.refl _)
    exact .skip named fun _ => retains_clause hj _ _ _
  · exact .skip (.pure (.refl _)) fun _ => retains_clause hj _ _ _

theorem retains_tryClauses (column : Nat) (pending : Option Signal) :
    Retains (pendingHand pending) (tryClauses j column pending) (tryClauses j' column pending) :=
  .skip (.lift (keeps_isClause _ _)) fun _ =>
    .ite (retains_handlerClause hj _ _) (retains_finallyClause hj _ _ _)

theorem retains_runTry (column : Nat) {body body' : Run Status}
    (hb : Keeps 0 body body' Status.hand) (phase : TryPhase) :
    Retains (FrameKind.attempt phase).hand (runTry j column body phase)
      (runTry j' column body' phase) := by
  cases phase with
  | body =>
    refine .bind (.lift hb) fun status => ?_
    cases status with
    | yielded => exact .park (.attempt .body)
    | normal => exact retains_tryClauses hj column none
    | leaving signal =>
      exact .of_gives (.of_eq (pendingHand_some signal).symm)
        (retains_tryClauses hj column (some signal))
  | handler => exact retains_handlerBody hj _ hb
  | cleanup pending => exact retains_finallyBody pending hb

theorem retains_tryStatement : Retains 0 (tryStatement j) (tryStatement j') :=
  .skip (.lift keeps_bump) fun _ => .skip (.lift (keeps_enterBlock _)) fun _ =>
    retains_runTry hj _ (hj.body _) .body

/-! ### Loops -/

theorem keeps_whileCondition (column : Nat) (header : Position) :
    Keeps 0 (whileCondition j column header) (whileCondition j' column header) fun _ => 0 := by
  refine .skip (.lift (keeps_rewind _)) fun _ => .skip keeps_resetTapeUnlessReplaying fun _ => ?_
  refine .skip keeps_current fun _ => .bind hj.expression fun v => .of_gives (.drop _) ?_
  split
  · exact .skip (.lift (keeps_enterBlock _)) fun _ => .pure (.refl _)
  · exact keeps_complain _ _

omit hj in
theorem retains_whileRound (header : Position) {again again' : Eval Status}
    (ha : Retains 0 again again') {body body' : Run Status}
    (hb : Keeps 0 body body' Status.hand) :
    Retains 0 (whileRound header again body) (whileRound header again' body') := by
  refine .bind (.lift hb) fun status => ?_
  split
  · exact ha
  · exact .of_gives (.drop _) ha
  · exact .park (.whileLoop header)
  · exact .pure (.drop _)
  · exact .pure (.refl _)

theorem retains_whileRounds (column : Nat) (header : Position) (n : Nat) :
    Retains 0 (whileRounds j column header n) (whileRounds j' column header n) := by
  induction n with
  | zero => exact .of_keeps (.lift keeps_exhausted)
  | succ n ih =>
    refine .skip (keeps_whileCondition hj _ _) fun _ => .ite ?_ ?_
    · exact retains_whileRound _ ih (hj.body _)
    · exact .skip (.lift (keeps_skipBody _)) fun _ => .pure (.refl _)

omit hj in
theorem keeps_leaveLoop (column : Nat) (body : Position) :
    Keeps 0 (leaveLoop column body) (leaveLoop column body) fun _ => 0 :=
  .skip keeps_popScope fun _ => .skip (.lift (keeps_rewind _)) fun _ =>
    .lift (keeps_skipBody _)

omit hj in
theorem flat_advance? {l next : RangeLoop} (h : l.advance? = some next) :
    next.current.box? = none := by
  unfold RangeLoop.advance? at h
  split at h
  · dsimp only at h
    split at h
    · obtain rfl := Option.some.inj h
      rfl
    · contradiction
  · obtain rfl := Option.some.inj h
    rfl

omit hj in
theorem retains_advance? (column : Nat) (l : RangeLoop) {again again' : RangeLoop → Eval Status}
    (ha : ∀ l, Retains {.flat l.current} (again l) (again' l)) : Retains H
    (match l.advance? with
    | some l => again l
    | none => do
      leaveLoop column l.body
      return .normal : Eval Status)
    (match l.advance? with
    | some l => again' l
    | none => do
      leaveLoop column l.body
      return .normal) := by
  split
  · rename_i next hn
    exact .of_gives (.of_flat (g := .flat _) (flat_advance? hn)) (ha _)
  · exact .of_gives (.drop _) (.skip (keeps_leaveLoop _ _) fun _ => .pure (.refl _))

omit hj in
theorem retains_rangeRound (column : Nat) (l : RangeLoop) {again again' : RangeLoop → Eval Status}
    (ha : ∀ l, Retains {.flat l.current} (again l) (again' l)) {body body' : Run Status}
    (hb : Keeps 0 body body' Status.hand) :
    Retains {.flat l.current} (rangeRound column l again body) (rangeRound column l again' body') := by
  refine .next (.lift hb) fun status => ?_
  have next : Retains ({.flat l.current} + status.hand) _ _ := retains_advance? column l ha
  split
  · exact next
  · exact next
  · exact .of_gives (.of_eq (add_zero _)) (.park (.rangeLoop l))
  · exact .of_gives (.drop _) (.skip (keeps_leaveLoop _ _) fun _ => .pure (.refl _))
  · exact .of_gives (.of_le (Multiset.le_add_left _ _))
      (.skip (keeps_leaveLoop _ _) fun _ => .pure (.refl _))

theorem retains_rangeRounds (column n : Nat) (l : RangeLoop) :
    Retains {.flat l.current} (rangeRounds j column n l) (rangeRounds j' column n l) := by
  induction n generalizing l with
  | zero => exact .of_keeps (.lift keeps_exhausted)
  | succ n ih =>
    refine .ite (.of_gives (.drop _) (.skip (keeps_leaveLoop _ _) fun _ => .pure (.refl _))) ?_
    refine .of_gives (.unflat l.current) (.bind ((keeps_define _ _).frame _) fun _ => ?_)
    rw [add_zero]
    exact .skip (.lift (keeps_rewind _)) fun _ => retains_rangeRound _ _ ih (hj.body _)

omit hj in
theorem retains_eachRound (column : Nat) (l : EachLoop) {again again' : EachLoop → Eval Status}
    (ha : ∀ next, Retains (FrameKind.eachLoop l).hand (again { l with next }) (again' { l with next }))
    {body body' : Run Status} (hb : Keeps 0 body body' Status.hand) :
    Retains (FrameKind.eachLoop l).hand (eachRound column l again body)
      (eachRound column l again' body') := by
  refine .next (.lift hb) fun status => ?_
  split
  · exact .of_gives (.of_eq (add_zero _)) (ha _)
  · exact .of_gives (.of_le (Multiset.le_add_right _ _)) (ha _)
  · exact .of_gives (.of_eq (add_zero _)) (.park (.eachLoop l))
  · exact .of_gives (.drop _) (.skip (keeps_leaveLoop _ _) fun _ => .pure (.refl _))
  · exact .of_gives (.of_le (Multiset.le_add_left _ _))
      (.skip (keeps_leaveLoop _ _) fun _ => .pure (.refl _))

theorem retains_eachRounds (column n : Nat) (l : EachLoop) :
    Retains (FrameKind.eachLoop l).hand (eachRounds j column n l) (eachRounds j' column n l) := by
  induction n generalizing l with
  | zero => exact .of_keeps (.lift keeps_exhausted)
  | succ n ih =>
    unfold eachRounds
    split
    · exact .of_gives (.drop _) (.skip (keeps_leaveLoop _ _) fun _ => .pure (.refl _))
    · rename_i item hi
      have among : Grip.known item ∈ (FrameKind.eachLoop l).hand :=
        Multiset.mem_map_of_mem _ (Multiset.mem_coe.2 (Array.mem_toList_iff.2 (Array.mem_of_getElem? hi)))
      refine .of_gives (.copy rfl among) (.bind ((keeps_duplicate item).frame _) fun v => ?_)
      refine .bind ((keeps_define _ v).frame _) fun _ => ?_
      rw [add_zero]
      exact .skip (.lift (keeps_rewind _)) fun _ =>
        retains_eachRound _ _ (fun next => ih { l with next }) (hj.body _)

omit hj in
theorem retains_overItems (l : EachLoop) {x x' : Eval Status} (hx : Retains H x x') :
    Retains H (overItems l x) (overItems l x') := .holding _ (.inLoop hx)

omit hj in
/-- The bounds of a loop that begins are numbers. -/
theorem keeps_checkBounds (first last step : Value) (site : Token) :
    Keeps 0 (checkBounds first last step site) (checkBounds first last step site)
      fun _ => {.flat first} := by
  have checked : Keeps 0 (checkBounds first last step site) (checkBounds first last step site)
      fun _ => 0 := by
    refine .skip ?_ fun _ => .ite (keeps_complain _ _) (.pure (.refl _))
    generalize [first, last, step] = bounds
    -- one bound after another; the first that is no number ends the check
    induction bounds with
    | nil => exact .pure (.refl _)
    | cons bound bounds ih =>
      rw [List.forIn_cons]
      refine .skip (.ite (.skip (keeps_complain _ _) fun _ => .pure (.refl _)) (.pure (.refl _)))
        fun next => ?_
      split
      · exact .pure (.refl _)
      · exact ih
  -- what is checked has no parts: a bound that is a container is no number, and the check stops
  by_cases flat : first.box? = none
  · exact checked.gives fun _ => .of_flat (g := .flat first) flat
  · have none : first.number?.isNone = true := by cases first <;> simp_all [Value.box?, Value.number?]
    have stops : checkBounds first last step site = complain (.boundNotNumber first.kind) site := by
      unfold checkBounds
      rw [List.forIn_cons, if_pos none]
      rfl
    rw [stops]
    exact keeps_complain _ _

theorem retains_rangeLoop (n column : Nat) (var : String) :
    Retains 0 (rangeLoop j n column var) (rangeLoop j' n column var) := by
  refine .skip (.lift keeps_bump) fun _ => .skip keeps_current fun site => ?_
  -- the loop holds its three numbers, in which no container is
  have rounds (first last step : Value) : Retains 0 (do
      enterBlock column
      checkBounds first last step site
      let l := { var, current := first, last, step, body := ← capture }
      pushScope
      inLoop (rangeRounds j column n l) : Eval Status) (do
      enterBlock column
      checkBounds first last step site
      let l := { var, current := first, last, step, body := ← capture }
      pushScope
      inLoop (rangeRounds j' column n l) : Eval Status) :=
    .skip (.lift (keeps_enterBlock _)) fun _ => .bind (keeps_checkBounds _ _ _ _) fun _ =>
      .skip keeps_capture fun body => .skip keeps_pushScope fun _ =>
        .inLoop (retains_rangeRounds hj column n ⟨var, first, last, step, body⟩)
  refine .bind hj.expression fun held => .bind (keeps_own held) fun first => .of_gives (.drop _) ?_
  refine .skip (.lift (keeps_advance _)) fun _ => .bind (.holding _ hj.expression) fun held => ?_
  refine .bind (keeps_own held) fun last => .of_gives (.drop _) ?_
  refine .skip (.lift (keeps_skipOver _)) fun _ => .ite ?_ ?_
  · exact .bind (.holding _ hj.expression) fun held => .bind (keeps_own held) fun _ =>
      .of_gives (.drop _) (rounds _ _ _)
  · exact .skip (.pure (.refl _)) fun _ => rounds _ _ _

omit hj in
/-- What a loop goes through may be copied. -/
theorem keeps_iterable (collection : Held) : Keeps collection.hand
    (ask fun w => iterable w.heap collection.value : Eval (Except Complaint (Array Value)))
    (ask fun w => iterable w.heap collection.value)
    (Keeps.handedOn fun items => knownHand items.toList) :=
  keeps_askFor _ _ fun w R hw => by
    -- the items of a collection stand in it, and those of a text or a dictionary are texts made
    -- for the loop
    have known {items : Array Value} (h : iterable w.heap collection.value = .ok items) :
        ∀ v ∈ items.toList, w.heap.Knows v := by
      unfold iterable at h
      split at h
      · obtain rfl := Except.ok.inj h
        exact fun v hv => hw.sound.knows _ v (Heap.mem_inside_array hv)
      · obtain rfl := Except.ok.inj h
        exact fun v hv => hw.sound.knows _ v (Heap.mem_inside_tuple hv)
      · obtain rfl := Except.ok.inj h
        intro v hv
        obtain ⟨c, -, rfl⟩ := List.mem_map.1 (by simpa only [List.toList_toArray] using hv)
        exact Heap.knows_of_box? rfl
      · obtain rfl := Except.ok.inj h
        intro v hv
        obtain ⟨key, -, rfl⟩ := List.mem_map.1 (by simpa only [List.toList_toArray] using hv)
        exact Heap.knows_of_box? rfl
      · contradiction
    cases h : iterable w.heap collection.value with
    | ok items => exact hw.left.learnAll (known h)
    | error c => exact hw.of_gives (.frame R (.drop _))

theorem retains_eachLoop (n column : Nat) (var : String) :
    Retains 0 (eachLoop j n column var) (eachLoop j' n column var) := by
  refine .skip (.lift keeps_bump) fun _ => .skip keeps_current fun _ => ?_
  refine .bind hj.expression fun collection => .skip (.lift (keeps_enterBlock _)) fun _ => ?_
  refine .bind (keeps_iterable collection) fun found => .bind (keeps_orComplain _ _) fun items => ?_
  refine .skip keeps_capture fun body => .skip keeps_pushScope fun _ => ?_
  exact retains_overItems _ (retains_eachRounds hj column n ⟨var, items, 0, body⟩)

theorem retains_forLoop (n column : Nat) :
    Retains 0 (forLoop j n column) (forLoop j' n column) := by
  refine .skip (.lift (keeps_advance _)) fun _ => .skip (.lift (keeps_advance _)) fun var => ?_
  refine .skip keeps_kind fun k => ?_
  split
  · exact retains_rangeLoop hj _ _ _
  · exact retains_eachLoop hj _ _ _
  · exact .of_keeps (.skip keeps_current fun _ => .lift (keeps_malformed _ _))

theorem retains_loopStatement (n : Nat) :
    Retains 0 (loopStatement j n) (loopStatement j' n) := by
  refine .skip (.lift keeps_bump) fun _ => .skip (.lift (keeps_advance _)) fun _ => ?_
  refine .skip keeps_kind fun k => ?_
  split
  · exact .skip (.lift keeps_bump) fun _ => .skip keeps_capture fun _ =>
      .inLoop (retains_whileRounds hj _ _ _)
  · exact retains_forLoop hj _ _
  · exact .of_keeps (.skip keeps_current fun _ => .lift (keeps_malformed _ _))

/-! ### Statements -/

theorem keeps_resultItems (n : Nat) (read : List Value) :
    Keeps (.ofValues ↑read) (resultItems j n read) (resultItems j' n read)
      fun vs => .ofValues ↑vs := by
  induction n generalizing read with
  | zero => exact .lift keeps_exhausted
  | succ n ih =>
    refine .skip (.lift (keeps_skipOver _)) fun _ => .ite ?_ (.pure (gives_reverse read))
    refine keeps_kept hj read fun v => ?_
    rw [hand_collected]
    exact ih _

theorem keeps_returnStatement (n : Nat) :
    Keeps 0 (returnStatement j n) (returnStatement j' n) Status.hand := by
  refine .skip (.lift keeps_bump) fun _ => .skip keeps_mode fun _ => ?_
  refine .guard (.lift (keeps_malformed _ _)) (.skip (.lift (keeps_advance _)) fun _ => ?_)
  refine .skip keeps_current fun _ => .ite (.pure (.of_flat rfl)) ?_
  refine .bind hj.expression fun held => .bind (keeps_own held) fun first => .skip keeps_kind fun _ => ?_
  have ended (v : Value) : Keeps {.owned v} (do endStatement; return .leaving (.result v) : Eval Status)
      (do endStatement; return .leaving (.result v)) Status.hand :=
    .skip (.lift keeps_endStatement) fun _ => .pure (.refl _)
  refine .ite ?_ ?_
  · exact .bind (keeps_resultItems hj n [first]) fun values => .bind (keeps_newTuple values) ended
  · exact .bind (M := fun v => {.owned v}) (.pure (.refl _)) ended

theorem keeps_raiseStatement :
    Keeps 0 (raiseStatement j) (raiseStatement j') Status.hand := by
  refine .skip (.lift keeps_bump) fun _ => .skip (.lift (keeps_advance _)) fun _ => ?_
  refine .bind hj.expression fun held => .bind (keeps_own held) fun v => ?_
  refine .skip (.lift keeps_endStatement) fun _ => ?_
  split
  · exact .pure (.refl _)
  · exact keeps_complain _ _

omit hj in
theorem keeps_loopSignal (signal : Signal) (hs : signal.hand = 0) :
    Keeps 0 (loopSignal signal) (loopSignal signal) Status.hand := by
  refine .skip keeps_current fun _ => .skip keeps_mode fun _ => ?_
  refine .guard (.lift (keeps_malformed _ _)) (.skip (.lift keeps_bump) fun _ => ?_)
  exact .skip (.lift keeps_endStatement) fun _ => .pure (.of_eq hs.symm)

omit hj in
theorem keeps_skipStatement : Keeps 0 skipStatement skipStatement Status.hand :=
  .skip (.lift keeps_bump) fun _ => .skip (.lift keeps_endStatement) fun _ => .pure (.refl _)

theorem keeps_expressionStatement :
    Keeps 0 (expressionStatement j) (expressionStatement j') Status.hand :=
  .bind hj.expression fun _ => .of_gives (.drop _)
    (.skip (.lift keeps_endStatement) fun _ => .pure (.refl _))

theorem retains_statement (n : Nat) : Retains 0 (statement j n) (statement j' n) := by
  refine .skip keeps_current fun token => .skip keeps_mode fun _ => ?_
  refine .guard (.lift (keeps_malformed _ _)) ?_
  -- the statements that run no body keep what they hold as expressions do
  cases token.kind with
  | kwLet => exact .of_keeps (keeps_letStatement hj n)
  | kwFunct | kwAsync => exact .of_keeps (keeps_functStatement hj n)
  | kwReturn => exact .of_keeps (keeps_returnStatement hj n)
  | kwIf => exact retains_ifStatement hj n
  | kwLoop => exact retains_loopStatement hj n
  | kwBreak | kwContinue => exact .of_keeps (keeps_loopSignal _ rfl)
  | kwSkip => exact .of_keeps keeps_skipStatement
  | lbrace => exact retains_blockStatement hj
  | kwRaise => exact .of_keeps (keeps_raiseStatement hj)
  | kwTry => exact retains_tryStatement hj
  | kwBlueprint => exact .of_keeps (keeps_blueprintStatement hj)
  | kwLoad => exact .of_keeps (keeps_loadStatement hj n)
  | ident | kwSuper | kwAwait => exact .of_keeps (keeps_expressionStatement hj)
  | eof => exact .pure (.refl _)
  | _ => exact .of_keeps (.lift (keeps_malformed _ _))

theorem retains_reenter (n column : Nat) {body body' : Run Status}
    (hb : Keeps 0 body body' Status.hand) (kind : FrameKind) :
    Retains kind.hand (reenter j n column body kind) (reenter j' n column body' kind) := by
  cases kind with
  | simple => exact retains_statement hj n
  | block => exact retains_finishBlock _ hb
  | branch => exact retains_finishBranch _ _ hb
  | whileLoop header => exact .inLoop (retains_whileRound _ (retains_whileRounds hj _ _ _) hb)
  | rangeLoop l => exact .inLoop (retains_rangeRound _ _ (retains_rangeRounds hj _ _) hb)
  | eachLoop l =>
    exact retains_overItems _ (retains_eachRound _ _
      (fun next => retains_eachRounds hj _ _ { l with next }) hb)
  | attempt phase => exact retains_runTry hj _ hb _

/-! ### Bodies -/

omit hj in
/-- What a construct goes on with is taken from the thread. -/
theorem keeps_takeFrame (start : Position) :
    Keeps 0 (takeFrame start) (takeFrame start) fun kind => kind.elim 0 FrameKind.hand := by
  intro m R hm
  rw [takeFrame_run]
  split
  · rename_i frame rest hr
    split
    · refine .ok rfl (hm.change rfl (le_of_eq ?_) hm.parking (fun _ => id) rfl)
      simp only [Machine.stock_eq, Thread.hand, hr, framesHand_cons, Option.elim]
      abel
    · exact .ok rfl hm
  · exact .ok rfl hm

omit hj in
theorem keeps_takeCancellation : Keeps 0 takeCancellation takeCancellation
    fun raised => raised.elim 0 fun r => {.owned r.value} := by
  refine .skip keeps_get fun m => ?_
  dsimp only
  split
  · refine .skip (keeps_ask _) fun c => .ite (.pure (.refl _)) ?_
    exact .skip (keeps_world (fun _ _ hs => hs.modify fun _ => ⟨rfl, .inl rfl⟩) fun _ _ hw => hw.notice _)
      fun _ => .pure (.of_flat rfl)
  · exact .pure (.refl _)

theorem retains_enter (n : Nat) (start : Position) :
    Retains 0 (enter j n start) (enter j' n start) := by
  refine .bind (.lift (keeps_takeFrame _)) fun frame => ?_
  split
  · exact retains_reenter hj n _ (hj.body _) _
  · refine .skip keeps_resetTapeUnlessReplaying fun _ =>
      .bind (.lift keeps_takeCancellation) fun raised => ?_
    split
    · exact .pure (.of_eq (by rfl))
    · exact retains_statement hj n

theorem keeps_execute (n : Nat) : Keeps 0 (execute j n) (execute j' n) Status.hand :=
  .skip (keeps_move _) fun _ => .skip keeps_capture fun _ =>
    (retains_enter hj n _).conclude _

omit hj in
theorem keeps_goOn (column : Nat) {next next' x x' : Run Status}
    (hn : Keeps 0 next next' Status.hand) (hx : Keeps 0 x x' Status.hand) :
    Keeps 0 (goOn column next x) (goOn column next' x') Status.hand := by
  refine .bind hx fun status => ?_
  split
  · exact hn
  · exact .pure (.refl _)
  · exact .skip (keeps_skipBody _) fun _ => .pure (.refl _)

omit hj in
theorem keeps_statementsBy {step step' : Nat → Run Status}
    (hs : ∀ n, Keeps 0 (step n) (step' n) Status.hand) (column n : Nat) :
    Keeps 0 (statementsBy step column n) (statementsBy step' column n) Status.hand := by
  induction n with
  | zero => exact keeps_exhausted
  | succ n ih =>
    refine .skip (keeps_move _) fun _ => .skip keeps_get fun m => ?_
    refine .ite (.pure (.refl _)) (.ite (.ite (.pure (.refl _)) ?_) (keeps_goOn _ ih (hs n)))
    exact .guard (keeps_malformed _ _) (keeps_goOn _ ih (hs n))

omit hj in
theorem keeps_bodyBy {rest rest' : Run Status} (hr : Keeps 0 rest rest' Status.hand) :
    Keeps 0 (bodyBy rest) (bodyBy rest') Status.hand := by
  refine .skip keeps_get fun m => ?_
  split
  · exact .skip (keeps_rewind _) fun _ => hr
  · exact hr

end Jobs

end Eval
end Rewind
