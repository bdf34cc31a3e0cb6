/-
Calls and turns keep values apart.

The arguments of a call pass from the caller's hand into the scope of the callee, and a result passes
back.  A callee has a thread of its own to begin with.  The tape of the caller stays in the keeping of
the machine meanwhile, and what else the caller's thread goes on with counts as held by somebody
besides.  Between the turns of a loop nobody's thread runs.

* `keeps_argumentScope`, `keeps_inCallee`, `keeps_callScript` — calls;
* `Idles` — computations between the turns of a loop; `idles_runTurn`, `idles_drive`, `keeps_weave`;
* `keeps_callNative`, `keeps_invokeValue` — built-in functions, and the call of any value.
-/
import Rewind.Proofs.Possession

namespace Rewind

variable {ε α β : Type} [Stops ε] {H K : Hand}

/-! ### Arguments -/

/-- Values that are known one by one. -/
def knownHand (vs : List Value) : Hand := Multiset.map .known ↑vs

@[simp] theorem knownHand_nil : knownHand [] = 0 := rfl

@[simp] theorem knownHand_cons (v : Value) (vs : List Value) :
    knownHand (v :: vs) = {.known v} + knownHand vs := by
  rw [knownHand, ← Multiset.cons_coe, Multiset.map_cons, Multiset.singleton_add]
  rfl

theorem knownHand_singleton (v : Value) : knownHand [v] = {.known v} := rfl

theorem knownHand_mono {vs ws : List Value} (h : vs.Sublist ws) : knownHand vs ≤ knownHand ws :=
  Multiset.map_le_map (Multiset.coe_le.2 h.subperm)

/-- The defaults of some parameters. -/
def defaultsOf (params : List Param) : List Value := params.filterMap (·.default)

/-- The defaults of a function are known to who calls it. -/
def Function.knownHand (f : Function) : Hand :=
  match f.body with
  | .script s => Rewind.knownHand (defaultsOf s.params)
  | .native _ => 0

theorem Function.knownHand_of_script {f : Function} {body : Script} (h : f.body = .script body) :
    f.knownHand = Rewind.knownHand (defaultsOf body.params) := by
  rw [Function.knownHand, h]

namespace World

variable {w : World} {v : Value}

/-- Everything in a list is known. -/
theorem Safe.learnAll (h : w.Safe H) {vs : List Value} (hv : ∀ v ∈ vs, w.heap.Knows v) :
    w.Safe (H + knownHand vs) := by
  induction vs generalizing H with
  | nil => exact h.of_gives (.of_eq (add_zero H).symm)
  | cons v vs ih =>
    have more := ih (h.learn (hv v List.mem_cons_self)) fun v h => hv v (List.mem_cons_of_mem _ h)
    rwa [knownHand_cons, ← add_assoc]

theorem Safe.knows_default (h : w.Safe H) (r : Ref .function) {body : Script}
    (hf : (w.functions.get r).body = .script body) : ∀ v ∈ defaultsOf body.params, w.heap.Knows v := by
  intro v hv
  unfold Arena.get at hf
  cases hr : w.functions.get? r with
  | none =>
    rw [hr] at hf
    contradiction
  | some f =>
    rw [hr] at hf
    have stored : f.hand ≤ w.stock :=
      (Arena.le_total _ hr).trans ((Multiset.le_add_right _ _).trans (Multiset.le_add_right _ _))
    refine h.knows_of_stock stored ?_
    have hf : f.body = .script body := hf
    simp only [Function.hand, hf, paramsHand, Hand.ofValues]
    exact Multiset.mem_map_of_mem _ (Multiset.mem_coe.2 hv)

/-- What a method was looked up on may be come upon, and a method of a container is built in. -/
theorem Safe.method (h : w.Safe H) (r : Ref .method) :
    w.Safe (H + {.seen (w.methods.get r).receiver}) ∧ ((w.methods.get r).receiver.box? = none ∨
      ∃ f native, w.functions.get? (w.methods.get r).function = some f ∧ f.body = .native native) := by
  unfold Arena.get
  cases hr : w.methods.get? r with
  | none => exact ⟨h.of_gives (.flat rfl), .inl rfl⟩
  | some b =>
    have stored : b.hand ≤ w.stock :=
      (Arena.le_total _ hr).trans ((Multiset.le_add_left _ _).trans (Multiset.le_add_right _ _))
    refine ⟨⟨⟨?_, h.holds.methodical⟩, h.books⟩,
      h.holds.methodical b (Array.mem_toList_iff.2 (Array.mem_of_getElem? hr))⟩
    have grants := h.holds.grants
    rw [← add_assoc]
    refine grants.add rfl (grants.shows (Multiset.mem_add.2 (.inl (Multiset.mem_of_le stored ?_))))
    exact Multiset.mem_singleton_self _

end World

/-- A computation on the world that takes the hand `H`, however it ends. -/
def Spends {δ : Type} (H : Hand) (x : EStateM δ World α) : Prop :=
  ∀ w R, w.Safe (R + H) → match x w with
    | .ok _ w' | .error _ w' => w'.Safe R

namespace Spends

variable {δ : Type} {x : EStateM δ World α} {f : α → EStateM δ World β}

theorem of_gives (hg : H.Gives K) (h : Spends K x) : Spends H x :=
  fun w R hw => h w R (hw.of_gives (.frame R hg))

theorem pure (a : α) : Spends H (Pure.pure a : EStateM δ World α) := fun _ _ hw => hw.left

theorem stop (e : δ) : Spends H (throw e : EStateM δ World α) := fun _ _ hw => hw.left

/-- A computation that takes what is in front. -/
theorem bind (hx : Spends K x) (hf : ∀ a, Spends H (f a)) : Spends (H + K) (x >>= f) := by
  intro w R hw
  have h := hx w (R + H) (by rwa [add_assoc])
  show match EStateM.bind x f w with | .ok _ w' | .error _ w' => w'.Safe R
  unfold EStateM.bind
  cases hr : x w with
  | ok a w' =>
    rw [hr] at h
    exact hf a w' R h
  | error e w' =>
    rw [hr] at h
    exact h.left

/-- A computation that takes nothing. -/
theorem next (hx : Spends 0 x) (hf : ∀ a, Spends H (f a)) : Spends H (x >>= f) :=
  add_zero H ▸ bind hx hf

theorem define (r : Ref .scope) (name : String) (v : Value) : Spends {.owned v}
    (modify (·.onScopes (·.define r name v)) : EStateM δ World Unit) := fun _ _ hw => hw.define r name

/-- A look at the world. -/
theorem state : Spends 0 (get : EStateM δ World World) := fun _ _ hw => hw.left

end Spends

namespace Eval

/-! ### Binding arguments -/

theorem spends_bindNamed (function : String) (params : List Param) (given : Nat) (r : Ref .scope)
    (named : List (String × Value × Token)) : Spends (.ofValues ↑(named.map (·.2.1)))
      (bindNamed function params given r named) := by
  induction named with
  | nil => exact .pure _
  | cons e named ih =>
    have hand : Hand.ofValues ↑((e :: named).map (·.2.1)) =
        .ofValues ↑(named.map (·.2.1)) + {.owned e.2.1} := by
      rw [List.map_cons, ← Multiset.cons_coe, Hand.ofValues_cons, add_comm]
    rw [hand, bindNamed]
    split
    · exact .stop _
    · refine .next .state fun w => ?_
      split
      · exact .next (.stop _) fun _ => .bind (.define r _ _) fun _ => ih
      · exact .bind (.define r _ _) fun _ => ih

/-- A known value is copied and stored. -/
theorem spends_copy {δ : Type} (r : Ref .scope) (name : String) (v : Value) {x : EStateM δ World α}
    (hx : Spends H x) : Spends (H + {.known v}) (do
      let copy ← modifyGet (·.onHeap (Heap.duplicate v))
      modify (·.onScopes (·.define r name copy))
      x : EStateM δ World α) := by
  intro w R hw
  rw [← add_assoc] at hw
  exact hx _ R ((hw.left.duplicate hw.known).define r name)

theorem spends_bindDefaults (function : String) (r : Ref .scope) (site : Token)
    (params : List Param) : Spends (knownHand (defaultsOf params))
      (bindDefaults function r site params) := by
  induction params with
  | nil => exact .pure _
  | cons p params ih =>
    have rest : Spends (knownHand (defaultsOf (p :: params)))
        (bindDefaults function r site params) :=
      .of_gives (.of_le (knownHand_mono (List.Sublist.filterMap _ (List.sublist_cons_self _ _)))) ih
    rw [bindDefaults]
    refine .next .state fun w => ?_
    split
    · split
      · rename_i v hv
        -- the default stays known behind the copy, for the next call
        have hand : knownHand (defaultsOf (p :: params)) =
            knownHand (defaultsOf params) + {.known v} := by
          rw [defaultsOf, List.filterMap_cons_some hv, knownHand_cons, add_comm]
          rfl
        rw [hand]
        exact spends_copy r p.name v ih
      · exact .next (.stop _) fun _ => rest
    · exact rest

theorem spends_positional {δ : Type} (r : Ref .scope) (params : List Param) (vs : List Value) :
    Spends (.ofValues ↑vs) (modify (·.onScopes fun s =>
      (params.zip vs).foldl (fun s x => s.define r x.1.name x.2) s) : EStateM δ World Unit) := by
  intro w R hw
  show (w.onScopes fun s => (params.zip vs).foldl (fun s x => s.define r x.1.name x.2) s).Safe R
  induction params generalizing vs w with
  | nil => exact hw.left
  | cons p params ih =>
    cases vs with
    | nil => exact hw.left
    | cons v vs =>
      refine ih vs (w.onScopes (·.define r p.name v)) (World.Safe.define (v := v) ?_ r p.name)
      refine hw.of_gives (.of_eq ?_)
      rw [← Multiset.cons_coe, Hand.ofValues_cons, add_comm {Grip.owned v}, add_assoc]

/-- Whatever comes of binding arguments, they are the callee's. -/
theorem spends_bindArguments (function : String) (params : List Param) (r : Ref .scope)
    {receiver : Option Value} (hr : ∀ v ∈ receiver, v.box? = none) (args : CallArgs)
    (site : Token) : Spends (args.hand + knownHand (defaultsOf params))
      (bindArguments function params r receiver args site) := by
  have remaining : (openParams params receiver).Sublist params := by
    unfold openParams
    split
    · split
      · exact List.sublist_cons_self _ _
      · exact .refl _
    · exact .refl _
  have hand : args.hand + knownHand (defaultsOf params) = knownHand (defaultsOf params) +
      .ofValues ↑(args.named.map (·.2.1)) + .ofValues ↑args.positional := by
    rw [CallArgs.hand, CallArgs.values, ← Multiset.coe_add, Hand.ofValues_add]
    abel
  -- positional arguments first, then those with a name, then the defaults
  have bound : Spends (args.hand + knownHand (defaultsOf params)) (do
      modify (·.onScopes fun s => ((openParams params receiver).zip args.positional).foldl
        (fun s x => s.define r x.1.name x.2) s)
      bindNamed function (openParams params receiver) args.positional.length r args.named
      bindDefaults function r site (openParams params receiver) : EStateM Objection World Unit) := by
    rw [hand]
    refine .bind (spends_positional _ _ _) fun _ => .bind (spends_bindNamed _ _ _ _ _) fun _ => ?_
    exact .of_gives (.of_le (knownHand_mono (List.Sublist.filterMap _ remaining)))
      (spends_bindDefaults _ _ _ _)
  have counted : Spends (args.hand + knownHand (defaultsOf params)) (do
      if (openParams params receiver).length < args.positional.length then
        throw (.tooManyArguments function (openParams params receiver).length args.positional.length,
          site)
      modify (·.onScopes fun s => ((openParams params receiver).zip args.positional).foldl
        (fun s x => s.define r x.1.name x.2) s)
      bindNamed function (openParams params receiver) args.positional.length r args.named
      bindDefaults function r site (openParams params receiver) : EStateM Objection World Unit) := by
    split
    · exact .next (.stop _) fun _ => bound
    · exact bound
  cases receiver with
  | none => exact counted
  | some v =>
    exact .of_gives (.flat (g := .owned v) (hr v rfl)) (.bind (.define r "self" v) fun _ => counted)

theorem keeps_argumentScope (f : Function) (body : Script) {receiver : Option Value}
    (hr : ∀ v ∈ receiver, v.box? = none) (args : CallArgs) (site : Token) :
    Keeps (args.hand + knownHand (defaultsOf body.params)) (argumentScope f body receiver args site)
      (argumentScope f body receiver args site) fun _ => 0 := by
  refine .skip (keeps_newScope _) fun r => .bind (M := fun _ => 0) ?_ fun bound => ?_
  · refine keeps_onWorld (fun w s hs => ?_) fun w R hw => ?_
    · have h := local_bindArguments f.name body.params r receiver args site w
      cases hb : bindArguments f.name body.params r receiver args site w with
      | ok a w' => exact hs.of_same (h w' (.inl ⟨a, hb⟩)).1
      | error e w' => exact hs.of_same (h w' (.inr ⟨e, hb⟩)).1
    · have h := spends_bindArguments f.name body.params r hr args site w R hw
      rw [add_zero]
      cases hb : bindArguments f.name body.params r receiver args site w with
      | ok a w' => simpa only [hb] using h
      | error e w' => simpa only [hb] using h
  · split
    · exact .pure (.refl _)
    · exact .skip (keeps_clear _) fun _ => keeps_complain _ _

/-! ### The tape -/

theorem keeps_resume (outcome : Outcome) :
    Keeps outcome.hand (resume outcome) (resume outcome) Held.hand := by
  cases outcome with
  | ok v => exact .pure (.refl _)
  | error r => exact .stop (.refl _)

/-- Recording an outcome costs a copy of it. -/
theorem keeps_record (outcome : Outcome) : Keeps outcome.hand
    (modifyThread fun t => { t with tape := t.tape.record outcome } : Eval Unit)
    (modifyThread fun t => { t with tape := t.tape.record outcome }) fun _ => 0 :=
  keeps_modifyThread (fun t => le_of_eq (by
    simp only [Thread.hand, Tape.record, hand_push]
    abel)) (fun _ => id) fun _ => by rfl

/-- An outcome is known to who has it. -/
theorem gives_known (outcome : Outcome) :
    outcome.hand.Gives (outcome.hand + {.known (Outcome.carried outcome)}) :=
  .know (.inl (Multiset.mem_singleton_self _))

theorem keeps_settle (outcome : Outcome) :
    Keeps outcome.hand (settle outcome) (settle outcome) Held.hand := by
  refine .skip keeps_get fun m => .ite ?_ (keeps_resume _)
  refine .of_gives (gives_known outcome) (.after (keeps_duplicateOutcome outcome) fun copy => ?_)
  refine .after (keeps_record copy) fun _ => ?_
  rw [add_zero]
  exact keeps_resume outcome

/-- What is taken from the tape is a copy. -/
theorem keeps_replayed : Keeps 0 replayed replayed fun found => found.elim 0 Outcome.hand := by
  intro m R hm
  cases h : m.thread.replays with
  | false =>
    rw [replayed_of_not_replays h]
    exact .ok rfl hm
  | true =>
    obtain ⟨entry, hentry, hr⟩ := replayed_of_replays h
    rw [hr]
    have on_tape : .owned (Outcome.carried entry) ∈ m.stock := by
      have mem := Array.mem_toList_iff.2 (Array.mem_of_getElem? hentry)
      refine Multiset.mem_add.2 (.inr (Multiset.mem_add.2 (.inl (Multiset.mem_add.2 (.inl ?_)))))
      exact Multiset.mem_map_of_mem _ (Multiset.mem_coe.2 (List.mem_map_of_mem mem))
    have known : m.world.heap.Knows (Outcome.carried entry) :=
      hm.world.knows (.inl (Multiset.mem_add.2 (.inl on_tape)))
    have copied : ({ m with world := (m.world.copyOutcome entry).2 } : Machine).Safe
        (R + (m.world.copyOutcome entry).1.hand) := by
      have safe := hm.world.copyOutcome known
      rw [add_zero, add_assoc] at safe
      exact { hm with world := safe }
    exact .ok rfl (copied.of_same rfl rfl rfl (fun _ => id) rfl)

end Eval

/-! ### Threads that wait -/

/-- What a thread goes on with besides its tape.  Nobody has a use for it while the thread waits. -/
def Thread.ahead (t : Thread) : Hand := framesHand t.resume + framesHand t.parked

/-- The tapes of the threads that wait. -/
def tapesHand (pinned : List Pin) : Hand :=
  (↑(pinned.filterMap Pin.thread?) : Multiset Thread).bind (·.tape.hand)

@[simp] theorem tapesHand_thread (t : Thread) (pinned : List Pin) :
    tapesHand (.thread t :: pinned) = t.tape.hand + tapesHand pinned := by
  show (↑(t :: pinned.filterMap Pin.thread?) : Multiset Thread).bind _ = _
  rw [← Multiset.cons_coe, Multiset.cons_bind]
  rfl

/-- A thread that waits for another, which runs the same body or none, adds no task. -/
theorem Machine.tasks_enter {m : Machine} (m' : Machine)
    (hp : m'.pinned = .thread m.thread.waiting :: m.pinned)
    (ht : m'.thread.task = m.thread.task ∨ m'.thread.task = none) : ∀ r ∈ m'.tasks, r ∈ m.tasks := by
  intro r hr
  rw [mem_tasks, hp] at hr
  rw [mem_tasks]
  obtain hr | ⟨t, hm, hr⟩ := hr
  · obtain ht | ht := ht
    · exact .inl (ht.symm.trans hr)
    · rw [ht] at hr
      contradiction
  · obtain he | hm := List.mem_cons.1 hm
    · rw [Pin.thread.inj he] at hr
      exact .inl hr
    · exact .inr ⟨t, hm, hr⟩

/-- A thread that goes on again, after another has come to `m'`, adds no task. -/
theorem Machine.tasks_leave {m' m'' : Machine} {t : Thread} {pinned : List Pin}
    (hp : m'.pinned = .thread t :: pinned) (hp' : m''.pinned = pinned)
    (ht : m''.thread.task = t.task ∨ m''.thread.task = m'.thread.task) :
    ∀ r ∈ m''.tasks, r ∈ m'.tasks := by
  intro r hr
  rw [mem_tasks, hp'] at hr
  rw [mem_tasks, hp]
  obtain hr | ⟨u, hm, hr⟩ := hr
  · obtain ht | ht := ht
    · exact .inr ⟨t, List.mem_cons_self, ht.symm.trans hr⟩
    · exact .inl (ht.symm.trans hr)
  · exact .inr ⟨u, List.mem_cons_of_mem _ hm, hr⟩

theorem Machine.stock_eq (m : Machine) :
    m.stock = .ofValues ↑(m.modules.map (·.2)) + tapesHand m.pinned + m.thread.hand := rfl

/-- What runs a computation on the machine `inner`, puts the machine right by `leave`, and hands on
the fault of the computation. -/
theorem Fares.caught {m : Machine} (inner : Machine) (leave : Machine → Machine)
    {enclosed : Run α → EStateM ε Machine (Except Fault α)}
    (run : ∀ x, enclosed x m = match x inner with
      | .ok a m' => .ok (.ok a) (leave m')
      | .error f m' => .ok (.error f) (leave m'))
    (hbonds : ∀ m', m'.bonds = inner.bonds → (leave m').bonds = m.bonds)
    {post : α → Hand} {R S : Hand}
    (hleave : ∀ m' K, m'.bonds = inner.bonds → m'.Safe (S + K) → (leave m').Safe (R + K))
    {E : Interrupt → Machine → Prop} {x x' : Run α} (hx : Keeps 0 x x' post) (hm : inner.Safe S) :
    Fares Machine.bonds m.bonds (fun a m' => m'.Safe (R + Keeps.handedOn post a)) E (enclosed x m)
      (enclosed x' m) := by
  have h := hx inner S (by rwa [add_zero])
  -- a fault that is caught is a value, so both endings are
  rw [run, run]
  cases hr : x inner with
  | ok a m' =>
    rw [hr] at h
    rw [h.1]
    exact .ok (hbonds m' h.2.1) (hleave m' _ h.2.1 h.2.2)
  | error f m' =>
    rw [hr] at h
    rw [h.1]
    exact .ok (hbonds m' h.2.1) (hleave m' _ h.2.1 h.2.2)

namespace Eval

/-! ### Calls -/

/-- Who looks up a function gets to know its defaults. -/
theorem keeps_askFunction (r : Ref .function) : Keeps 0 (ask fun w => w.functions.get r : Eval Function)
    (ask fun w => w.functions.get r) Function.knownHand :=
  keeps_askFor _ _ fun w R hw => by
    rw [add_zero] at hw
    unfold Function.knownHand
    split
    · exact hw.learnAll (hw.knows_default r ‹_›)
    · exact hw.of_gives (.of_eq (add_zero _).symm)

theorem keeps_inCallee (cursor : Cursor) (r : Ref .scope) (mode : Mode) {x x' : Run α}
    {post : α → Hand} (hx : Keeps 0 x x' post) :
    Keeps 0 (inCallee cursor r mode x) (inCallee cursor r mode x') (Keeps.handedOn post) := by
  intro m R hm
  have entered : (calleeMachine m cursor r mode).Safe (R + m.thread.ahead) :=
    hm.change rfl (le_of_eq (by
      simp only [Machine.stock_eq, calleeMachine, tapesHand_thread, Thread.waiting_tape, Thread.hand, Thread.ahead,
        hand_empty, framesHand_nil]
      abel)) hm.parking (Machine.tasks_enter _ rfl (.inl rfl)) rfl
  refine Fares.caught _ (callerMachine m) (fun x => inCallee_run cursor r mode x m)
    (fun _ hb => congrArg (fun b => { b with pinned := m.pinned }) hb) (fun m' K hb h => ?_) hx entered
  have hp : m'.pinned = .thread m.thread.waiting :: m.pinned := congrArg Bonds.pinned hb
  -- what is left of the callee's thread is dropped
  have back : ({ callerMachine m m' with world := m'.world } : Machine).Safe (R + K) :=
    h.change rfl (by
      refine le_of_le_of_eq (Multiset.le_add_right _ m'.thread.hand) ?_
      simp only [Machine.stock_eq, callerMachine, hp, tapesHand_thread, Thread.waiting_tape, Thread.hand, Thread.ahead]
      abel) h.parking (Machine.tasks_leave hp rfl (.inr rfl)) rfl
  exact back.onWorld (fun S hw => hw.clear _) fun _ => id

section Jobs

variable {j j' : Jobs} (hj : j.Keep j')

include hj

/-- A body written in the program has a caller that goes on with its own thread. -/
theorem keeps_callScript (r : Ref .function) {receiver : Option Value}
    (hr : ∀ v ∈ receiver, v.box? = none) (owner : Option (Ref .blueprint)) (args : CallArgs)
    (site : Token) : Keeps args.hand (callScript j r receiver owner args site)
      (callScript j' r receiver owner args site) Held.hand := by
  refine .holding _ (.next (keeps_askFunction r) fun f => ?_)
  split
  · exact .lift (keeps_fail _)
  · rename_i body hb
    rw [Function.knownHand_of_script hb]
    refine .skip keeps_get fun m => .guard (.lift (keeps_fail _)) ?_
    refine .bind (keeps_argumentScope _ _ hr _ _) fun callee => ?_
    split
    · exact .lift (keeps_fail _)
    · refine .bind (keeps_inCallee _ _ _ (hj.body _)) fun ended => ?_
      split
      · exact .stop (.refl _)
      · exact .pure (.of_eq (by rfl))
      · exact .stop (.of_eq (by rfl))
      · exact .lift (keeps_fail _)
      · exact .pure (.of_flat rfl)

omit hj in
theorem keeps_spawn (r : Ref .function) {receiver : Option Value}
    (hr : ∀ v ∈ receiver, v.box? = none) (owner : Option (Ref .blueprint)) (args : CallArgs)
    (site : Token) : Keeps args.hand (spawn r receiver owner args site)
      (spawn r receiver owner args site) Held.hand := by
  refine .next (keeps_askFunction r) fun f => ?_
  split
  · exact .lift (keeps_fail _)
  · rename_i body hb
    rw [Function.knownHand_of_script hb]
    refine .bind (keeps_argumentScope _ _ hr _ _) fun _ => ?_
    refine .skip (keeps_newCoroutine _ rfl (fun w _ _ => w.admits_script _ _) _) fun _ => ?_
    exact .pure (.of_flat rfl)

theorem keeps_instantiate (r : Ref .blueprint) (args : CallArgs) (site : Token) :
    Keeps args.hand (instantiate j r args site) (instantiate j' r args site) Held.hand := by
  refine .skip (keeps_modify (fun _ => rfl) (fun _ => rfl) (fun _ => rfl) fun _ => rfl) fun _ => ?_
  refine .skip keeps_get fun m => .skip (keeps_onWorld (fun _ _ => id) fun w R hw => hw.pushObject _ _) fun object => ?_
  refine .skip (keeps_ask _) fun name => .skip (keeps_ask _) fun init => ?_
  split
  · refine .skip (keeps_ask _) fun isAsync => .guard (.lift (keeps_malformed _ _)) ?_
    refine .bind (.holding _ (keeps_callScript hj _ ?_ _ _ _)) fun _ => .pure (.of_flat rfl)
    simp [Value.box?]
  · exact .guard (keeps_complain _ _) (.pure (.of_flat rfl))

end Jobs

/-! ### Between the turns of a loop -/

end Eval

/-- The machine without what the running thread goes on with. -/
def Machine.bare (m : Machine) : Machine := { m with thread := default }

theorem Machine.stock_eq_bare (m : Machine) : m.stock = m.bare.stock + m.thread.hand := by
  have none : m.bare.thread.hand = 0 := rfl
  rw [Machine.stock_eq, Machine.stock_eq, none, add_zero]
  rfl

theorem Machine.stock_bare_le (m : Machine) : m.bare.stock ≤ m.stock := by
  rw [Machine.stock_eq_bare m]
  exact Multiset.le_add_right _ _

/-- Whose turn it was counts for nothing when no thread runs. -/
theorem Machine.tasks_bare (m : Machine) : ∀ r ∈ m.bare.tasks, r ∈ m.tasks := by
  intro r hr
  rw [mem_tasks] at hr ⊢
  exact .inr (hr.resolve_left nofun)

theorem Machine.Safe.bare {m : Machine} (h : m.Safe (H + K)) : m.bare.Safe H :=
  h.left.change rfl (add_le_add_left m.stock_bare_le H) rfl m.tasks_bare rfl

/-- A loop runs, and no thread that waits for it runs the body of a coroutine. -/
structure Machine.Idle (m : Machine) : Prop where
  weaving : m.weaving = true
  tasks : m.bare.tasks = []

theorem Machine.Idle.of_bonds {m m' : Machine} (h : m.Idle) (hb : m'.bare.bonds = m.bare.bonds) :
    m'.Idle :=
  ⟨(congrArg Bonds.weaving hb).trans h.weaving, (Machine.tasks_of_bonds hb).trans h.tasks⟩

theorem Machine.Idle.onWorld {m : Machine} {w : World} {R : Hand} (hi : m.Idle)
    (hw : w.Safe (m.bare.stock + R)) : ({ m with world := w } : Machine).bare.Safe R :=
  ⟨hw, rfl, fun r hr => by
    rw [show ({ m with world := w } : Machine).bare.tasks = m.bare.tasks from rfl, hi.tasks] at hr
    contradiction⟩

/-- Both computations do the same between turns, and leave the hand `post`.  A thread that is left in
the machine counts for nothing. -/
def Idles (H : Hand) (x x' : Run α) (post : α → Hand) : Prop :=
  ∀ m R, m.Idle → m.bare.Safe (R + H) → Fares (fun m => m.bare.bonds) m.bare.bonds
    (fun a m' => m'.bare.Safe (R + post a)) (fun _ m' => m'.bare.Safe R) (x m) (x' m)

namespace Idles

variable {post : α → Hand} {x x' : Run α}

theorem pure {a : α} (hg : H.Gives (post a)) : Idles H (Pure.pure a : Run α) (Pure.pure a) post :=
  fun _ R _ hm => .ok rfl (hm.of_gives (.frame R hg))

theorem stop (f : Fault) : Idles H (throw f : Run α) (throw f) post :=
  fun _ _ _ hm => .error rfl hm.left

theorem bind {M : α → Hand} {post : β → Hand} {f f' : α → Run β} (hx : Idles H x x' M)
    (hf : ∀ a, Idles (M a) (f a) (f' a) post) : Idles H (x >>= f) (x' >>= f') post :=
  fun m R hi hm => (hx m R hi hm).bind fun a m' hb hm' => hb ▸ hf a m' R (hi.of_bonds hb) hm'

theorem ite {p : Prop} [Decidable p] {y y' : Run α} (hx : Idles H x x' post)
    (hy : Idles H y y' post) : Idles H (if p then x else y) (if p then x' else y') post := by
  split
  · exact hx
  · exact hy

/-- A look at the world. -/
theorem ask (f : World → α) : Idles H (Eval.ask f) (Eval.ask f) fun _ => H :=
  fun _ _ _ hm => .ok rfl hm

/-- The world changes between turns. -/
theorem world {f : World → World} (hf : ∀ (w : World) R, w.Safe R → (f w).Safe R) :
    Idles 0 (Eval.modifyWorld f) (Eval.modifyWorld f) fun _ => 0 :=
  fun _ _ hi hm => .ok rfl (hi.onWorld (hf _ _ hm.world))

end Idles

namespace Eval

/-- What a turn goes on with. -/
def Turn.hand (t : Turn) : Hand := t.tape.hand + framesHand t.frames

/-- A coroutine that begins its turn is in it, and what it has kept passes to the one who runs it. -/
theorem fares_beginTurn (r : Ref .coroutine) {m : Machine} {R : Hand} (hi : m.Idle)
    (hm : m.bare.Safe R) : Fares (fun m => m.bare.bonds) m.bare.bonds
      (fun turn m' => m'.bare.Safe (R + turn.elim 0 Turn.hand) ∧
        ∀ t, turn = some t → m'.world.Acts r)
      (fun _ m' => m'.bare.Safe R) (beginTurn r m) (beginTurn r m) := by
  have without {w : World} (hw : w.Safe (m.bare.stock + R)) :
      ({ m with world := w } : Machine).bare.Safe (R + (none : Option Turn).elim 0 Turn.hand) :=
    hi.onWorld (by rwa [Option.elim, add_zero])
  rw [beginTurn_run]
  split
  · exact .ok rfl ⟨without hm.world, fun _ h => by contradiction⟩
  rename_i hd
  split
  · rename_i hk
    have has : m.world.Has r := World.get?_of_script hk
    split
    · refine .ok rfl ⟨without ?_, fun _ h => by contradiction⟩
      -- a coroutine that was cancelled before it began ends with an exception that has no parts
      exact hm.world.finish (Heap.knows_of_box? rfl) has fun g hg => absurd (hk.symm.trans hg) (by simp)
    · split
      · exact .error rfl hm
      · refine .ok rfl ⟨hi.onWorld ?_, fun t _ => ?_⟩
        · rw [← add_assoc]
          -- what the coroutine kept for its next turn is now held by the turn
          exact hm.world.resume hk (Bool.eq_false_iff.2 hd) (add_comm _ _)
        · have now := World.get_modifyCoroutine m.world r (fun c =>
            { c with stage := .running, scope := none, frames := [], tape := {} }) has
          exact ⟨.inr (.inl (congrArg Coroutine.stage now)), _, _, (congrArg Coroutine.kind now).trans hk⟩
  · exact .ok rfl ⟨without hm.world, fun _ h => by contradiction⟩

theorem hand_kept (t : Thread) : t.tape.hand + framesHand t.parked ≤ t.hand := by
  refine (Multiset.le_add_right _ (framesHand t.resume)).trans_eq ?_
  simp only [Thread.hand]
  abel

theorem knows_bodyOutcome {w : World} {status : Status} (h : w.Safe (H + status.hand)) :
    w.heap.Knows (Outcome.carried (bodyOutcome status)) := by
  have held : w.Safe (H + (bodyOutcome status).hand) := by
    refine h.of_gives (.frame H ?_)
    cases status with
    | leaving s =>
      cases s with
      | result v => exact .of_eq (by rfl)
      | raised r => exact .of_eq (by rfl)
      | _ => exact .of_flat rfl
    | _ => exact .of_flat rfl
  exact held.knows (.inl (by simp [Outcome.hand]))

/-- A body that has ended its turn leaves what it goes on with, or what it came to. -/
theorem safe_endTurn (r : Ref .coroutine) {m : Machine} {R : Hand} {status : Status}
    (hm : m.Safe (R + status.hand)) (hi : m.Idle) (hr : m.thread.task = some r) :
    (endTurn r m status).bare.Safe R := by
  have acts : m.world.Acts r := (hm.acts r (Machine.mem_tasks.2 (.inl hr))).2
  have finished : ({ m with world :=
      (m.world.clearScope m.thread.scope).finish r (bodyOutcome status) } : Machine).bare.Safe R := by
    -- the body's scope is emptied before anybody is told of the outcome
    have cleared := hm.world.clearScope m.thread.scope
    rw [← add_assoc] at cleared
    have ended := cleared.finish (knows_bodyOutcome cleared) acts.has fun g (hg : _ = _) => by
      obtain ⟨-, f, owner, hk⟩ := acts
      exact absurd (hk.symm.trans hg) (by simp)
    refine hi.onWorld (ended.mono ?_)
    exact (add_le_add_left (Machine.stock_bare_le m) R).trans (Multiset.le_add_right _ _)
  cases status with
  | yielded =>
    refine hi.onWorld (World.Safe.keepTurn (hm.world.mono ?_) acts)
    rw [Machine.stock_eq_bare m]
    simp only [Status.hand, add_zero]
    refine (add_le_add_right (hand_kept m.thread) _).trans_eq ?_
    abel
  | normal => exact finished
  | leaving s => exact finished

section Jobs

variable {j j' : Jobs} (hj : j.Keep j')

include hj

/-- The body of a coroutine runs, and ends its turn. -/
theorem fares_turnBody (r : Ref .coroutine) (turn : Turn) (body : Script) (cursor : Cursor)
    {m : Machine} {R : Hand} (hi : m.Idle) (hm : m.bare.Safe (R + turn.hand)) (acts : m.world.Acts r) :
    Fares (fun m => m.bare.bonds) m.bare.bonds (fun status m' => (endTurn r m' status).bare.Safe R)
      (fun _ m' => m'.bare.Safe R) (j.body (body.column + 4) (turnMachine m r turn cursor))
      (j'.body (body.column + 4) (turnMachine m r turn cursor)) := by
  have begun : (turnMachine m r turn cursor).Safe (R + 0) := by
    refine ⟨hm.world.mono (le_of_eq ?_), rfl, fun s hs => ?_⟩
    · rw [Machine.stock_eq_bare (turnMachine m r turn cursor)]
      simp only [turnMachine, Machine.bare, Thread.hand, framesHand_nil, Turn.hand]
      abel
    · obtain hs | hs := Machine.mem_tasks.1 hs
      · -- the thread of the turn is the only one that runs a body
        obtain rfl : r = s := Option.some.inj hs
        exact ⟨hi.weaving, acts⟩
      · have waits : s ∈ m.bare.tasks := Machine.mem_tasks.2 (.inr hs)
        rw [hi.tasks] at waits
        contradiction
  have ended := hj.body (body.column + 4) (turnMachine m r turn cursor) R begun
  have bare {m' : Machine} (hb : m'.bonds = (turnMachine m r turn cursor).bonds) :
      m'.bare.bonds = m.bare.bonds := congrArg (fun b => { b with task := none }) hb
  cases hrun : j.body (body.column + 4) (turnMachine m r turn cursor) with
  | ok status m' =>
    rw [hrun] at ended
    obtain ⟨he, hb, hm'⟩ := ended
    exact ⟨he, bare hb, safe_endTurn r hm' (hi.of_bonds (bare hb)) (congrArg Bonds.task hb)⟩
  | error f m' =>
    rw [hrun] at ended
    obtain ⟨he, hb, hm'⟩ := ended
    exact ⟨he, bare hb, hm'.bare⟩

theorem idles_runTurn (r : Ref .coroutine) :
    Idles 0 (runTurn j r) (runTurn j' r) fun _ => 0 := by
  intro m R hi hm
  refine (fares_beginTurn r hi hm.left).bind fun turn m' hb hm' => ?_
  have hi := hi.of_bonds hb
  rw [← hb]
  clear hb hm
  obtain ⟨hm', acts⟩ := hm'
  cases turn with
  | none => exact .ok rfl hm'
  | some turn =>
    refine Fares.bind (Q := fun _ m => m.bare.Safe (R + turn.hand) ∧ m.world.Acts r)
      (.ok rfl ⟨hm', acts turn rfl⟩) fun f m'' hb hm'' => ?_
    have hi := hi.of_bonds hb
    rw [← hb]
    clear hb
    cases f.body with
    | native => exact .error rfl hm''.1.left
    | script body =>
      dsimp only
      cases Cursor.at? body.source body.entry with
      | error failure => exact .error rfl hm''.1.left
      | ok cursor =>
        refine (fares_turnBody hj r turn body cursor hi hm''.1 hm''.2).bind fun status m hb hm => ?_
        have ended : (endTurn r m status).bare.Safe (R + 0) := hm.mono (add_zero R).le
        cases status with
        | yielded => exact .ok hb ended
        | normal => exact .ok hb ended
        | leaving s => exact .ok hb ended

omit hj in
theorem idles_readClock : Idles 0 readClock readClock fun _ => 0 := fun m _ hi hm =>
  .ok rfl (.of_same (m := { m.bare with world := (looked m).world })
    (hi.onWorld (hm.world.withLoop _ fun _ => id)) rfl rfl rfl (fun _ => id) rfl)

theorem idles_drive (n : Nat) : Idles 0 (drive j n) (drive j' n) fun _ => 0 := by
  induction n with
  | zero => exact .stop _
  | succ n ih =>
    have dequeued : Idles 0 dequeue dequeue fun _ => 0 := by
      refine .bind (.ask _) fun ready => ?_
      split
      · exact .pure (.refl _)
      · exact .bind (.world fun _ _ hw => hw.withLoop _ fun _ => id) fun _ => .pure (.refl _)
    refine .bind idles_readClock fun _ => .bind (.world fun _ _ hw => hw.pollSleepers) fun _ =>
      .bind dequeued fun next => ?_
    split
    · exact .bind (idles_runTurn hj _) fun _ => ih
    · refine .bind (.ask _) fun sleepers => ?_
      split
      · exact .pure (.refl _)
      · exact .bind (.world fun _ _ hw => hw.withLoop _ fun _ => id) fun _ => ih

theorem idles_runLoop (n : Nat) (root : Ref .coroutine) :
    Idles {.stands (.there root)} (runLoop j n root) (runLoop j' n root) fun _ => 0 := by
  have begun : Idles {.stands (.there root)} (modifyWorld fun w => w.openLoop.start root)
      (modifyWorld fun w => w.openLoop.start root) fun _ => 0 := fun m R hi hm => by
    have there : m.world.Has root := hm.world.stands (s := .there root) (by simp)
    exact .ok rfl (hi.onWorld ((hm.world.openLoop.start there).mono (by
      rw [add_zero]
      exact add_le_add_right (Multiset.le_add_right _ _) _)))
  refine .bind begun fun _ => .bind (idles_drive hj n) fun _ => ?_
  exact .bind (.ask _) fun c => .ite (.stop _) (.pure (.refl _))

omit hj in
theorem keeps_checkArity (native : Native) (args : List Value) (least most : Nat) (site : Token) :
    Keeps 0 (checkArity native args least most site) (checkArity native args least most site)
      fun _ => 0 := .ite (keeps_complain _ _) (.pure (.refl _))

omit hj in
/-- The coroutine a value stands for is there. -/
theorem keeps_askCoroutine (v : Value) : Keeps 0
    (ask fun w => w.coroutine? v : Eval (Option (Ref .coroutine))) (ask fun w => w.coroutine? v)
    fun found => found.elim 0 fun r => {.stands (.there r)} :=
  keeps_askFor _ _ fun w R hw => by
    rw [add_zero] at hw
    cases hc : w.coroutine? v with
    | none => exact hw.of_gives (.of_eq (add_zero _).symm)
    | some r => exact hw.note (s := .there r) (World.has_of_coroutine? hc)

omit hj in
theorem keeps_coroutineArg (native : Native) (v : Value) (site : Token) :
    Keeps 0 (coroutineArg native v site) (coroutineArg native v site)
      fun r => {.stands (.there r)} := by
  refine .bind (keeps_askCoroutine v) fun r => ?_
  split
  · exact .pure (.refl _)
  · exact keeps_complain _ _

omit hj in
/-- What a loop gives is a copy of what its root came to. -/
theorem keeps_weaveResult (root : Ref .coroutine) : Keeps 0
    (do
      let c ← ask fun w => w.coroutines.get root
      match ← onHeap (Heap.duplicateOutcome c.outcome) with
      | .ok v => return .fresh v
      | .error r => fail (.workflow c.name (← ask fun w => w.text r.value)) : Eval Held)
    (do
      let c ← ask fun w => w.coroutines.get root
      match ← onHeap (Heap.duplicateOutcome c.outcome) with
      | .ok v => return .fresh v
      | .error r => fail (.workflow c.name (← ask fun w => w.text r.value))) Held.hand := by
  refine .bind (M := fun c => {.known (Outcome.carried c.outcome)}) ?_ fun c => ?_
  · refine keeps_askFor _ _ fun w R hw => ?_
    rw [add_zero] at hw
    exact hw.learn (hw.knows_outcome root)
  · refine .bind (keeps_duplicateOutcome _) fun outcome => ?_
    split
    · exact .pure (.refl _)
    · exact .skip (keeps_ask _) fun _ => .lift (keeps_fail _)

/-- A loop runs on threads of its own, and the one that waits for it is there again behind it. -/
theorem fares_weaveLoop (n : Nat) (root : Ref .coroutine) {f f' : Except Fault Unit → Eval β}
    {post : β → Hand} (herr : ∀ fault, f (.error fault) = throw (.fault fault))
    (herr' : ∀ fault, f' (.error fault) = throw (.fault fault))
    (hok : ∀ a, Keeps 0 (f (.ok a)) (f' (.ok a)) post) {m : Machine} {R : Hand}
    (hm : m.Safe (R + {.stands (.there root)})) (hv : m.weaving = false) :
    Fares Machine.bonds m.bonds (fun a m' => m'.Safe (R + post a)) (fun e m' => m'.Safe (R + e.hand))
      ((do
        modify fun m => { m with weaving := true }
        let result ← pinning (.thread m.thread.waiting) (catchFault (runLoop j n root))
        modifyWorld (·.teardown)
        modify fun m' => { m' with thread := m.thread, weaving := false }
        f result : Eval β) m)
      ((do
        modify fun m => { m with weaving := true }
        let result ← pinning (.thread m.thread.waiting) (catchFault (runLoop j' n root))
        modifyWorld (·.teardown)
        modify fun m' => { m' with thread := m.thread, weaving := false }
        f' result : Eval β) m) := by
  -- no thread runs the body of a coroutine, as no loop runs
  have tasks : m.tasks = [] := List.eq_nil_iff_forall_not_mem.2 fun r hr => by
    rw [(hm.acts r hr).1] at hv
    contradiction
  let inner : Machine := { m with weaving := true, pinned := .thread m.thread.waiting :: m.pinned }
  have idle : inner.Idle :=
    ⟨rfl, List.eq_nil_iff_forall_not_mem.2 fun r hr => by
      have waits : r ∈ m.tasks := Machine.tasks_enter inner.bare rfl (.inr rfl) r hr
      rw [tasks] at waits
      contradiction⟩
  have before : inner.bare.Safe (R + m.thread.ahead + {.stands (.there root)}) :=
    idle.onWorld (hm.world.mono (le_of_eq (by
      rw [Machine.stock_eq_bare m]
      simp only [inner, Machine.stock_eq, Machine.bare, tapesHand_thread, Thread.waiting_tape, Thread.ahead, Thread.hand]
      abel)))
  have behind {m' : Machine} (hb : m'.bare.bonds = inner.bare.bonds)
      (h : m'.bare.Safe (R + m.thread.ahead)) : (afterLoop m m').Safe R := by
    have hp : m'.pinned = .thread m.thread.waiting :: m.pinned := congrArg Bonds.pinned hb
    have stock : m'.bare.stock + (R + m.thread.ahead) = (afterLoop m m').stock + R := by
      rw [Machine.stock_eq_bare (afterLoop m m')]
      simp only [Machine.stock_eq, Machine.bare, afterLoop, hp, tapesHand_thread, Thread.waiting_tape, Thread.ahead,
        Thread.hand]
      abel
    refine ⟨(h.world.mono stock.ge).teardown, hm.parking, fun r hr => ?_⟩
    rw [show (afterLoop m m').tasks = m.tasks from rfl, tasks] at hr
    contradiction
  have bonds (m' : Machine) : (afterLoop m m').bonds = m.bonds := by
    rw [Machine.bonds, Machine.bonds, hv]
    rfl
  have h := idles_runLoop hj n root inner _ idle before
  rw [weaveLoop_run, weaveLoop_run]
  cases hr : runLoop j n root inner with
  | ok a m' =>
    rw [hr] at h
    rw [h.1]
    have ended := hok a (afterLoop m m') R (by
      rw [add_zero]
      exact behind h.2.1 (h.2.2.mono (add_zero _).ge))
    rwa [bonds] at ended
  | error e m' =>
    rw [hr] at h
    rw [h.1]
    dsimp only
    rw [herr, herr']
    exact .error (bonds m') ((behind h.2.1 h.2.2).mono (add_zero R).le)

theorem keeps_weave (n : Nat) (args : List Value) (site : Token) :
    Keeps 0 (weave j n args site) (weave j' n args site) Held.hand := by
  refine .skip (keeps_checkArity _ _ _ _ _) fun _ => .bind (keeps_coroutineArg _ _ _) fun root => ?_
  refine .get_bind fun m R hm => ?_
  have raises (complaint : Complaint) {f f' : Unit → Eval Held} :
      Fares Machine.bonds m.bonds (fun a m' => m'.Safe (R + a.hand)) (fun e m' => m'.Safe (R + e.hand))
        ((complain complaint site >>= f) m) ((complain complaint site >>= f') m) :=
    .error rfl (hm.of_gives (.frame R (.of_flat rfl)))
  show Fares _ _ _ _ ((if (m.thread.driven || m.weaving) = true then _ else _ : Eval Held) m)
    ((if (m.thread.driven || m.weaving) = true then _ else _ : Eval Held) m)
  split
  · exact raises _
  rename_i alone
  -- a loop within a loop is refused, so none is running
  have hv : m.weaving = false := by
    cases hv : m.weaving with
    | false => rfl
    | true => simp [hv] at alone
  show Fares _ _ _ _
    ((if (m.world.coroutines.get root).stage ≠ .new then _ else _ : Eval Held) m)
    ((if (m.world.coroutines.get root).stage ≠ .new then _ else _ : Eval Held) m)
  split
  · exact raises _
  show Fares _ _ _ _
    ((if (m.world.coroutines.get root).isCancelled = true then _ else _ : Eval Held) m)
    ((if (m.world.coroutines.get root).isCancelled = true then _ else _ : Eval Held) m)
  split
  · exact raises _
  · exact fares_weaveLoop hj n root (fun _ => rfl) (fun _ => rfl) (fun _ => keeps_weaveResult root) hm hv

end Jobs

/-! ### The functions of the loop -/

/-- A coroutine that is there is started. -/
theorem keeps_start (r : Ref .coroutine) : Keeps {.stands (.there r)}
    (modifyWorld (·.start r) : Eval Unit) (modifyWorld (·.start r)) fun _ => {.stands (.joined r)} :=
  keeps_modifyWorld (fun w s hs => hs.events (World.events_start w r)) fun w R hw => by
    have there : w.Has r := hw.stands (s := .there r) (by simp)
    exact (hw.left.start there).note (s := .joined r) (World.stage_start_ne_new w there)

theorem keeps_spawnTask (args : List Value) (site : Token) :
    Keeps 0 (spawnTask args site) (spawnTask args site) Held.hand := by
  refine .skip (keeps_checkArity _ _ _ _ _) fun _ => .bind (keeps_coroutineArg _ _ _) fun task => ?_
  refine .skip (keeps_ask _) fun c => .guard (keeps_complain _ _) ?_
  refine .skip keeps_get fun _ => .guard (keeps_complain _ _) ?_
  refine .bind (keeps_start task) fun _ => ?_
  split <;> exact .pure (.of_flat rfl)

theorem keeps_readClock : Keeps 0 (readClock : Eval Nat) readClock fun _ => 0 :=
  .skip keeps_get fun _ => .skip
    (keeps_modify (fun _ => rfl) (fun _ => rfl) (fun _ => rfl) fun _ => rfl) fun _ =>
    keeps_onWorld (fun _ _ => id) fun _ _ hw => hw.withLoop _ fun _ => id

theorem keeps_rest (args : List Value) (site : Token) :
    Keeps 0 (rest args site) (rest args site) Held.hand := by
  refine .skip (keeps_checkArity _ _ _ _ _) fun _ => ?_
  dsimp only
  split
  · exact keeps_complain _ _
  · refine .guard (keeps_complain _ _) ?_
    split
    · exact keeps_complain _ _
    · exact .skip keeps_readClock fun _ =>
        .skip (keeps_newCoroutine _ rfl (fun w _ _ => w.admits_timer _) _) fun _ => .pure (.of_flat rfl)

theorem keeps_yieldNow (args : List Value) (site : Token) :
    Keeps 0 (yieldNow args site) (yieldNow args site) Held.hand :=
  .skip (keeps_checkArity _ _ _ _ _) fun _ => .skip keeps_readClock fun _ =>
    .skip (keeps_newCoroutine _ rfl (fun w _ _ => w.admits_timer _) _) fun _ => .pure (.of_flat rfl)

theorem keeps_returnExceptions (positional : Nat) (named : List (String × Value × Token))
    (chosen : Bool) : Keeps 0 (returnExceptions positional named chosen)
      (returnExceptions positional named chosen) fun _ => 0 := by
  induction named generalizing chosen with
  | nil => exact .pure (.refl _)
  | cons a named ih =>
    have checked : Keeps 0 (do
        if 1 < positional then complain .returnExceptionsTwice a.2.2
        returnExceptions positional named (← truthy (.view a.2.1)) : Eval Bool) (do
        if 1 < positional then complain .returnExceptionsTwice a.2.2
        returnExceptions positional named (← truthy (.view a.2.1)) : Eval Bool) fun _ => 0 :=
      .guard (keeps_complain _ _) (.skip (keeps_truthy _) fun _ => ih _)
    exact .ite (.skip (keeps_complain _ _) fun _ => checked) checked

/-- The slots of a new gather task are empty. -/
theorem hand_ofChildren (children : List (Ref .coroutine)) (chosen : Bool) :
    (CoroutineKind.gather (.ofChildren children chosen)).hand = 0 := by
  refine Multiset.bind_congr (g := fun _ => (0 : Hand)) (fun slot hs => ?_) |>.trans ?_
  · rw [List.eq_of_mem_replicate (Multiset.mem_coe.1 hs)]
    rfl
  · exact Multiset.bind_zero _

theorem admits_ofChildren {w : World} {children : List (Ref .coroutine)} (chosen : Bool)
    (h : ∀ child ∈ children, w.Has child) : w.Admits (.gather (.ofChildren children chosen)) := by
  rintro g ⟨⟩
  exact ⟨children, chosen, rfl, h⟩

theorem mem_sum_there {children : List (Ref .coroutine)} {child : Ref .coroutine}
    (hm : child ∈ children) :
    .stands (.there child) ∈ (children.map fun r => ({.stands (.there r)} : Hand)).sum := by
  induction children with
  | nil => contradiction
  | cons r children ih =>
    rw [List.map_cons, List.sum_cons]
    obtain rfl | hm := List.mem_cons.1 hm
    · exact Multiset.mem_add.2 (.inl (Multiset.mem_singleton_self _))
    · exact Multiset.mem_add.2 (.inr (ih hm))

theorem keeps_gather (args : CallArgs) (site : Token) :
    Keeps 0 (gather args site) (gather args site) Held.hand := by
  refine .skip (keeps_checkArity _ _ _ _ _) fun _ => ?_
  have made (r : Ref .array) (chosen : Bool) : Keeps 0 (do
      let tasks ← ask fun w => w.heap.array r
      let children ← tasks.toList.mapM fun v => coroutineArg .gather v site
      let state := GatherState.ofChildren children chosen
      return .fresh (.gather (← newCoroutine "gather_task" (.gather state) none)) : Eval Held) (do
      let tasks ← ask fun w => w.heap.array r
      let children ← tasks.toList.mapM fun v => coroutineArg .gather v site
      let state := GatherState.ofChildren children chosen
      return .fresh (.gather (← newCoroutine "gather_task" (.gather state) none)) : Eval Held)
      Held.hand :=
    .skip (keeps_ask _) fun _ => by
      refine .of_gives (.of_eq (by simp)) (.bind (.mapM (fun v => keeps_coroutineArg .gather v site) _)
        fun children => ?_)
      refine .bind (keeps_newCoroutine _ (hand_ofChildren _ _) (fun w R hw => ?_) _) fun _ =>
        .pure (.of_flat rfl)
      -- the children are held until the group has been made of them
      exact admits_ofChildren chosen fun child hm =>
        hw.stands (s := .there child) (Multiset.mem_add.2 (.inr (mem_sum_there hm)))
  split
  all_goals cases args.positional[1]? with
  | some v => ?_
  | none => ?_
  · exact .skip (keeps_truthy _) fun _ => .skip (keeps_returnExceptions _ _ _) (made _)
  · exact .skip (.pure (.refl _)) fun _ => .skip (keeps_returnExceptions _ _ _) (made _)
  · exact .skip (keeps_truthy _) fun _ => .skip (keeps_returnExceptions _ _ _) fun _ =>
      keeps_complain _ _
  · exact .skip (.pure (.refl _)) fun _ => .skip (keeps_returnExceptions _ _ _) fun _ =>
      keeps_complain _ _

theorem keeps_cancel (args : List Value) (site : Token) :
    Keeps 0 (cancel args site) (cancel args site) Held.hand := by
  refine .skip (keeps_checkArity _ _ _ _ _) fun _ => .bind (keeps_coroutineArg _ _ _) fun task => ?_
  refine .of_gives (.drop _) (.skip keeps_get fun _ => .ite ?_ ?_)
  · exact .skip (keeps_onWorld (fun w _ hs => hs.events (World.events_cancel w task))
      fun w R hw => hw.cancel task) fun _ => .pure (.of_flat rfl)
  · exact .skip (keeps_onWorld
      (fun w _ hs => hs.events fun _ => World.events_flagCancelled w task)
      fun w R hw => hw.flagCancelled task) fun _ => .pure (.of_flat rfl)

theorem keeps_lengthOf (args : List Value) (site : Token) :
    Keeps 0 (lengthOf args site) (lengthOf args site) Held.hand := by
  refine .skip (keeps_checkArity _ _ _ _ _) fun _ => .skip (keeps_ask _) fun heap => ?_
  cases args.headD .null with
  | str | array | tuple | dict => exact .pure (.of_flat rfl)
  | _ => exact .bind (M := fun _ => 0) (keeps_complain _ _) fun _ => .pure (.of_flat rfl)

theorem keeps_sliceText (args : List Value) (site : Token) :
    Keeps 0 (sliceText args site) (sliceText args site) Held.hand := by
  refine .skip (keeps_checkArity _ _ _ _ _) fun _ => ?_
  split
  · refine .skip (.mapM_skip (fun v => ?_) _) fun bounds => ?_
    · unfold sliceIndex
      split
      · exact .pure (.refl _)
      · exact keeps_complain _ _
    · split <;> exact .pure (.of_flat rfl)
  · exact keeps_complain _ _

/-- The first of some values, or null. -/
theorem gives_head (args : List Value) : (Hand.ofValues ↑args).Gives {.owned (args.headD .null)} := by
  cases args with
  | nil => exact .of_flat rfl
  | cons v vs =>
    refine .of_le ?_
    rw [← Multiset.cons_coe, Hand.ofValues_cons]
    exact Multiset.le_add_right _ _

/-- An item that is added to an array is one's own before. -/
theorem keeps_append (receiver : Option Value) (args : List Value) (site : Token) :
    Keeps (seenHand receiver + .ofValues ↑args) (append receiver args site)
      (append receiver args site) Held.hand := by
  refine .skip (keeps_checkArity _ _ _ _ _) fun _ => ?_
  split
  · rename_i r
    refine .of_gives (.frame _ (gives_head args)) (.bind (M := fun _ => 0) ?_ fun _ =>
      .pure (.of_flat rfl))
    refine keeps_put (by simp [Value.box?]) fun h => Heap.puts_array r fun items => ?_
    rw [Array.toList_push, ← Multiset.coe_add, Multiset.coe_singleton, add_comm,
      Multiset.singleton_add]
  · exact keeps_complain _ _

/-! ### Any call -/

section Jobs

variable {j j' : Jobs} (hj : j.Keep j')

include hj

theorem keeps_objectText (site : Token) (r : Ref .object) :
    Keeps 0 (objectText j site r) (objectText j' site r) fun _ => 0 := by
  refine .skip (keeps_ask _) fun found => ?_
  split
  · exact .pure (.refl _)
  · refine .skip (keeps_ask _) fun isAsync => .guard (keeps_complain _ _) ?_
    refine .bind (keeps_newMethod _ rfl) fun method => .of_gives (.drop _) ?_
    refine .bind (M := Held.hand) (hj.invoke method {} site) fun v => .of_gives (.drop _) ?_
    split
    · exact .pure (.refl _)
    · exact keeps_complain _ _

omit hj in
theorem keeps_renderWith {hold : List Value → Eval (List String) → Eval (List String)}
    {object object' : Ref .object → Eval (Option String)}
    (hhold : ∀ vs {x x'}, Keeps 0 x x' (fun _ => 0) → Keeps 0 (hold vs x) (hold vs x') fun _ => 0)
    (hobject : ∀ r, Keeps 0 (object r) (object' r) fun _ => 0) (depth : Nat) (v : Value) :
    Keeps 0 (World.render (ask id) hold object depth v)
      (World.render (ask id) hold object' depth v) fun _ => 0 := by
  induction depth generalizing v with
  | zero => exact .pure (.refl _)
  | succ depth ih =>
    cases v with
    | array r | tuple r =>
      exact .skip (keeps_ask _) fun _ => .skip (hhold _ (.mapM_skip ih _)) fun _ => .pure (.refl _)
    | dict r =>
      refine .skip (keeps_ask _) fun _ => .skip (hhold _ (.mapM_skip (fun e => ?_) _)) fun _ =>
        .pure (.refl _)
      exact .skip (ih _) fun _ => .pure (.refl _)
    | object r =>
      -- what a text is made of is only looked at
      refine .skip (hobject _) fun text => ?_
      split
      · exact .pure (.refl _)
      · exact .skip (keeps_ask _) fun _ => .pure (.refl _)
    | _ => exact .skip (keeps_ask _) fun _ => .pure (.refl _)

theorem keeps_render (v : Value) (site : Token) :
    Keeps 0 (render j v site) (render j' v site) fun _ => 0 :=
  .holding _ (keeps_renderWith (fun vs _ _ h => .holding vs h) (keeps_objectText hj site) _ v)

theorem keeps_showValues (args : List Value) (site : Token) :
    Keeps 0 (showValues j args site) (showValues j' args site) Held.hand :=
  .skip (.holding _ (.mapM_skip (fun v => keeps_render hj v site) _)) fun _ =>
    .skip (keeps_emit _) fun _ => .pure (.of_flat rfl)

theorem keeps_callNative (n : Nat) (native : Native) (receiver : Option Value) (args : CallArgs)
    (site : Token) : Keeps (seenHand receiver + args.hand)
      (callNative j n native receiver args site) (callNative j' n native receiver args site)
      Held.hand := by
  -- only the items of an array are kept of all arguments
  have items : (Hand.ofValues ↑args.positional) ≤ args.hand := by
    refine Hand.ofValues_mono ?_
    rw [CallArgs.values, ← Multiset.coe_add]
    exact Multiset.le_add_right _ _
  refine .ite ?_ ?_
  on_goal 1 => split
  on_goal 1 =>
    refine .bind (M := fun _ => seenHand receiver + args.hand) (keeps_complain _ _) fun _ => ?_
  all_goals cases native with
  | append => exact .of_gives (.frame _ (.of_le items)) (keeps_append receiver _ _)
  | «show» => exact .of_gives (.drop _) (keeps_showValues hj _ _)
  | len => exact .of_gives (.drop _) (keeps_lengthOf _ _)
  | slice => exact .of_gives (.drop _) (keeps_sliceText _ _)
  | type =>
    exact .of_gives (.drop _) (.skip (keeps_checkArity _ _ _ _ _) fun _ => .pure (.of_flat rfl))
  | weave => exact .of_gives (.drop _) (.holding _ (keeps_weave hj n _ _))
  | spawnTask => exact .of_gives (.drop _) (keeps_spawnTask _ _)
  | rest => exact .of_gives (.drop _) (keeps_rest _ _)
  | gather => exact .of_gives (.drop _) (keeps_gather _ _)
  | cancel => exact .of_gives (.drop _) (keeps_cancel _ _)
  | yieldNow => exact .of_gives (.drop _) (keeps_yieldNow _ _)

/-- A method of a container is built in; any other may be written in the program. -/
theorem fares_callFunction (n : Nat) (r : Ref .function) (receiver : Option Value)
    (owner : Option (Ref .blueprint)) (args : CallArgs) (site : Token) {m : Machine} {R : Hand}
    (hr : ∀ v ∈ receiver, v.box? = none ∨ ∃ f native,
      m.world.functions.get? r = some f ∧ f.body = .native native)
    (hm : m.Safe (R + (seenHand receiver + args.hand))) :
    Fares Machine.bonds m.bonds (fun a m' => m'.Safe (R + a.hand)) (fun e m' => m'.Safe (R + e.hand))
      (callFunction j n r receiver owner args site m)
      (callFunction j' n r receiver owner args site m) := by
  simp only [callFunction, ask_bind]
  cases hb : (m.world.functions.get r).body with
  | native native => exact keeps_callNative hj n native receiver args site m R hm
  | script body =>
    -- only a built-in function is bound to a container, so here the receiver is an object
    have flat : ∀ v ∈ receiver, v.box? = none := by
      intro v hv
      refine (hr v hv).resolve_right ?_
      rintro ⟨f, native, hf, hn⟩
      rw [Arena.get, hf, Option.getD_some, hn] at hb
      contradiction
    have given : m.Safe (R + args.hand) := hm.mono (add_le_add_right (Multiset.le_add_left _ _) R)
    dsimp only
    split
    · exact keeps_spawn r flat owner args site m R given
    · exact keeps_callScript hj r flat owner args site m R given

theorem keeps_dispatch (n : Nat) (callee : Value) (args : CallArgs) (site : Token) :
    Keeps args.hand (dispatch j n callee args site) (dispatch j' n callee args site) Held.hand := by
  refine .holding _ ?_
  split
  · intro m R hm
    exact fares_callFunction hj n _ none none args site nofun
      (hm.mono (by rw [seenHand, Option.elim, zero_add]))
  · rename_i r
    intro m R hm
    obtain ⟨looked, native⟩ := hm.world.method r
    refine fares_callFunction hj n _ (some (m.world.methods.get r).receiver) _ args site
      (by rintro v ⟨⟩; exact native) { hm with world := looked.of_gives (.of_eq ?_) }
    rw [seenHand, Option.elim]
    abel
  · exact keeps_instantiate hj _ _ _
  · exact keeps_complain _ _

theorem keeps_invokeValue (n : Nat) (callee : Value) (args : CallArgs) (site : Token) :
    Keeps args.hand (invokeValue j n callee args site) (invokeValue j' n callee args site)
      Held.hand := by
  refine .next keeps_replayed fun outcome => ?_
  split
  · exact .of_gives (.of_le (Multiset.le_add_left _ _)) (keeps_resume _)
  · refine .of_gives (.of_le (Multiset.le_add_right _ _)) ?_
    refine .bind (.lift (.attempt (.bind (keeps_dispatch hj _ _ _ _) fun held => keeps_own held)))
      fun result => ?_
    split
    · exact keeps_settle (.ok _)
    · exact keeps_settle (.error _)
    · exact .stop (.refl _)

end Jobs

end Eval
end Rewind
