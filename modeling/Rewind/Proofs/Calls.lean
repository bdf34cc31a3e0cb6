/-
Calls are quiet.

Whatever is called, the caller's thread comes back as it was: the callee runs in its place with a
cursor, scope, mode and tape of its own.  A plain function can never suspend, since only the body of
a coroutine may await.

* `quiet_readAttribute`, `quiet_storeItem`, … — attributes and items;
* `quiet_argumentScope` — binding arguments;
* `ended_settle`, `quiet_inCallee_bind`, `ended_callScript` — the tape, and the call of a function;
* `quiet_render` — the text of a value.
-/
import Rewind.Proofs.Lineage
import Rewind.Proofs.Orderly

namespace Rewind.Eval

variable {A : Source → Prop} {ε α β : Type} [Stops ε]

omit [Stops ε] in
theorem bind_of_ok {x : EStateM ε Machine α} {f : α → EStateM ε Machine β} {m m' : Machine} {a : α}
    (h : x m = .ok a m') : (x >>= f) m = f a m' := by
  show EStateM.bind x f m = _
  simp only [EStateM.bind, h]

/-! ### Attributes and items -/

theorem quiet_bindMember (receiver member : Value) (owner : Ref .blueprint) :
    Quiet A (bindMember receiver member owner) := by
  unfold bindMember
  split
  · exact .bind (quiet_newMethod _) fun _ => .pure _
  · exact .pure _

theorem quiet_objectAttribute? (r : Ref .object) (name : String) :
    Quiet A (objectAttribute? r name) := by
  refine .bind (quiet_ask _) fun o => ?_
  split
  · exact .pure _
  · refine .bind (quiet_ask _) fun found => ?_
    split
    · exact .bind (quiet_bindMember _ _ _) fun _ => .pure _
    · exact .pure _

theorem quiet_findAttribute? (target : Held) (name : String) :
    Quiet A (findAttribute? target name) := by
  unfold findAttribute?
  split
  · refine .ite (fun _ => ?_) fun _ => quiet_objectAttribute? _ name
    exact .bind (quiet_ask _) fun _ => .pure _
  · refine .ite (fun _ => ?_) fun _ => ?_
    all_goals exact .bind (quiet_ask _) fun _ => .pure _
  · refine .bind (quiet_ask _) fun p => .bind (quiet_ask _) fun found => ?_
    split
    · exact .bind (quiet_bindMember _ _ _) fun _ => .pure _
    · exact .pure _
  · exact .bind (quiet_ask _) fun _ => .pure _
  · split
    · refine .bind (quiet_onWorld (fun _ => rfl) (fun _ => rfl) fun w => ?_) fun _ => ?_
      · exact addsFunctions_push w (sound_native _ _)
      · exact .bind (quiet_newMethod _) fun _ => .pure _
    · exact .bind (quiet_ask _) fun _ => .pure _
    · exact .pure _
  · exact .pure _

theorem quiet_readAttribute (target : Held) (name : String) (site : Token) :
    Quiet A (readAttribute target name site) := by
  refine .bind (quiet_findAttribute? target name) fun found => ?_
  split
  · exact .pure _
  · exact .bind (quiet_ask _) fun _ => quiet_complain _ _

theorem quiet_readItem (target : Held) (index : Value) (site : Token) :
    Quiet A (readItem target index site) :=
  .bind (quiet_ask _) fun _ => quiet_orComplain _ _

theorem quiet_storeAttribute (target : Value) (name : String) (v : Value) (site : Token) :
    Quiet A (storeAttribute target name v site) := by
  unfold storeAttribute
  split
  · exact quiet_onWorld_of_same (fun _ => rfl) (fun _ => rfl) fun _ => rfl
  · exact .bind (quiet_ask _) fun _ => quiet_modifyScopes _
  · exact quiet_onHeap _
  · exact quiet_complain _ _

theorem quiet_storeItem (target index v : Value) (site : Token) :
    Quiet A (storeItem target index v site) := by
  unfold storeItem
  split
  · refine .bind (quiet_ask _) fun length => ?_
    split
    · exact quiet_onHeap _
    · exact quiet_complain _ _
  · exact quiet_complain _ _
  · exact quiet_onHeap _
  all_goals exact quiet_complain _ _

theorem quiet_superProxy (site : Token) : Quiet A (superProxy site) := by
  refine .bind quiet_mode fun mode => ?_
  split
  · exact quiet_complain _ _
  · refine .bind (quiet_lookup _) fun found => ?_
    split
    · refine .bind (quiet_ask _) fun b => ?_
      split
      · exact quiet_complain _ _
      · exact quiet_onWorld_of_same (fun _ => rfl) (fun _ => rfl) fun _ => rfl
    · exact quiet_complain _ _

/-! ### Binding arguments -/

/-- A computation on the world in which no coroutine, function or blueprint takes part, and that
leaves the scopes where they are. -/
def Local {δ : Type} (x : EStateM δ World α) : Prop :=
  ∀ w : World, ∀ w' : World, (∃ a, x w = .ok a w') ∨ (∃ e, x w = .error e w') →
    w'.coroutines = w.coroutines ∧ w'.loop = w.loop ∧ w'.functions = w.functions ∧ w.Stands w'

namespace Local

variable {δ : Type}

theorem pure (a : α) : Local (Pure.pure a : EStateM δ World α) := by
  rintro w w' (⟨b, h⟩ | ⟨e, h⟩)
  · obtain ⟨-, rfl⟩ := EStateM.Result.ok.inj h
    exact ⟨rfl, rfl, rfl, .refl _⟩
  · contradiction

theorem stop (e : δ) : Local (throw e : EStateM δ World α) := by
  rintro w w' (⟨b, h⟩ | ⟨e, h⟩)
  · contradiction
  · obtain ⟨-, rfl⟩ := EStateM.Result.error.inj h
    exact ⟨rfl, rfl, rfl, .refl _⟩

theorem change {f : World → α × World} (hf : ∀ w : World, (f w).2.coroutines = w.coroutines ∧
    (f w).2.loop = w.loop ∧ (f w).2.functions = w.functions ∧ w.Stands (f w).2) :
    Local (modifyGet f : EStateM δ World α) := by
  rintro w w' (⟨b, h⟩ | ⟨e, h⟩)
  · obtain ⟨-, rfl⟩ := EStateM.Result.ok.inj h
    exact hf w
  · contradiction

theorem bind {x : EStateM δ World α} {f : α → EStateM δ World β} (hx : Local x)
    (hf : ∀ a, Local (f a)) : Local (x >>= f) := by
  intro w w' h
  change (∃ a, EStateM.bind x f w = .ok a w') ∨ (∃ e, EStateM.bind x f w = .error e w') at h
  unfold EStateM.bind at h
  cases hr : x w with
  | ok a w₁ =>
    rw [hr] at h
    have h₁ := hx w w₁ (.inl ⟨a, hr⟩)
    have h₂ := hf a w₁ w' h
    exact ⟨h₂.1.trans h₁.1, h₂.2.1.trans h₁.2.1, h₂.2.2.1.trans h₁.2.2.1,
      h₁.2.2.2.trans h₂.2.2.2⟩
  | error e w₁ =>
    rw [hr] at h
    obtain ⟨a, h⟩ | ⟨e, h⟩ := h
    · contradiction
    · obtain ⟨-, rfl⟩ := EStateM.Result.error.inj h
      exact hx w _ (.inr ⟨_, hr⟩)

/-- A check before the rest of a computation. -/
theorem guard {p : Prop} [Decidable p] {x : EStateM δ World PUnit} {f : PUnit → EStateM δ World β}
    (hx : Local x) (hf : Local (f ⟨⟩)) : Local (if p then x >>= f else f ⟨⟩) := by
  split
  · exact .bind hx fun _ => hf
  · exact hf

theorem scopes {f : Scopes → Scopes} (hf : ∀ s : Scopes, s.Endures (f s)) :
    Local (modify (·.onScopes f) : EStateM δ World Unit) :=
  change fun _ => ⟨rfl, rfl, rfl, rfl, hf _⟩

theorem define (r : Ref .scope) (name : String) (v : Value) :
    Local (modify (·.onScopes (·.define r name v)) : EStateM δ World Unit) :=
  scopes fun _ => .define _ _ _ _

theorem state : Local (get : EStateM δ World World) := by
  rintro w w' (⟨b, h⟩ | ⟨e, h⟩)
  · obtain ⟨-, rfl⟩ := EStateM.Result.ok.inj h
    exact ⟨rfl, rfl, rfl, .refl _⟩
  · contradiction

end Local

theorem local_bindNamed (function : String) (params : List Param) (given : Nat) (r : Ref .scope)
    (args : List (String × Value × Token)) : Local (bindNamed function params given r args) := by
  induction args with
  | nil => exact .pure _
  | cons a args ih =>
    obtain ⟨name, v, site⟩ := a
    simp only [bindNamed]
    split
    · exact .stop _
    · refine .bind .state fun w => ?_
      split
      · exact .bind (.stop _) fun _ => .bind (.define _ _ _) fun _ => ih
      · exact .bind (.define _ _ _) fun _ => ih

theorem local_bindDefaults (function : String) (r : Ref .scope) (site : Token)
    (params : List Param) : Local (bindDefaults function r site params) := by
  induction params with
  | nil => exact .pure _
  | cons p params ih =>
    simp only [bindDefaults]
    refine .bind .state fun w => ?_
    split
    · split
      · refine .bind (.change fun _ => ⟨rfl, rfl, rfl, .same rfl rfl⟩) fun _ =>
          .bind (.define _ _ _) fun _ => ih
      · exact .bind (.stop _) fun _ => ih
    · exact ih

theorem local_bindArguments (function : String) (params : List Param) (r : Ref .scope)
    (receiver : Option Value) (args : CallArgs) (site : Token) :
    Local (bindArguments function params r receiver args site) := by
  have bound (params : List Param) : Local (do
      modify (·.onScopes fun s =>
        (params.zip args.positional).foldl (fun s x => s.define r x.1.name x.2) s)
      bindNamed function params args.positional.length r args.named
      bindDefaults function r site params : EStateM Objection World Unit) :=
    .bind (.scopes fun s => .foldl (fun _ _ => .define _ _ _ _) s _) fun _ =>
      .bind (local_bindNamed _ _ _ _ _) fun _ => local_bindDefaults _ _ _ _
  unfold bindArguments
  split
  · exact .bind (.define _ _ _) fun _ => .guard (.stop _) (bound _)
  · exact .guard (.stop _) (bound _)

theorem quiet_tryWorld {δ : Type} {x : EStateM δ World α} (hx : Local x) :
    Quiet A (tryWorld x : EStateM ε Machine (Except δ α)) := by
  refine quiet_onWorld_of_same (fun w => ?_) (fun w => ?_) fun w => ?_
  all_goals cases hr : x w with
  | ok a w' => obtain ⟨hc, hl, hf, -⟩ := hx w w' (.inl ⟨a, hr⟩); assumption
  | error e w' => obtain ⟨hc, hl, hf, -⟩ := hx w w' (.inr ⟨e, hr⟩); assumption

theorem quiet_argumentScope (f : Function) (body : Script) (receiver : Option Value)
    (args : CallArgs) (site : Token) : Quiet A (argumentScope f body receiver args site) := by
  refine .bind (quiet_newScope _) fun r =>
    .bind (quiet_tryWorld (local_bindArguments _ _ _ _ _ _)) fun bound => ?_
  split
  · exact .pure _
  · exact .bind (quiet_modifyScopes _) fun _ => quiet_complain _ _

/-! ### The tape -/

theorem quiet_resume (outcome : Outcome) : Quiet A (resume outcome) := by
  unfold resume
  split
  · exact .pure _
  · exact .raise _

/-- The machine behind the next outcome on the tape, and a copy of that outcome. -/
def takeOutcome (m : Machine) (entry : Outcome) : Outcome × Machine :=
  let (outcome, world) := m.world.onHeap (Heap.duplicateOutcome entry)
  (outcome, { m with
    world
    thread := { m.thread with
      tape := { m.thread.tape with position := m.thread.tape.position + 1 } } })

theorem replayed_of_not_replays {m : Machine} (h : m.thread.replays = false) :
    replayed m = .ok none m := by
  have hc : (!m.thread.mode.inAsync || m.thread.skip != 0 || !m.thread.tape.replaying) = true := by
    revert h
    unfold Thread.replays
    cases m.thread.mode.inAsync <;> cases m.thread.tape.replaying <;>
      cases hs : m.thread.skip == 0 <;> simp [bne, hs]
  show (if (!m.thread.mode.inAsync || m.thread.skip != 0 || !m.thread.tape.replaying) = true
    then (pure none : Eval (Option Outcome)) else _) m = _
  rw [if_pos hc]
  rfl

theorem replayed_of_replays {m : Machine} (h : m.thread.replays = true) :
    ∃ entry, m.thread.tape.entries[m.thread.tape.position]? = some entry ∧
      replayed m = .ok (some (takeOutcome m entry).1) (takeOutcome m entry).2 := by
  simp only [Thread.replays, Bool.and_eq_true, beq_iff_eq] at h
  obtain ⟨⟨ha, hs⟩, ht⟩ := h
  have hlt : m.thread.tape.position < m.thread.tape.entries.size := by
    simpa [Tape.replaying] using ht
  refine ⟨m.thread.tape.entries[m.thread.tape.position], Array.getElem?_eq_getElem hlt, ?_⟩
  have hc : (!m.thread.mode.inAsync || m.thread.skip != 0 || !m.thread.tape.replaying) = false := by
    simp [ha, hs, ht]
  show (if (!m.thread.mode.inAsync || m.thread.skip != 0 || !m.thread.tape.replaying) = true
    then (pure none : Eval (Option Outcome)) else _) m = _
  rw [hc, if_neg (by simp)]
  have hn : m.thread.tape.next? = (do
      return some (← Heap.duplicateOutcome (m.thread.tape.entries[m.thread.tape.position]),
        { m.thread.tape with position := m.thread.tape.position + 1 })) := by
    unfold Tape.next?
    rw [Array.getElem?_eq_getElem hlt]
  rw [hn]
  rfl

theorem quiet_replayed : Quiet A replayed := by
  intro c m hm _
  cases h : m.thread.replays with
  | false =>
    rw [replayed_of_not_replays h]
    exact Settles.refl hm.sound
  | true =>
    obtain ⟨entry, -, hr⟩ := replayed_of_replays h
    rw [hr]
    have ht : m.thread.tape.replaying = true := by
      simp only [Thread.replays, Bool.and_eq_true] at h
      exact h.2
    refine ⟨⟨⟨⟨rfl, rfl, rfl, rfl, rfl, rfl⟩, rfl, rfl⟩, rfl, rfl, rfl, rfl, rfl, rfl, rfl, hm.sound,
      .single (.read _ ht)⟩, .act (.compute hm.goesOn rfl rfl (.of_same rfl)) rfl⟩

/-- The machine with a copy of an outcome put on its tape. -/
def recordOutcome (m : Machine) (outcome : Outcome) : Machine :=
  let (copy, world) := m.world.onHeap (Heap.duplicateOutcome outcome)
  { m with world, thread := { m.thread with tape := m.thread.tape.record copy } }

theorem settle_run (m : Machine) (outcome : Outcome) :
    settle outcome m = resume outcome
      (if (m.thread.mode.inAsync && m.thread.skip == 0) = true then recordOutcome m outcome
        else m) := by
  show (if (m.thread.mode.inAsync && m.thread.skip == 0) = true then _ else resume outcome) m = _
  split <;> rfl

/-- An outcome that was not taken from the tape is put on it, if the thread keeps a tape. -/
theorem ended_settle {c : Control} {m : Machine} (hm : Ready c m) (outcome : Outcome)
    (h : m.thread.replays = false) : Ended c m (settle outcome m) := by
  have hs : Settles c m (if (m.thread.mode.inAsync && m.thread.skip == 0) = true
      then recordOutcome m outcome else m) := by
    split
    · rename_i hr
      have ht : m.thread.tape.replaying = false := by simpa [Thread.replays, hr] using h
      exact ⟨⟨⟨⟨rfl, rfl, rfl, rfl, rfl, rfl⟩, rfl, rfl⟩, rfl, rfl, rfl, rfl, rfl, rfl, rfl,
        hm.sound, .single (.record _ _ ht)⟩, .act (.compute hm.goesOn rfl rfl (.of_same rfl)) rfl⟩
    · exact .refl hm.sound
  rw [settle_run]
  exact .trans hs (quiet_resume (A := fun _ => True) outcome c _ (hm.settles hs) trivial)

theorem Thread.replays_of_settled {m m' : Machine} (h : Settled m m')
    (hr : m.thread.replays = false) : m'.thread.replays = false := by
  unfold Thread.replays at hr ⊢
  rw [h.mode, h.skip]
  cases hc : m.thread.mode.inAsync && m.thread.skip == 0 with
  | false => rfl
  | true =>
    rw [hc] at hr
    exact h.tape.replaying_eq_false hr

/-! ### Functions -/

/-- A body written in the program begins at a place of its source. -/
theorem World.marks_of_script {w : World} (hw : w.Sound) {f : Ref .function} {body : Script}
    (hf : (w.functions.get f).body = .script body) : body.source.Marks body.entry := by
  cases hg : w.functions.get? f with
  | none => simp [Arena.get, hg, default] at hf
  | some g => exact hw.functions hg body (by simpa [Arena.get, hg] using hf)

/-- The machine in which a body runs in a callee's place. -/
def calleeMachine (m : Machine) (cursor : Cursor) (r : Ref .scope) (mode : Mode) : Machine :=
  { m with
    thread := { m.thread with cursor, scope := r, mode, tape := {}, resume := [], parked := [] }
    callDepth := m.callDepth + 1
    pinned := .thread m.thread.waiting :: m.pinned }

/-- The machine of the caller after the callee has come to `m'`. -/
def callerMachine (m m' : Machine) : Machine :=
  { m' with
    thread := { m'.thread with
      cursor := m.thread.cursor, scope := m.thread.scope, mode := m.thread.mode,
      tape := m.thread.tape, resume := m.thread.resume, parked := m.thread.parked }
    callDepth := m'.callDepth - 1
    pinned := m.pinned
    world := m'.world.onScopes (·.clear m'.thread.scope) }

theorem inCallee_run (cursor : Cursor) (r : Ref .scope) (mode : Mode) (x : Run α) (m : Machine) :
    inCallee cursor r mode x m = match x (calleeMachine m cursor r mode) with
      | .ok a m' => .ok (.ok a) (callerMachine m m')
      | .error f m' => .ok (.error f) (callerMachine m m') := by
  simp only [inCallee, bind, EStateM.bind, get_run, modifyThread, modify_run, pinning, catchFault]
  have enter : calleeMachine m cursor r mode = { m with
      thread := { m.thread with cursor, scope := r, mode, tape := {}, resume := [], parked := [] }
      callDepth := m.callDepth + 1
      pinned := .thread m.thread.waiting :: m.pinned } := rfl
  rw [← enter]
  cases x (calleeMachine m cursor r mode) <;> rfl

/-- A body run in a callee's place comes back to its caller: it cannot yield, since no callee is in
the body of a coroutine. -/
theorem quiet_inCallee_bind {cursor : Cursor} (hc : cursor.Sound) (r : Ref .scope) {mode : Mode}
    (hmode : mode.inAsync = false) {x : Run Status} (hx : Orderly false (fun _ => True) x)
    {f : Except Fault Status → Eval β} (herr : ∀ fault, f (.error fault) = throw (.fault fault))
    (hok : ∀ status, status ≠ .yielded → Quiet A (f (.ok status))) :
    Quiet A (inCallee cursor r mode x >>= f) := by
  intro c m hm hs
  let inner := calleeMachine m cursor r mode
  have async : inner.thread.mode.inAsync ≠ true := fun h => Bool.false_ne_true (hmode.symm.trans h)
  have hi : Ready c inner :=
    ⟨hc, hm.world, hm.acts, hm.weaving, hm.driven, fun h => absurd h async⟩
  have h := hx c inner hi (.inl rfl) trivial
  -- on the way back nothing but the callee's scope is emptied
  have steps {m' : Machine} (hs : Proceeds (inner.situation c) (m'.situation c)) :
      Proceeds (m.situation c) ((callerMachine m m').situation c) :=
    hs.trans (.act (.compute hm.goesOn rfl rfl (.of_same rfl)) rfl) id
  have steady {m' : Machine} (h : Steady inner m') : Steady m (callerMachine m m') :=
    ⟨⟨rfl, h.environment, h.globals, h.directory, congrArg (· - 1) h.callDepth, h.weaving⟩, h.task,
      h.driven⟩
  show Ended c m (EStateM.bind _ f m)
  unfold EStateM.bind
  rw [inCallee_run]
  have next {status : Status} {m' : Machine} (hn : status ≠ .yielded) (hp : Passes c inner m') :
      Ended c m (f (.ok status) (callerMachine m m')) := by
    have hset : Settles c m (callerMachine m m') :=
      ⟨⟨steady hp.1.toSteady, rfl, rfl, hp.1.skip, rfl, rfl, hp.1.parking, rfl, hm.sound, .refl⟩,
        steps hp.2⟩
    exact .trans hset (hok status hn c _ (hm.settles hset) hs)
  cases hr : x inner with
  | ok status m' =>
    rw [hr] at h
    cases status with
    | yielded =>
      -- who yields is in the body of a coroutine, and a callee is not
      obtain ⟨⟨_, _, _, hp, _⟩, -⟩ := h
      exact absurd hp.async async
    | normal => exact next (by simp) h
    | leaving signal => exact next (by simp) h
  | error fault m' =>
    rw [hr] at h
    show Ended c m (f (.error fault) (callerMachine m m'))
    rw [herr]
    exact ⟨steady h.1, steps h.2.1,
      h.2.2.unwind ⟨rfl, .onScopes m'.world (·.clear m'.thread.scope)⟩⟩

section Jobs

variable {j : Jobs}

theorem ended_callScript (hj : Works j) (r : Ref .function) (receiver : Option Value)
    (owner : Option (Ref .blueprint)) (args : CallArgs) (site : Token) {c : Control} {m : Machine}
    (hm : Ready c m)
    (hn : ∀ native, (m.world.functions.get r).body ≠ .native native) :
    Ended c m (callScript j r receiver owner args site m) := by
  have hm := hm.pin (.values [.function r])
  refine ended_pinning _ ?_
  rw [ask_bind]
  cases hb : (m.world.functions.get r).body with
  | native native => exact absurd hb (hn native)
  | script body =>
    have marks := World.marks_of_script hm.world hb
    refine (Quiet.get_bind fun c m hm hs => ?_ : Quiet (fun _ => True) _) c _ hm trivial
    refine (Quiet.guard (.lift (quiet_fail _ (by trivial))) ?_ : Quiet (fun _ => True) _) c m hm hs
    refine .bind (quiet_argumentScope _ _ _ _ _) fun callee => ?_
    split
    · exact .lift (quiet_fail _ (reads_at? marks _ ‹_›))
    · rename_i cursor hc
      -- the signal a body ends with is its value, an exception, or nothing at all
      refine quiet_inCallee_bind (Cursor.sound_at? marks hc).1 callee rfl (hj.body _)
        (fun _ => rfl) fun status hn => ?_
      split
      · contradiction
      · exact .pure _
      · exact .raise _
      · exact absurd (Except.ok.inj ‹_›) hn
      · exact .pure _

/-- Only a function that is written in the program is made a coroutine of. -/
theorem ended_spawn (r : Ref .function) (receiver : Option Value)
    (owner : Option (Ref .blueprint)) (args : CallArgs) (site : Token) {c : Control} {m : Machine}
    (hm : Ready c m) {body : Script} (hb : (m.world.functions.get r).body = .script body) :
    Ended c m (spawn r receiver owner args site m) := by
  have bound := quiet_argumentScope (A := fun _ => True) (m.world.functions.get r) body receiver
    args site c m hm trivial
  simp only [spawn, bind, EStateM.bind, ask, hb]
  cases ha : argumentScope (m.world.functions.get r) body receiver args site m with
  | error e m₁ =>
    rw [ha] at bound
    exact bound
  | ok callee m₁ =>
    rw [ha] at bound
    refine .trans bound ?_
    have made := ended_newCoroutine (ε := Interrupt) (m.world.functions.get r).name
      (some callee) (hm.settles bound) (World.admits_script _ r owner)
      (fun f owner h => ?_) (by simp)
    · exact made
    · obtain ⟨rfl, -⟩ := CoroutineKind.script.inj h
      exact ⟨body, bound.2.steps.addsFunctions.script hb⟩

/-- The machine in which another object of the blueprint has been made. -/
def withObject (m : Machine) (b : Ref .blueprint) : Machine :=
  { m with
    objects := m.objects + 1
    world := { m.world with
      objects := m.world.objects.push { serial := m.objects + 1, blueprint := b } } }

omit [Stops ε] in
/-- New objects are no members of a blueprint. -/
theorem findMember_of_objects (w : World) (objects : Arena .object Object) (b : Ref .blueprint)
    (name : String) : World.findMember { w with objects } b name = w.findMember b name := by
  unfold World.findMember
  generalize b.index + 1 = steps
  induction steps generalizing b with
  | zero => rfl
  | succ steps ih => simp only [World.findMemberWithin, ih]

theorem callScript_of_native (j : Jobs) {m : Machine} {f : Ref .function} {native : Native}
    (hn : (m.world.functions.get f).body = .native native) (receiver : Option Value)
    (owner : Option (Ref .blueprint)) (args : CallArgs) (site : Token) :
    callScript j f receiver owner args site m =
      .error (.fault (.failure (.internal .nativeScript))) m := by
  simp only [callScript, holding, pinning, bind, EStateM.bind, ask, hn]
  rfl

/-- The call of a blueprint whose `init` is a built-in function fails. -/
theorem instantiate_of_nativeInit (j : Jobs) {m : Machine} {b : Ref .blueprint}
    (h : m.world.NativeInit b) (args : CallArgs) (site : Token) :
    instantiate j b args site m =
      .error (.fault (.failure (.internal .nativeScript))) (withObject m b) := by
  obtain ⟨f, owner, native, hf, hn⟩ := h
  have async : (m.world.functions.get f).isAsync = false := by
    rw [Function.isAsync, hn]
  rw [instantiate, bind_of_ok (modify_run _ _), bind_of_ok (get_run _), onWorld_bind, ask_bind,
    ask_bind, findMember_of_objects, hf]
  dsimp only
  rw [ask_bind, async]
  simp only [Bool.false_eq_true, if_false, bind, EStateM.bind, holding, pinning]
  rw [callScript_of_native j]
  · rfl
  · exact hn

theorem quiet_instantiate (hj : Works j) (r : Ref .blueprint) (args : CallArgs) (site : Token) :
    Quiet A (instantiate j r args site) := by
  intro c m hm hs
  have made : Settles c m (withObject m r) :=
    ⟨.of_thread ⟨⟨rfl, rfl, rfl, rfl, rfl, rfl⟩, rfl, rfl⟩ rfl hm.sound,
      .act (.compute hm.goesOn rfl rfl (.of_same rfl)) rfl⟩
  -- a built-in function has no body to run in the callee's place, and the evaluator fails
  by_cases native : m.world.NativeInit r
  · obtain ⟨fuel, rfl⟩ := hj.tied
    have fails := instantiate_of_nativeInit (jobs fuel) native args site
    rw [fails]
    exact ⟨made.1.toSteady, made.2, c, m, _, .refl, ⟨r, native, fuel, args, site, fails⟩, .refl _⟩
  rw [instantiate, bind_of_ok (modify_run _ _), bind_of_ok (get_run _), onWorld_bind, ask_bind,
    ask_bind, findMember_of_objects]
  have hm := hm.settles made
  generalize (m.world.blueprints.get r).name = name
  have without : Ended c (withObject m r) ((do
      if !args.positional.isEmpty || !args.named.isEmpty then complain (.initMissing name) site
      return .fresh (.object m.world.objects.next) : Eval Held) (withObject m r)) :=
    (Quiet.ite (fun _ => .bind (quiet_complain _ _) fun _ => .pure _) fun _ => .pure _
      : Quiet A _) c _ hm hs
  cases hfound : m.world.findMember r "init" with
  | none => exact .trans made without
  | some found =>
    obtain ⟨v, owner⟩ := found
    cases v with
    | function init =>
      refine .trans made (.ite (fun _ => (Settles.refl hm.sound).breaks_self trivial) fun _ => ?_)
      have h : Ended c (withObject m r) (holding [.object m.world.objects.next]
          (callScript j init (some (.object m.world.objects.next)) (some owner) args site)
          (withObject m r)) :=
        ended_pinning _ (ended_callScript hj _ _ _ _ _ (hm.pin _)
          fun body hb => native ⟨init, owner, body, hfound, hb⟩)
      exact h.bind hm hs fun _ => .pure _
    | _ => exact .trans made without

/-! ### Text -/

theorem quiet_objectText (hj : Works j) (site : Token) (r : Ref .object) :
    Quiet A (objectText j site r) := by
  refine .bind (quiet_ask _) fun found => ?_
  split
  · exact .pure _
  · refine .bind (quiet_ask _) fun isAsync => .guard (quiet_complain _ _) ?_
    refine .bind (quiet_newMethod _) fun method => .bind (hj.invoke _ _ _) fun v => ?_
    split
    · exact .pure _
    · exact quiet_complain _ _

theorem quiet_renderWith {look : Eval World}
    {hold : List Value → Eval (List String) → Eval (List String)}
    {object : Ref .object → Eval (Option String)} (hlook : Quiet A look)
    (hhold : ∀ vs x, Quiet A x → Quiet A (hold vs x)) (hobject : ∀ r, Quiet A (object r))
    (depth : Nat) (v : Value) : Quiet A (World.render look hold object depth v) := by
  induction depth generalizing v with
  | zero => exact .pure _
  | succ depth ih =>
    cases v with
    | array r | tuple r =>
      exact .bind hlook fun _ => .bind (hhold _ _ (quiet_mapM ih _)) fun _ => .pure _
    | dict r =>
      refine .bind hlook fun _ => .bind (hhold _ _ (quiet_mapM (fun e => ?_) _)) fun _ => .pure _
      exact .bind (ih _) fun _ => .pure _
    | object r =>
      refine .bind (hobject _) fun text => ?_
      split
      · exact .pure _
      · exact .bind hlook fun _ => .pure _
    | _ => exact .bind hlook fun _ => .pure _

theorem quiet_render (hj : Works j) (v : Value) (site : Token) : Quiet A (render j v site) :=
  quiet_holding _ (quiet_renderWith (quiet_ask _) (fun vs _ h => quiet_holding vs h)
    (quiet_objectText hj site) _ v)

end Jobs

end Rewind.Eval
