/-
Evaluation between two statements.

However deep an expression goes, through calls, modules and loops of its own, it leaves the thread it
is part of as it was, save for the place of the cursor in its source and for what it has taken from
the tape or put on it.  What it does to the world is a run of steps of the session.  A computation
with this property is quiet, and quiet computations are closed under everything that programs are
put together with.

* `Tape.Advances` — outcomes are taken off the tape in order, and only behind the last one are
  new ones recorded;
* `Stable`, `Steady`, `Settled` — what stays the same, also when a run fails, and when it does not;
* `Ready` — a machine that may evaluate: its thread fits the situation of the session;
* `Quiet` — the property; `Quiet.bind`, `Quiet.lift`, `Quiet.holding`, … — what keeps it;
* `quiet_bump`, `quiet_rewind`, `quiet_lookup`, … — the primitives have it.
-/
import Rewind.Proofs.Lodging
import Rewind.Eval.Engine

namespace Rewind

/-! ### The tape -/

namespace Tape

/-- One outcome is taken off the tape, or recorded once none is left to take. -/
inductive Move : Tape → Tape → Prop
  | read (t : Tape) : t.replaying = true → Move t { t with position := t.position + 1 }
  | record (t : Tape) (outcome : Outcome) : t.replaying = false → Move t (t.record outcome)

/-- The tape after some more calls and awaits. -/
def Advances : Tape → Tape → Prop := Relation.ReflTransGen Move

theorem replaying_record (t : Tape) (outcome : Outcome) : (t.record outcome).replaying = false := by
  simp [replaying, record]

/-- Once a statement is past its replay it stays so. -/
theorem Advances.replaying_eq_false {t t' : Tape} (h : t.Advances t') (ht : t.replaying = false) :
    t'.replaying = false := by
  induction h with
  | refl => exact ht
  | tail _ hm ih =>
    cases hm with
    | read hr => rw [ih] at hr; contradiction
    | record outcome => exact replaying_record _ outcome

end Tape

/-- The thread takes outcomes from its tape in place of calling and awaiting. -/
def Thread.replays (t : Thread) : Bool := t.mode.inAsync && t.skip == 0 && t.tape.replaying

/-! ### What stays the same -/

/-- What no evaluation changes of a session, however it ends. -/
structure Stable (m m' : Machine) : Prop where
  pinned : m'.pinned = m.pinned
  environment : m'.environment = m.environment
  globals : m'.globals = m.globals
  directory : m'.directory = m.directory
  callDepth : m'.callDepth = m.callDepth
  weaving : m'.weaving = m.weaving

theorem Stable.refl (m : Machine) : Stable m m := ⟨rfl, rfl, rfl, rfl, rfl, rfl⟩

theorem Stable.trans {m₁ m₂ m₃ : Machine} (h : Stable m₁ m₂) (h' : Stable m₂ m₃) : Stable m₁ m₃ :=
  ⟨h'.pinned.trans h.pinned, h'.environment.trans h.environment, h'.globals.trans h.globals,
    h'.directory.trans h.directory, h'.callDepth.trans h.callDepth, h'.weaving.trans h.weaving⟩

/-- What no evaluation changes, however it ends: the thread keeps its place in the session. -/
structure Steady (m m' : Machine) : Prop extends Stable m m' where
  task : m'.thread.task = m.thread.task
  driven : m'.thread.driven = m.thread.driven

theorem Steady.refl (m : Machine) : Steady m m := ⟨.refl m, rfl, rfl⟩

theorem Steady.trans {m₁ m₂ m₃ : Machine} (h : Steady m₁ m₂) (h' : Steady m₂ m₃) : Steady m₁ m₃ :=
  ⟨h.toStable.trans h'.toStable, h'.task.trans h.task, h'.driven.trans h.driven⟩

theorem Steady.withThread {m m' : Machine} (h : Steady m m') {t : Thread}
    (ht : t.task = m'.thread.task) (hd : t.driven = m'.thread.driven) :
    Steady m { m' with thread := t } :=
  ⟨⟨h.pinned, h.environment, h.globals, h.directory, h.callDepth, h.weaving⟩, ht.trans h.task,
    hd.trans h.driven⟩

/-- What an expression leaves as it was: all of its thread, but for the place of the cursor and the
state of the tape. -/
structure Settled (m m' : Machine) : Prop extends Steady m m' where
  scope : m'.thread.scope = m.thread.scope
  mode : m'.thread.mode = m.thread.mode
  skip : m'.thread.skip = m.thread.skip
  resume : m'.thread.resume = m.thread.resume
  parked : m'.thread.parked = m.thread.parked
  parking : m'.thread.parking = m.thread.parking
  source : m'.thread.cursor.source = m.thread.cursor.source
  sound : m'.thread.cursor.Sound
  tape : m.thread.tape.Advances m'.thread.tape

/-- A machine with the thread of another, and with all that evaluation does not change. -/
theorem Settled.of_thread {m m' : Machine} (h : Steady m m') (ht : m'.thread = m.thread)
    (hs : m.thread.cursor.Sound) : Settled m m' := by
  refine ⟨h, ?_, ?_, ?_, ?_, ?_, ?_, ?_, ?_, ?_⟩
  all_goals rw [ht]
  · exact hs
  · exact .refl

theorem Settled.refl {m : Machine} (h : m.thread.cursor.Sound) : Settled m m :=
  .of_thread (.refl m) rfl h

theorem Settled.trans {m₁ m₂ m₃ : Machine} (h : Settled m₁ m₂) (h' : Settled m₂ m₃) :
    Settled m₁ m₃ :=
  ⟨h.toSteady.trans h'.toSteady, h'.scope.trans h.scope, h'.mode.trans h.mode, h'.skip.trans h.skip,
    h'.resume.trans h.resume, h'.parked.trans h.parked, h'.parking.trans h.parking,
    h'.source.trans h.source, h'.sound, Relation.ReflTransGen.trans h.tape h'.tape⟩

/-! ### How an evaluation ends -/

/-- The situation of a machine while `c` acts. -/
def Machine.situation (m : Machine) (c : Control) : Situation := ⟨c, m.world⟩

@[simp] theorem Machine.control_situation (m : Machine) (c : Control) :
    (m.situation c).control = c := rfl

/-- A machine whose thread fits what the session is doing. -/
structure Ready (c : Control) (m : Machine) : Prop where
  sound : m.thread.cursor.Sound
  world : m.world.Sound
  acts : c = .idle ∨ ∃ r, c = .turn r
  weaving : m.weaving = true ↔ c ≠ .idle
  driven : m.thread.driven = true → ∃ r, c = .turn r ∧ m.thread.task = some r
  async : m.thread.mode.inAsync = true → m.thread.driven = true

theorem Ready.goesOn {c : Control} {m : Machine} (h : Ready c m) : c.GoesOn := by
  intro r
  obtain rfl | ⟨s, rfl⟩ := h.acts <;> simp

/-- The evaluation is over, with a value or an exception. -/
def Settles (c : Control) (m m' : Machine) : Prop :=
  Settled m m' ∧ Proceeds (m.situation c) (m'.situation c)

/-- The coroutine whose turn it is has begun to wait, with nothing left on its tape to replay. -/
def Suspends (c : Control) (m m' : Machine) : Prop :=
  ∃ r, c = .turn r ∧ m.thread.mode.inAsync = true ∧ Settled m m' ∧
    m'.thread.tape.replaying = false ∧ Proceeds (m.situation (.turn r)) (m'.situation (.waiting r))

/-- The fault of a loop that has come to rest before its root was done. -/
def Fault.Deadlock : Fault → Prop
  | .failure (.deadlock _ _) => True
  | _ => False

/-- A fault that any evaluation may end with: neither a deadlock nor a defect. -/
def Fault.Plain : Fault → Prop
  | .failure (.deadlock _ _) => False
  | .failure (.internal _) => False
  | _ => True

/-- What is still there, when a run has failed, of what was there where it failed.  On the way out the
scopes of the callers are emptied, and the links between the coroutines of the loop are dropped. -/
structure World.Unwinds (w w' : World) : Prop where
  heap : w'.heap = w.heap
  functions : w'.functions = w.functions
  blueprints : w'.blueprints = w.blueprints
  objects : w'.objects = w.objects
  stranded : ∀ r name, (w.coroutines.get r).Stranded name → (w'.coroutines.get r).Stranded name

namespace World.Unwinds

variable {w w' w'' : World}

theorem refl (w : World) : w.Unwinds w := ⟨rfl, rfl, rfl, rfl, fun _ _ => id⟩

theorem trans (h : w.Unwinds w') (h' : w'.Unwinds w'') : w.Unwinds w'' :=
  ⟨h'.heap.trans h.heap, h'.functions.trans h.functions, h'.blueprints.trans h.blueprints,
    h'.objects.trans h.objects, fun r name hr => h'.stranded r name (h.stranded r name hr)⟩

theorem onScopes (w : World) (f : Scopes → Scopes) : w.Unwinds (w.onScopes f) :=
  ⟨rfl, rfl, rfl, rfl, fun _ _ => id⟩

theorem releaseLinks (w : World) (r : Ref .coroutine) : w.Unwinds (w.releaseLinks r) := by
  have stranded (s : Ref .coroutine) (name : String) (h : (w.coroutines.get s).Stranded name) :
      ((w.releaseLinks r).coroutines.get s).Stranded name := by
    by_cases hs : s = r
    · subst hs
      rw [get_releaseLinks w (has_of_stranded h)]
      exact ⟨h.named, h.body, h.live, rfl⟩
    · rwa [get_releaseLinks_of_ne w hs]
  refine ⟨?_, ?_, ?_, ?_, stranded⟩
  all_goals
    simp only [World.releaseLinks]
    split <;> rfl

theorem teardown (w : World) : w.Unwinds w.teardown := by
  have released (l : List (Ref .coroutine)) : w.Unwinds (l.foldl World.releaseLinks w) := by
    induction l generalizing w with
    | nil => exact .refl w
    | cons r l ih => exact (releaseLinks w r).trans (ih _)
  exact (released w.loop.started).trans ⟨rfl, rfl, rfl, rfl, fun _ _ => id⟩

end World.Unwinds

/-- A run that has failed in the machine `m` is over in the machine `m'`: nothing has been printed on
the way out. -/
structure Machine.Unwinds (m m' : Machine) : Prop where
  output : m'.output = m.output
  world : m.world.Unwinds m'.world

namespace Machine.Unwinds

variable {m m' m'' : Machine}

theorem refl (m : Machine) : m.Unwinds m := ⟨rfl, .refl _⟩

theorem trans (h : m.Unwinds m') (h' : m'.Unwinds m'') : m.Unwinds m'' :=
  ⟨h'.output.trans h.output, h.world.trans h'.world⟩

theorem of_world (ho : m'.output = m.output) (hw : m'.world = m.world) : m.Unwinds m' :=
  ⟨ho, hw ▸ .refl _⟩

end Machine.Unwinds

/-- The blueprint has a built-in function for its `init`. -/
def World.NativeInit (w : World) (b : Ref .blueprint) : Prop :=
  ∃ f owner native, w.findMember b "init" = some (.function f, owner) ∧
    (w.functions.get f).body = .native native

/-- In the machine `m` a blueprint is called that has a built-in function for its `init`.  The call
fails, in the machine `m'`. -/
def Machine.FailsInit (m m' : Machine) : Prop :=
  ∃ b, m.world.NativeInit b ∧ ∃ fuel args site, Eval.instantiate (Eval.jobs fuel) b args site m =
    .error (.fault (.failure (.internal .nativeScript))) m'

/-- In the machine `m` a loop begins while a coroutine of this name is stranded.  The loop fails, in
the machine `m'`, and the coroutine is stranded still. -/
def Machine.LosesTurn (name : String) (m m' : Machine) : Prop :=
  ∃ r, (m.world.coroutines.get r).Stranded name ∧ (m'.world.coroutines.get r).Stranded name ∧
    ∃ fuel n root, Eval.runLoop (Eval.jobs fuel) n root m =
      .error (.failure (.internal (.scopeMissing name))) m'

/-- Where the fault comes from of a run that began in the situation `s` and ended in the machine `m'`.
While a loop runs nobody runs another one, so what only a loop ends with is not to be met there. -/
def Fault.Arises (s : Situation) (m' : Machine) : Fault → Prop
  | .failure (.deadlock _ _) => s.control = .idle
  | .failure (.internal .nativeScript) => ∃ (c : Control) (m₁ m₂ : Machine),
      Steps s (m₁.situation c) ∧ m₁.FailsInit m₂ ∧ m₂.Unwinds m'
  | .failure (.internal (.scopeMissing name)) => s.control = .idle ∧ ∃ m₁ m₂ : Machine,
      Steps s (m₁.situation .idle) ∧ m₁.LosesTurn name m₂ ∧ m₂.Unwinds m'
  | .failure (.internal .bodyMissing) => s.control = .idle ∧ ¬ s.world.Manned
  | .failure (.internal _) => False
  | _ => True

theorem Fault.Plain.arises {f : Fault} (h : f.Plain) (s : Situation) (m' : Machine) :
    f.Arises s m' := by
  unfold Plain at h
  split at h <;> simp_all [Arises]

/-- What a run may end with later on it may end with now. -/
theorem Fault.Arises.back {f : Fault} {s s' : Situation} {m' : Machine} (h : f.Arises s' m')
    (hs : Steps s s') (hc : s'.control = .idle → s.control = .idle)
    (hm : s.world.Manned → s'.world.Manned) : f.Arises s m' := by
  unfold Arises at h ⊢
  split at h
  · exact hc h
  · obtain ⟨c, m₁, m₂, ht, h⟩ := h
    exact ⟨c, m₁, m₂, hs.trans ht, h⟩
  · obtain ⟨hi, m₁, m₂, ht, h⟩ := h
    exact ⟨hc hi, m₁, m₂, hs.trans ht, h⟩
  · exact ⟨hc h.1, fun hw => h.2 (hm hw)⟩
  · exact h
  · trivial

/-- Where a fault comes from is not changed by what is done on the way out. -/
theorem Fault.Arises.unwind {f : Fault} {s : Situation} {m m' : Machine} (h : f.Arises s m)
    (hu : m.Unwinds m') : f.Arises s m' := by
  unfold Arises at h ⊢
  split at h
  · exact h
  · obtain ⟨c, m₁, m₂, hs, hf, h⟩ := h
    exact ⟨c, m₁, m₂, hs, hf, h.trans hu⟩
  · obtain ⟨hi, m₁, m₂, hs, hf, h⟩ := h
    exact ⟨hi, m₁, m₂, hs, hf, h.trans hu⟩
  · exact h
  · exact h
  · trivial

/-- The whole run is to end. -/
def Breaks (c : Control) (f : Fault) (m m' : Machine) : Prop :=
  Steady m m' ∧ Proceeds (m.situation c) (m'.situation c) ∧ f.Arises (m.situation c) m'

theorem Settles.refl {c : Control} {m : Machine} (h : m.thread.cursor.Sound) : Settles c m m :=
  ⟨.refl h, .refl _⟩

theorem Settles.trans {c : Control} {m₁ m₂ m₃ : Machine} (h : Settles c m₁ m₂)
    (h' : Settles c m₂ m₃) : Settles c m₁ m₃ :=
  ⟨h.1.trans h'.1, h.2.trans h'.2 id⟩

theorem Settles.suspends {c : Control} {m₁ m₂ m₃ : Machine} (h : Settles c m₁ m₂)
    (h' : Suspends c m₂ m₃) : Suspends c m₁ m₃ := by
  obtain ⟨r, rfl, hm, hs, ht, hw⟩ := h'
  exact ⟨r, rfl, h.1.mode ▸ hm, h.1.trans hs, ht, h.2.trans hw id⟩

theorem Settles.breaks {c : Control} {f : Fault} {m₁ m₂ m₃ : Machine} (h : Settles c m₁ m₂)
    (h' : Breaks c f m₂ m₃) : Breaks c f m₁ m₃ :=
  ⟨h.1.toSteady.trans h'.1, h.2.trans h'.2.1 id, h'.2.2.back h.2.steps id h.2.manned⟩

theorem Settles.breaks_self {c : Control} {f : Fault} {m m' : Machine} (h : Settles c m m')
    (hf : f.Plain) : Breaks c f m m' :=
  ⟨h.1.toSteady, h.2, hf.arises _ _⟩

theorem Ready.settles {c : Control} {m m' : Machine} (h : Ready c m) (hs : Settles c m m') :
    Ready c m' := by
  refine ⟨hs.1.sound, hs.2.steps.sound h.world, h.acts, ?_, ?_, ?_⟩
  · rw [hs.1.weaving]; exact h.weaving
  · rw [hs.1.driven, hs.1.task]; exact h.driven
  · rw [hs.1.mode, hs.1.driven]; exact h.async

theorem Ready.pin {c : Control} {m : Machine} (hm : Ready c m) (p : Pin) :
    Ready c { m with pinned := p :: m.pinned } :=
  ⟨hm.sound, hm.world, hm.acts, hm.weaving, hm.driven, hm.async⟩

/-- What stops a computation, as a reason to stop an expression. -/
class Stops (ε : Type) where
  interrupt : ε → Interrupt

instance : Stops Fault := ⟨.fault⟩

instance : Stops Interrupt := ⟨id⟩

variable {ε α β : Type} [Stops ε]

omit [Stops ε] in
theorem get_run (m : Machine) : (get : EStateM ε Machine Machine) m = .ok m m := rfl

omit [Stops ε] in
theorem modify_run (f : Machine → Machine) (m : Machine) :
    (modify f : EStateM ε Machine PUnit) m = .ok ⟨⟩ (f m) := rfl

omit [Stops ε] in
theorem ask_bind (f : World → α) (g : α → EStateM ε Machine β) (m : Machine) :
    (Eval.ask f >>= g) m = g (f m.world) m := rfl

omit [Stops ε] in
theorem onWorld_bind (f : World → α × World) (g : α → EStateM ε Machine β) (m : Machine) :
    (Eval.onWorld f >>= g) m = g (f m.world).1 { m with world := (f m.world).2 } := rfl

/-- A computation that began in the machine `m` while `c` acts ended as it should. -/
def Ended (c : Control) (m : Machine) : EStateM.Result ε Machine α → Prop
  | .ok _ m' => Settles c m m'
  | .error e m' =>
    match Stops.interrupt e with
    | .raised _ => Settles c m m'
    | .suspended => Suspends c m m'
    | .fault f => Breaks c f m m'

/-- Wherever a machine is ready and its source is as `A` says, the computation ends as it should. -/
def Quiet (A : Source → Prop) (x : EStateM ε Machine α) : Prop :=
  ∀ c m, Ready c m → A m.thread.cursor.source → Ended c m (x m)

theorem Ended.trans {c : Control} {m₁ m₂ : Machine} (h : Settles c m₁ m₂)
    {r : EStateM.Result ε Machine α} (hr : Ended c m₂ r) : Ended c m₁ r := by
  cases r with
  | ok a m₃ => exact Settles.trans h hr
  | error e m₃ =>
    simp only [Ended] at hr ⊢
    split at hr
    · exact h.trans hr
    · exact h.suspends hr
    · exact h.breaks hr

/-- A change of the world that is one step of whoever acts. -/
theorem Settles.step {c : Control} {m : Machine} (hm : Ready c m) {w : World}
    (h : Step (m.situation c) ⟨c, w⟩) (hsize : w.coroutines.size = m.world.coroutines.size) :
    Settles c m { m with world := w } :=
  ⟨.of_thread ⟨⟨rfl, rfl, rfl, rfl, rfl, rfl⟩, rfl, rfl⟩ rfl hm.sound, .act h hsize⟩

theorem Ended.ite {c : Control} {m : Machine} {p : Prop} [Decidable p] {x y : EStateM ε Machine α}
    (hx : p → Ended c m (x m)) (hy : ¬ p → Ended c m (y m)) :
    Ended c m ((if p then x else y) m) := by
  split
  · exact hx ‹_›
  · exact hy ‹_›

theorem Ended.bind {A : Source → Prop} {x : EStateM ε Machine α} {f : α → EStateM ε Machine β}
    {c : Control} {m : Machine} (h : Ended c m (x m)) (hm : Ready c m)
    (hs : A m.thread.cursor.source) (hf : ∀ a, Quiet A (f a)) : Ended c m ((x >>= f) m) := by
  show Ended c m (EStateM.bind x f m)
  unfold EStateM.bind
  cases hr : x m with
  | ok a m₁ =>
    rw [hr] at h
    exact .trans h (hf a c m₁ (hm.settles h) (h.1.source ▸ hs))
  | error e m₁ =>
    rw [hr] at h
    exact h

namespace Quiet

variable {A B : Source → Prop}

theorem pure (a : α) : Quiet A (Pure.pure a : EStateM ε Machine α) :=
  fun _ _ hm _ => Settles.refl hm.sound

theorem bind {x : EStateM ε Machine α} {f : α → EStateM ε Machine β} (hx : Quiet A x)
    (hf : ∀ a, Quiet A (f a)) : Quiet A (x >>= f) :=
  fun c m hm hs => (hx c m hm hs).bind hm hs hf

theorem map {x : EStateM ε Machine α} (f : α → β) (hx : Quiet A x) : Quiet A (f <$> x) := by
  intro c m hm hs
  have h := hx c m hm hs
  show Ended c m (EStateM.map f x m)
  unfold EStateM.map
  cases hr : x m <;> · rw [hr] at h; exact h

theorem run_lift (x : Run α) (m : Machine) :
    (liftM x : Eval α) m = match x m with
      | .ok a m => .ok a m
      | .error f m => .error (.fault f) m := rfl

/-- What ends a run ends an expression. -/
theorem lift {x : Run α} (hx : Quiet A x) : Quiet A (liftM x : Eval α) := by
  intro c m hm hs
  have h := hx c m hm hs
  rw [run_lift]
  cases hr : x m <;> · rw [hr] at h; exact h

/-- The value a computation stops with does not matter if the machine is as it was. -/
theorem stop (e : ε) (he : Stops.interrupt e ≠ .suspended)
    (hf : ∀ f, Stops.interrupt e = .fault f → f.Plain) :
    Quiet A (throw e : EStateM ε Machine α) := by
  intro c m hm _
  show Ended c m (EStateM.Result.error e m)
  simp only [Ended]
  split
  · exact .refl hm.sound
  · contradiction
  · exact (Settles.refl hm.sound).breaks_self (hf _ ‹_›)

/-- An exception leaves the machine as it was. -/
theorem raise (r : Raised) : Quiet A (throw (.raised r) : Eval α) :=
  fun _ _ hm _ => Settles.refl hm.sound

/-- A fault that was caught goes on after something else is done. -/
theorem rethrow {x : Eval α} (hx : Quiet A x) {c : Control} {m m' : Machine} {fault : Fault}
    (hu : ∀ {a m₁}, x m' = .ok a m₁ → m'.Unwinds m₁)
    (hf : fault.Arises (m.situation c) m') (h : Settles c m m') (hm : Ready c m)
    (hs : A m.thread.cursor.source) :
    Ended c m ((x >>= fun _ => throw (.fault fault) : Eval β) m') := by
  have he := hx c m' (hm.settles h) (h.1.source ▸ hs)
  show Ended c m (EStateM.bind x _ m')
  unfold EStateM.bind
  cases hr : x m' with
  | ok a m₁ =>
    rw [hr] at he
    exact ⟨(h.trans he).1.toSteady, (h.trans he).2, hf.unwind (hu hr)⟩
  | error e m₁ =>
    rw [hr] at he
    exact .trans h he

/-- A look at the machine. -/
theorem read (f : Machine → α) : Quiet A (fun m => .ok (f m) m : EStateM ε Machine α) :=
  fun _ _ hm _ => Settles.refl hm.sound

theorem ite {p : Prop} [Decidable p] {x y : EStateM ε Machine α} (hx : p → Quiet A x)
    (hy : ¬ p → Quiet A y) : Quiet A (if p then x else y) := by
  split
  · exact hx ‹_›
  · exact hy ‹_›

/-- A check before the rest of a computation. -/
theorem guard {p : Prop} [Decidable p] {x : EStateM ε Machine PUnit}
    {f : PUnit → EStateM ε Machine β} (hx : Quiet A x) (hf : Quiet A (f ⟨⟩)) :
    Quiet A (if p then x >>= f else f ⟨⟩) :=
  .ite (fun _ => .bind hx fun _ => hf) fun _ => hf

/-- A computation that has all of the machine at hand. -/
theorem get_bind {f : Machine → EStateM ε Machine β}
    (hf : ∀ c m, Ready c m → A m.thread.cursor.source → Ended c m (f m m)) :
    Quiet A (get >>= f) :=
  fun c m hm hs => hf c m hm hs

/-- A computation that has the place of the current token at hand, where it can come back to. -/
theorem capture_bind {f : Position → EStateM ε Machine β}
    (hf : ∀ p, Quiet (fun s => A s ∧ s.Marks p) (f p)) : Quiet A (Eval.capture >>= f) :=
  fun c m hm hs => hf _ c m hm ⟨hs, hm.sound.capture⟩

end Quiet

/-- A look at the machine that raises or gives what is as `Q` says. -/
def Yields (Q : Machine → α → Prop) (x : Eval α) : Prop :=
  ∀ m, (∃ a, x m = .ok a m ∧ Q m a) ∨ ∃ r, x m = .error (.raised r) m

namespace Yields

variable {A : Source → Prop} {Q : Machine → α → Prop}

theorem bind {x : Eval α} {f : α → Eval β} (hx : Yields Q x)
    (hf : ∀ c m a, Ready c m → A m.thread.cursor.source → Q m a → Ended c m (f a m)) :
    Quiet A (x >>= f) := by
  intro c m hm hs
  show Ended c m (EStateM.bind x f m)
  unfold EStateM.bind
  obtain ⟨a, ha, hq⟩ | ⟨r, hr⟩ := hx m
  · rw [ha]
    exact hf c m a hm hs hq
  · rw [hr]
    exact Settles.refl hm.sound

theorem mapM {f : β → Eval α} (hf : ∀ b, Yields Q (f b)) (l : List β) :
    Yields (fun m as => ∀ a ∈ as, Q m a) (l.mapM f) := by
  induction l with
  | nil => exact fun m => .inl ⟨[], rfl, by simp⟩
  | cons b l ih =>
    intro m
    rw [List.mapM_cons]
    obtain ⟨a, ha, hq⟩ | ⟨r, hr⟩ := hf b m
    · obtain ⟨as, has, hqs⟩ | ⟨r, hr⟩ := ih m
      · refine .inl ⟨a :: as, ?_, List.forall_mem_cons.2 ⟨hq, hqs⟩⟩
        simp only [Bind.bind, EStateM.bind, ha, has]
        rfl
      · refine .inr ⟨r, ?_⟩
        simp only [Bind.bind, EStateM.bind, ha, hr]
    · refine .inr ⟨r, ?_⟩
      simp only [Bind.bind, EStateM.bind, hr]

end Yields

/-! ### Reading -/

/-- What is read of a source may be unreadable, but nothing else is wrong with it. -/
def Reads (x : Except Failure α) : Prop := ∀ f, x = .error f → (Fault.failure f).Plain

namespace Reads

theorem ok (a : α) : Reads (.ok a) := by
  intro f h
  contradiction

theorem error {f : Failure} (hf : (Fault.failure f).Plain) :
    Reads (.error f : Except Failure α) := by
  intro g hg
  obtain rfl := Except.error.inj hg
  exact hf

end Reads

theorem reads_bump (c : Cursor) : Reads c.bump := by
  unfold Cursor.bump
  split
  · exact .error trivial
  · exact .ok _

theorem reads_peek (c : Cursor) : Reads c.peek := by
  unfold Cursor.peek
  split
  · exact .error trivial
  · exact .ok _

theorem reads_advance (wanted : TokenKind) (c : Cursor) : Reads (c.advance wanted) := by
  unfold Cursor.advance
  split
  · exact reads_bump c
  · exact .error trivial

theorem reads_at? {source : Source} {p : Position} (hp : source.Marks p) :
    Reads (Cursor.at? source p) := by
  obtain ⟨t, rest, ht, rfl⟩ := hp
  rw [Cursor.at?_eq ht]
  exact .ok _

theorem reads_rewind {p : Position} {c : Cursor} (hp : c.source.Marks p) : Reads (c.rewind p) := by
  obtain ⟨t, rest, ht, rfl⟩ := hp
  rw [Cursor.rewind_eq ht]
  exact .ok _

theorem reads_skipColons (c : Cursor) : Reads c.skipColons := by
  fun_induction Cursor.skipColons c with
  | case1 c hk failure hb => exact .error (reads_bump c failure hb)
  | case2 => exact .ok _
  | case3 _ _ _ _ _ _ ih => exact ih
  | case4 => exact .ok _

theorem reads_skipBody (column depth : Nat) (c : Cursor) : Reads (c.skipBody column depth) := by
  fun_induction Cursor.skipBody column depth c with
  | case1 => exact .ok _
  | case2 => exact .ok _
  | case3 depth c _ _ failure hb => exact .error (reads_bump c failure hb)
  | case4 => exact .ok _
  | case5 _ _ _ _ _ _ _ _ _ ih => exact ih

theorem reads_conditionalFrom (depth : Nat) (t : Token) (behind : List Char) :
    Reads (Cursor.conditionalFrom depth t behind) := by
  fun_induction Cursor.conditionalFrom depth t behind with
  | case5 => exact .error trivial
  | case8 _ _ _ _ _ _ _ _ _ _ _ _ _ _ ih => exact ih
  | _ => exact .ok _

/-! ### Failures -/

namespace Eval

variable {A : Source → Prop}

theorem quiet_exhausted : Quiet A (exhausted : Run α) := by
  refine .stop _ (by simp [Stops.interrupt]) fun f hf => ?_
  obtain rfl := Interrupt.fault.inj hf
  trivial

theorem quiet_fail (f : Failure) (hf : (Fault.failure f).Plain) :
    Quiet A (fail f : Run α) := by
  refine .stop _ (by simp [Stops.interrupt]) fun g hg => ?_
  obtain rfl := Interrupt.fault.inj hg
  exact hf

theorem quiet_malformed (issue : SyntaxIssue) (site : Token) :
    Quiet A (malformed issue site : Run α) := quiet_fail _ (by trivial)

theorem quiet_complain (complaint : Complaint) (site : Token) :
    Quiet A (complain complaint site : Eval α) :=
  .stop _ (by simp [Stops.interrupt]) (by simp [Stops.interrupt])

theorem quiet_orComplain (site : Token) (x : Except Complaint α) :
    Quiet A (orComplain site x) := by
  cases x with
  | ok a => exact .pure a
  | error c => exact quiet_complain c site

/-! ### The world -/

/-- Any change of the world in which no coroutine takes part and functions are only added. -/
theorem quiet_onWorld {f : World → α × World} (hc : ∀ w : World, (f w).2.coroutines = w.coroutines)
    (hl : ∀ w : World, (f w).2.loop = w.loop) (hf : ∀ w : World, w.AddsFunctions (f w).2) :
    Quiet A (onWorld f : EStateM ε Machine α) := by
  intro c m hm _
  refine ⟨.of_thread ⟨⟨rfl, rfl, rfl, rfl, rfl, rfl⟩, rfl, rfl⟩ rfl hm.sound, ?_⟩
  exact .act (.compute hm.goesOn (hc m.world) (hl m.world) (hf m.world))
    (congrArg Arena.size (hc m.world))

/-- A change of the world that leaves functions, coroutines and the loop alone. -/
theorem quiet_onWorld_of_same {f : World → α × World}
    (hc : ∀ w : World, (f w).2.coroutines = w.coroutines) (hl : ∀ w : World, (f w).2.loop = w.loop)
    (hf : ∀ w : World, (f w).2.functions = w.functions) : Quiet A (onWorld f : EStateM ε Machine α) :=
  quiet_onWorld hc hl fun w => .of_same (hf w)

theorem quiet_ask (f : World → α) : Quiet A (ask f : EStateM ε Machine α) :=
  .read fun m => f m.world

theorem quiet_onHeap (f : StateM Heap α) : Quiet A (onHeap f : EStateM ε Machine α) :=
  quiet_onWorld_of_same (fun _ => rfl) (fun _ => rfl) fun _ => rfl

theorem quiet_modifyScopes (f : Scopes → Scopes) :
    Quiet A (modifyScopes f : EStateM ε Machine Unit) := by
  unfold modifyScopes modifyWorld
  exact quiet_onWorld_of_same (fun _ => rfl) (fun _ => rfl) fun _ => rfl

theorem quiet_own (h : Held) : Quiet A (own h : EStateM ε Machine Value) := quiet_onHeap _

theorem quiet_truthy (h : Held) : Quiet A (truthy h : EStateM ε Machine Bool) := quiet_ask _

theorem addsFunctions_push (w : World) {f : Function} (hf : f.Sound) :
    w.AddsFunctions { w with functions := w.functions.push f } :=
  ⟨[f], by simp [Arena.push], by simpa using hf⟩

theorem sound_native (name : String) (native : Native) :
    Function.Sound ⟨name, .native native⟩ := by
  intro body h
  contradiction

theorem quiet_newFunction {f : Function} (hf : f.Sound) :
    Quiet A (newFunction f : EStateM ε Machine Value) :=
  quiet_onWorld (fun _ => rfl) (fun _ => rfl) fun w => addsFunctions_push w hf

theorem quiet_newMethod (b : Method) : Quiet A (newMethod b : EStateM ε Machine Value) :=
  quiet_onWorld_of_same (fun _ => rfl) (fun _ => rfl) fun _ => rfl

theorem quiet_newScope (parent : Option (Ref .scope)) :
    Quiet A (newScope parent : EStateM ε Machine (Ref .scope)) :=
  quiet_onWorld_of_same (fun _ => rfl) (fun _ => rfl) fun _ => rfl

/-- A change of what evaluation neither keeps nor reads. -/
theorem quiet_modify {f : Machine → Machine} (hs : ∀ m, Steady m (f m))
    (ht : ∀ m, (f m).thread = m.thread) (hw : ∀ m, (f m).world = m.world) :
    Quiet A (modify f : EStateM ε Machine Unit) := by
  intro c m hm _
  refine ⟨.of_thread (hs m) (ht m) hm.sound, ?_⟩
  show Proceeds ⟨c, m.world⟩ ⟨c, (f m).world⟩
  rw [hw]
  exact .refl _

theorem quiet_emit (text : String) : Quiet A (emit text : EStateM ε Machine Unit) :=
  quiet_modify (fun _ => ⟨⟨rfl, rfl, rfl, rfl, rfl, rfl⟩, rfl, rfl⟩) (fun _ => rfl) fun _ => rfl

theorem ended_newCoroutine (name : String) {kind : CoroutineKind} (scope : Option (Ref .scope))
    {c : Control} {m : Machine} (hm : Ready c m) (hk : m.world.Admits kind)
    (hw : m.world.Mans kind) (hs : (∃ f owner, kind = .script f owner) → scope ≠ none) :
    Ended c m ((newCoroutine name kind scope : EStateM ε Machine (Ref .coroutine)) m) :=
  ⟨.of_thread ⟨⟨rfl, rfl, rfl, rfl, rfl, rfl⟩, rfl, rfl⟩ rfl hm.sound,
    .create (m.coroutines + 1) name hm.goesOn hk hw hs⟩

theorem quiet_newCoroutine (name : String) {kind : CoroutineKind} {scope : Option (Ref .scope)}
    (hk : ∀ w : World, w.Admits kind) (hw : ∀ w : World, w.Mans kind)
    (hs : (∃ f owner, kind = .script f owner) → scope ≠ none) :
    Quiet A (newCoroutine name kind scope : EStateM ε Machine (Ref .coroutine)) :=
  fun _ m hm _ => ended_newCoroutine name scope hm (hk m.world) (hw m.world) hs

/-! ### Wrappers -/

/-- A computation that is run on the machine `inner` in place of `m`, and whose machine is put
right by `leave` afterwards. -/
theorem Ended.around {c : Control} {m : Machine} (inner : Machine) (leave : Machine → Machine)
    (hsettled : ∀ {m'}, Settled inner m' → Settled m (leave m'))
    (hsteady : ∀ {m'}, Steady inner m' → Steady m (leave m'))
    (hmode : inner.thread.mode.inAsync = true → m.thread.mode.inAsync = true)
    (htape : ∀ m', (leave m').thread.tape = m'.thread.tape) (hw : inner.world = m.world)
    (hl : ∀ m', (leave m').world = m'.world) (ho : ∀ m', (leave m').output = m'.output)
    {r s : EStateM.Result ε Machine α}
    (hok : ∀ {a m'}, r = .ok a m' → s = .ok a (leave m'))
    (herr : ∀ {e m'}, r = .error e m' → s = .error e (leave m')) (h : Ended c inner r) :
    Ended c m s := by
  -- the world is the same before and behind, so the session's steps are
  have steps {c c' : Control} {m' : Machine} (h : Proceeds (inner.situation c) (m'.situation c')) :
      Proceeds (m.situation c) ((leave m').situation c') := by
    simp only [Machine.situation, hw, hl] at h ⊢
    exact h
  cases r with
  | ok a m' =>
    rw [hok rfl]
    exact ⟨hsettled h.1, steps h.2⟩
  | error e m' =>
    rw [herr rfl]
    simp only [Ended] at h ⊢
    split at h
    · exact ⟨hsettled h.1, steps h.2⟩
    · obtain ⟨r, rfl, hm, hs, ht, hw'⟩ := h
      exact ⟨r, rfl, hmode hm, hsettled hs, by rw [htape, ht], steps hw'⟩
    · have same : inner.situation c = m.situation c := congrArg (Situation.mk c) hw
      exact ⟨hsteady h.1, steps h.2.1, same ▸ h.2.2.unwind (.of_world (ho m') (hl m'))⟩

/-- What is held meanwhile makes no difference. -/
theorem ended_pinning (p : Pin) {x : EStateM ε Machine α} {c : Control} {m : Machine}
    (h : Ended c { m with pinned := p :: m.pinned } (x { m with pinned := p :: m.pinned })) :
    Ended c m (pinning p x m) := by
  have steady {m' : Machine} (h : Steady { m with pinned := p :: m.pinned } m') :
      Steady m { m' with pinned := m.pinned } :=
    ⟨⟨rfl, h.environment, h.globals, h.directory, h.callDepth, h.weaving⟩, h.task, h.driven⟩
  refine Ended.around { m with pinned := p :: m.pinned } (fun m' => { m' with pinned := m.pinned })
    (fun h => ?_) steady id (fun _ => rfl) rfl (fun _ => rfl) (fun _ => rfl)
    (fun h => by simp only [pinning, h])
    (fun h => by simp only [pinning, h]) h
  exact ⟨steady h.toSteady, h.scope, h.mode, h.skip, h.resume, h.parked, h.parking, h.source,
    h.sound, h.tape⟩

theorem quiet_pinning (p : Pin) {x : EStateM ε Machine α} (hx : Quiet A x) :
    Quiet A (pinning p x) :=
  fun c _ hm hs => ended_pinning p (hx c _ (hm.pin p) hs)

theorem quiet_holding (vs : List Value) {x : EStateM ε Machine α} (hx : Quiet A x) :
    Quiet A (holding vs x) := quiet_pinning _ hx

theorem quiet_skipping {x : EStateM ε Machine α} (hx : Quiet A x) : Quiet A (skipping x) := by
  intro c m hm hs
  have steady {m' : Machine}
      (h : Steady { m with thread := { m.thread with skip := m.thread.skip + 1 } } m') :
      Steady m { m' with thread := { m'.thread with skip := m'.thread.skip - 1 } } :=
    ⟨⟨h.pinned, h.environment, h.globals, h.directory, h.callDepth, h.weaving⟩, h.task, h.driven⟩
  refine Ended.around { m with thread := { m.thread with skip := m.thread.skip + 1 } }
    (fun m' => { m' with thread := { m'.thread with skip := m'.thread.skip - 1 } })
    (fun h => ?_) steady id (fun _ => rfl) rfl (fun _ => rfl) (fun _ => rfl)
    (fun h => by simp only [skipping, h])
    (fun h => by simp only [skipping, h])
    (hx c _ ⟨hm.sound, hm.world, hm.acts, hm.weaving, hm.driven, hm.async⟩ hs)
  exact ⟨steady h.toSteady, h.scope, h.mode, by simp [h.skip], h.resume, h.parked, h.parking,
    h.source, h.sound, h.tape⟩

/-! ### The thread and the cursor -/

theorem quiet_isSkipping : Quiet A (isSkipping : EStateM ε Machine Bool) := .read _

theorem quiet_mode : Quiet A (mode : EStateM ε Machine Mode) := .read _

theorem quiet_scope : Quiet A (scope : EStateM ε Machine (Ref .scope)) := .read _

theorem quiet_current : Quiet A (current : EStateM ε Machine Token) := .read _

theorem quiet_kind : Quiet A (kind : EStateM ε Machine TokenKind) := .read _

/-- A move of the cursor to another token of its source. -/
theorem quiet_move {f : Cursor → Except Failure Cursor}
    (hf : ∀ {c d : Cursor}, c.Sound → A c.source → f c = .ok d → d.Sound ∧ d.source = c.source)
    (hr : ∀ c : Cursor, A c.source → Reads (f c)) : Quiet A (move f) := by
  intro c m hm hs
  unfold move
  cases h : f m.thread.cursor with
  | error failure => exact (Settles.refl hm.sound).breaks_self (hr _ hs _ h)
  | ok d =>
    obtain ⟨hd, he⟩ := hf hm.sound hs h
    exact ⟨⟨⟨⟨rfl, rfl, rfl, rfl, rfl, rfl⟩, rfl, rfl⟩, rfl, rfl, rfl, rfl, rfl, rfl, he, hd, .refl⟩,
      .refl _⟩

theorem quiet_bump : Quiet A bump :=
  .bind quiet_current fun _ =>
    .bind (quiet_move (fun hc _ => Cursor.sound_bump hc) fun c _ => reads_bump c) fun _ => .pure _

theorem quiet_advance (wanted : TokenKind) : Quiet A (advance wanted) :=
  .bind quiet_current fun _ =>
    .bind (quiet_move (fun hc _ => Cursor.sound_advance hc) fun c _ => reads_advance wanted c) fun _ => .pure _

theorem quiet_rewind (p : Position) : Quiet (fun s => A s ∧ s.Marks p) (rewind p) :=
  quiet_move (fun _ hs => Cursor.sound_rewind hs.2) fun _ hs => reads_rewind hs.2

theorem quiet_skipColons : Quiet A (move Cursor.skipColons) :=
  quiet_move (fun hc _ => Cursor.sound_skipColons hc) fun c _ => reads_skipColons c

theorem quiet_skipBody (column : Nat) : Quiet A (skipBody column) :=
  quiet_move (fun hc _ => Cursor.sound_skipBody hc) fun c _ => reads_skipBody column 0 c

theorem quiet_skipOver (k : TokenKind) : Quiet A (skipOver k) := by
  refine .bind quiet_kind fun _ => .ite (fun _ => ?_) fun _ => .pure _
  exact .bind quiet_bump fun _ => .pure _

theorem quiet_endStatement : Quiet A endStatement :=
  .bind (quiet_skipOver .colon) fun _ => .pure _

theorem quiet_enterBlock (column : Nat) : Quiet A (enterBlock column) := by
  refine .bind (quiet_advance .colon) fun _ => .bind quiet_current fun _ => ?_
  refine .ite (fun _ => .bind (quiet_malformed _ _) fun _ => ?_) fun _ => ?_
  all_goals exact .ite (fun _ => quiet_malformed _ _) fun _ => .pure _

/-! ### Names -/

theorem quiet_dissolve (roots : List Cell) :
    Quiet A (modifyWorld (·.dissolve roots) : EStateM ε Machine Unit) :=
  quiet_onWorld_of_same (fun _ => rfl) (fun _ => rfl) fun _ => rfl

theorem quiet_resolve (name : String) :
    Quiet A (resolve name : EStateM ε Machine (Option (Ref .scope))) := by
  refine .bind quiet_scope fun r => .bind (quiet_ask _) fun found => ?_
  split
  · exact .pure _
  · refine .bind (quiet_ask _) fun b => ?_
    split
    · exact .pure _
    · refine .bind quiet_mode fun mode => .bind (quiet_ask _) fun inUse => .ite (fun _ => .pure _) fun _ => ?_
      refine .get_bind fun c m hm hs => ?_
      refine (Quiet.bind (quiet_ask _) fun reached => .ite (fun _ => .pure _) fun _ => ?_) c m hm hs
      exact .bind (quiet_dissolve _) fun _ => quiet_ask _

theorem quiet_lookup (name : String) : Quiet A (lookup name : EStateM ε Machine (Option Value)) := by
  refine .bind (quiet_resolve name) fun r => ?_
  split
  · exact quiet_ask _
  · exact .pure _

theorem quiet_assign (name : String) (v : Value) :
    Quiet A (assign name v : EStateM ε Machine Unit) :=
  .bind (quiet_holding _ (quiet_resolve name)) fun _ => .bind quiet_scope fun _ =>
    quiet_modifyScopes _

theorem quiet_define (name : String) (v : Value) :
    Quiet A (define name v : EStateM ε Machine Unit) :=
  .bind quiet_scope fun _ => quiet_modifyScopes _

/-! ### Lists -/

theorem quiet_mapM {f : α → EStateM ε Machine β} (hf : ∀ a, Quiet A (f a)) (l : List α) :
    Quiet A (l.mapM f) := by
  induction l with
  | nil => exact .pure _
  | cons a l ih =>
    rw [List.mapM_cons]
    exact .bind (hf a) fun _ => .bind ih fun _ => .pure _

theorem quiet_foldlM {f : β → α → EStateM ε Machine β} (hf : ∀ b a, Quiet A (f b a)) (b : β)
    (l : List α) : Quiet A (l.foldlM f b) := by
  induction l generalizing b with
  | nil => exact .pure _
  | cons a l ih =>
    rw [List.foldlM_cons]
    exact .bind (hf b a) fun b => ih b

end Eval

end Rewind
