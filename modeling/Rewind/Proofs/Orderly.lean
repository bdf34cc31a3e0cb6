/-
Evaluation of statements and bodies.

A statement leaves its thread as it found it too, but it may take up frames of the coroutine it
belongs to, and it may yield.  Then it has parked a chain of frames that leads to the very statement
that was suspended, and the coroutine waits.

* `Passed` — what a statement leaves as it was;
* `Halted` — the innermost frame is that of a statement which suspended and left the machine so;
* `Parks` — a body has yielded;
* `Orderly` — the property of bodies and constructs; `Orderly.bind`, `Orderly.body`, … keep it.
-/
import Rewind.Eval.Engine
import Rewind.Proofs.Quiet

namespace Rewind

open Eval

/-! ### How a statement ends -/

/-- What a statement leaves as it was.  Of the frames to be resumed it may have taken some. -/
structure Passed (m m' : Machine) : Prop extends Steady m m' where
  mode : m'.thread.mode = m.thread.mode
  skip : m'.thread.skip = m.thread.skip
  parked : m'.thread.parked = m.thread.parked
  parking : m'.thread.parking = m.thread.parking
  source : m'.thread.cursor.source = m.thread.cursor.source
  sound : m'.thread.cursor.Sound
  resume : m'.thread.resume <:+ m.thread.resume

theorem Settled.passed {m m' : Machine} (h : Settled m m') : Passed m m' :=
  ⟨h.toSteady, h.mode, h.skip, h.parked, h.parking, h.source, h.sound,
    h.resume ▸ List.suffix_refl _⟩

theorem Passed.trans {m₁ m₂ m₃ : Machine} (h : Passed m₁ m₂) (h' : Passed m₂ m₃) : Passed m₁ m₃ :=
  ⟨h.toSteady.trans h'.toSteady, h'.mode.trans h.mode, h'.skip.trans h.skip,
    h'.parked.trans h.parked, h'.parking.trans h.parking, h'.source.trans h.source, h'.sound,
    h'.resume.trans h.resume⟩

/-- The last of the frames belongs to a statement that has just suspended, in the scope, with the
tape and in the world that the machine `m` has. -/
def Halted (frames : List Frame) (m : Machine) : Prop :=
  ∃ fuel n m₁ m₂, enter (jobs fuel) n m₁.thread.cursor.capture m₁ = .error .suspended m₂ ∧
    frames.getLast? = some ⟨m₁.thread.cursor.capture, .simple⟩ ∧
    m₂.thread.scope = m.thread.scope ∧ m₂.thread.tape = m.thread.tape ∧ m₂.world = m.world

/-- A body of the coroutine `r` that began in `m` has yielded and parked `frames`. -/
structure Parked (r : Ref .coroutine) (frames : List Frame) (m m' : Machine) : Prop
    extends Steady m m' where
  async : m.thread.mode.inAsync = true
  mode : m'.thread.mode = m.thread.mode
  skip : m'.thread.skip = m.thread.skip
  source : m'.thread.cursor.source = m.thread.cursor.source
  sound : m'.thread.cursor.Sound
  parked : m'.thread.parked = frames ++ m.thread.parked
  chain : Chain m.thread.cursor.source frames
  halted : Halted frames m'
  tape : m'.thread.tape.replaying = false

/-- A statement or body is over, normally or with a signal. -/
def Passes (c : Control) (m m' : Machine) : Prop :=
  Passed m m' ∧ Proceeds (m.situation c) (m'.situation c)

/-- A statement has suspended. -/
def Pauses (c : Control) (m m' : Machine) : Prop :=
  ∃ r, c = .turn r ∧ m.thread.mode.inAsync = true ∧ Passed m m' ∧
    m'.thread.tape.replaying = false ∧ Proceeds (m.situation (.turn r)) (m'.situation (.waiting r))

/-- A body has yielded. -/
def Parks (c : Control) (m m' : Machine) : Prop :=
  ∃ r frames, c = .turn r ∧ Parked r frames m m' ∧
    Proceeds (m.situation (.turn r)) (m'.situation (.waiting r))

/-- A construct that has yielded asks for a frame it can be re-entered from. -/
def Asks (m : Machine) : Prop :=
  ∃ kind, m.thread.parking = some kind ∧ kind ≠ .simple ∧ kind.Marked m.thread.cursor.source

theorem Settles.passes {c : Control} {m m' : Machine} (h : Settles c m m') : Passes c m m' :=
  ⟨h.1.passed, h.2⟩

theorem Suspends.pauses {c : Control} {m m' : Machine} (h : Suspends c m m') : Pauses c m m' := by
  obtain ⟨r, hr, hm, hs, ht, hw⟩ := h
  exact ⟨r, hr, hm, hs.passed, ht, hw⟩

theorem Passes.trans {c : Control} {m₁ m₂ m₃ : Machine} (h : Passes c m₁ m₂)
    (h' : Passes c m₂ m₃) : Passes c m₁ m₃ :=
  ⟨h.1.trans h'.1, h.2.trans h'.2 id⟩

theorem Passes.pauses {c : Control} {m₁ m₂ m₃ : Machine} (h : Passes c m₁ m₂)
    (h' : Pauses c m₂ m₃) : Pauses c m₁ m₃ := by
  obtain ⟨r, rfl, hm, hs, ht, hw⟩ := h'
  exact ⟨r, rfl, h.1.mode ▸ hm, h.1.trans hs, ht, h.2.trans hw id⟩

theorem Passes.breaks {c : Control} {f : Fault} {m₁ m₂ m₃ : Machine} (h : Passes c m₁ m₂)
    (h' : Breaks c f m₂ m₃) : Breaks c f m₁ m₃ :=
  ⟨h.1.toSteady.trans h'.1, h.2.trans h'.2.1 id, h'.2.2.back h.2.steps id h.2.manned⟩

theorem Passes.parks {c : Control} {m₁ m₂ m₃ : Machine} (h : Passes c m₁ m₂)
    (h' : Parks c m₂ m₃) : Parks c m₁ m₃ := by
  obtain ⟨r, frames, rfl, hp, hw⟩ := h'
  refine ⟨r, frames, rfl, ?_, h.2.trans hw id⟩
  exact ⟨h.1.toSteady.trans hp.toSteady, h.1.mode ▸ hp.async, hp.mode.trans h.1.mode,
    hp.skip.trans h.1.skip, hp.source.trans h.1.source, hp.sound, h.1.parked ▸ hp.parked,
    h.1.source ▸ hp.chain, hp.halted, hp.tape⟩

theorem Ready.passes {c : Control} {m m' : Machine} (h : Ready c m) (hs : Passes c m m') :
    Ready c m' := by
  refine ⟨hs.1.sound, hs.2.steps.sound h.world, h.acts, ?_, ?_, ?_⟩
  · rw [hs.1.weaving]; exact h.weaving
  · rw [hs.1.driven, hs.1.task]; exact h.driven
  · rw [hs.1.mode, hs.1.driven]; exact h.async

/-! ### Frames to be resumed -/

/-- What the thread has to resume is a chain of frames in its source, if it is anything. -/
def Resumable (m : Machine) : Prop :=
  m.thread.resume = [] ∨ Chain m.thread.cursor.source m.thread.resume

theorem Chain.suffix {s : Source} {frames rest : List Frame} (h : Chain s frames)
    (hr : rest <:+ frames) : rest = [] ∨ Chain s rest := by
  induction h with
  | simple hs =>
    obtain rfl | hr := List.suffix_cons_iff.1 hr
    · exact .inr (.simple hs)
    · exact .inl (List.suffix_nil.1 hr)
  | construct hs hk hm hrest ih =>
    obtain rfl | hr := List.suffix_cons_iff.1 hr
    · exact .inr (.construct hs hk hm hrest)
    · exact ih hr

theorem Resumable.passed {m m' : Machine} (h : Resumable m) (hp : Passed m m') : Resumable m' := by
  unfold Resumable
  rw [hp.source]
  obtain hn | hc := h
  · exact .inl (List.suffix_nil.1 (hn ▸ hp.resume))
  · exact hc.suffix hp.resume

/-! ### Orderly computations -/

variable {ε : Type} [Stops ε]

/-- A statement or body that began in the machine `m` while `c` acts ended as it should; a
construct, if it has yielded, asks for a frame. -/
def Carried (construct : Bool) (c : Control) (m : Machine) :
    EStateM.Result ε Machine Status → Prop
  | .ok .yielded m' => Parks c m m' ∧ (construct = true → Asks m')
  | .ok _ m' => Passes c m m'
  | .error e m' =>
    match Stops.interrupt e with
    | .raised _ => Passes c m m'
    | .suspended => Pauses c m m'
    | .fault f => Breaks c f m m'

/-- Wherever a machine is ready, with frames that can be resumed and a source as `A` says, the
computation ends as it should. -/
def Orderly (construct : Bool) (A : Source → Prop) (x : EStateM ε Machine Status) : Prop :=
  ∀ c m, Ready c m → Resumable m → A m.thread.cursor.source → Carried construct c m (x m)

theorem Carried.trans {b : Bool} {c : Control} {m₁ m₂ : Machine} (h : Passes c m₁ m₂)
    {r : EStateM.Result ε Machine Status} (hr : Carried b c m₂ r) : Carried b c m₁ r := by
  cases r with
  | ok status m₃ =>
    cases status with
    | yielded => exact ⟨h.parks hr.1, hr.2⟩
    | normal => exact h.trans hr
    | leaving signal => exact h.trans hr
  | error e m₃ =>
    simp only [Carried] at hr ⊢
    split at hr
    · exact h.trans hr
    · exact h.pauses hr
    · exact h.breaks hr

/-- A part of a statement that began in the machine `m` while `c` acts ended as it should. -/
def PassedOn {α : Type} (c : Control) (m : Machine) : EStateM.Result ε Machine α → Prop
  | .ok _ m' => Passes c m m'
  | .error e m' =>
    match Stops.interrupt e with
    | .raised _ => Passes c m m'
    | .suspended => Pauses c m m'
    | .fault f => Breaks c f m m'

/-- Wherever a machine is ready and its source is as `A` says, the part of a statement ends as it
should.  Unlike an expression it may change the scope and drop the tape. -/
def Passing {α : Type} (A : Source → Prop) (x : EStateM ε Machine α) : Prop :=
  ∀ c m, Ready c m → A m.thread.cursor.source → PassedOn c m (x m)

theorem Ended.passedOn {α : Type} {c : Control} {m : Machine} {r : EStateM.Result ε Machine α}
    (h : Ended c m r) : PassedOn c m r := by
  cases r with
  | ok a m' => exact Settles.passes h
  | error e m' =>
    simp only [Ended] at h
    simp only [PassedOn]
    cases hi : Stops.interrupt e with
    | raised r => rw [hi] at h; exact Settles.passes h
    | suspended => rw [hi] at h; exact Suspends.pauses h
    | fault f => rw [hi] at h; exact h

theorem Quiet.passing {α : Type} {A : Source → Prop} {x : EStateM ε Machine α} (h : Quiet A x) :
    Passing A x :=
  fun c m hm hs => (h c m hm hs).passedOn

theorem PassedOn.trans {α : Type} {c : Control} {m₁ m₂ : Machine} (h : Passes c m₁ m₂)
    {r : EStateM.Result ε Machine α} (hr : PassedOn c m₂ r) : PassedOn c m₁ r := by
  cases r with
  | ok a m₃ => exact h.trans hr
  | error e m₃ =>
    simp only [PassedOn] at hr ⊢
    split at hr
    · exact h.trans hr
    · exact h.pauses hr
    · exact h.breaks hr

theorem Passing.bind {α β : Type} {A : Source → Prop} {x : EStateM ε Machine α}
    {f : α → EStateM ε Machine β} (hx : Passing A x) (hf : ∀ a, Passing A (f a)) :
    Passing A (x >>= f) := by
  intro c m hm hs
  have h := hx c m hm hs
  show PassedOn c m (EStateM.bind x f m)
  unfold EStateM.bind
  cases hr : x m with
  | ok a m₁ =>
    rw [hr] at h
    refine .trans h (hf a c m₁ (hm.passes h) ?_)
    rw [h.1.source]
    exact hs
  | error e m₁ =>
    rw [hr] at h
    exact h

/-- A statement is stopped by whatever stops a part of it. -/
theorem PassedOn.carried {α : Type} {b : Bool} {c : Control} {m m' : Machine} {e : ε}
    (h : PassedOn c m (.error e m' : EStateM.Result ε Machine α)) :
    Carried b c m (.error e m' : EStateM.Result ε Machine Status) := h

namespace Orderly

variable {b : Bool} {A : Source → Prop} {α : Type}

theorem after {x : EStateM ε Machine α} {f : α → EStateM ε Machine Status} (hx : Passing A x)
    (hf : ∀ a, Orderly b A (f a)) : Orderly b A (x >>= f) := by
  intro c m hm hr hs
  have h := hx c m hm hs
  show Carried b c m (EStateM.bind x f m)
  unfold EStateM.bind
  cases hx : x m with
  | ok a m₁ =>
    rw [hx] at h
    refine .trans h (hf a c m₁ (hm.passes h) (hr.passed h.1) ?_)
    rw [h.1.source]
    exact hs
  | error e m₁ =>
    rw [hx] at h
    exact h.carried

theorem bind {x : EStateM ε Machine α} {f : α → EStateM ε Machine Status} (hx : Quiet A x)
    (hf : ∀ a, Orderly b A (f a)) : Orderly b A (x >>= f) := after hx.passing hf

theorem pure {status : Status} (h : status ≠ .yielded) :
    Orderly b A (Pure.pure status : EStateM ε Machine Status) := by
  intro c m hm _ _
  cases status with
  | yielded => contradiction
  | normal => exact (Settles.refl hm.sound).passes
  | leaving signal => exact (Settles.refl hm.sound).passes

/-- A quiet computation that ends in no status at all, but raises or fails. -/
theorem stop {x : EStateM ε Machine Status} (hx : Quiet A x) (h : ∀ m s m', x m ≠ .ok s m') :
    Orderly b A x := by
  intro c m hm _ hs
  have hq := hx c m hm hs
  cases hr : x m with
  | ok s m₁ => exact absurd hr (h m s m₁)
  | error e m₁ =>
    rw [hr] at hq
    exact hq.passedOn.carried

theorem weaken {B : Source → Prop} {x : EStateM ε Machine Status} (h : Orderly b A x)
    (hA : ∀ s, B s → A s) : Orderly b B x :=
  fun c m hm hr hs => h c m hm hr (hA _ hs)

theorem lift {x : Run Status} (hx : Orderly b A x) : Orderly b A (liftM x : Eval Status) := by
  intro c m hm hr hs
  have h := hx c m hm hr hs
  rw [Quiet.run_lift]
  cases hx : x m with
  | ok status m₁ =>
    rw [hx] at h
    cases status <;> exact h
  | error f m₁ =>
    rw [hx] at h
    exact h

theorem ite {p : Prop} [Decidable p] {x y : EStateM ε Machine Status} (hx : p → Orderly b A x)
    (hy : ¬ p → Orderly b A y) : Orderly b A (if p then x else y) := by
  split
  · exact hx ‹_›
  · exact hy ‹_›

theorem get_bind {f : Machine → EStateM ε Machine Status}
    (hf : ∀ c m, Ready c m → Resumable m → A m.thread.cursor.source → Carried b c m (f m m)) :
    Orderly b A (get >>= f) :=
  fun c m hm hr hs => hf c m hm hr hs

theorem capture_bind {f : Position → EStateM ε Machine Status}
    (hf : ∀ p, Orderly b (fun s => A s ∧ s.Marks p) (f p)) : Orderly b A (capture >>= f) :=
  fun c m hm hr hs => hf _ c m hm hr ⟨hs, hm.sound.capture⟩

/-- What follows a body: if it has yielded, the construct asks for a frame of a kind that fits its
source; if not, it goes on. -/
theorem body {x : Eval Status} {f : Status → Eval Status} (kind : FrameKind)
    (hx : Orderly false A x) (hy : f .yielded = park kind) (hk : kind ≠ .simple)
    (hA : ∀ s, A s → kind.Marked s) (hf : ∀ s, s ≠ .yielded → Orderly true A (f s)) :
    Orderly true A (x >>= f) := by
  intro c m hm hr hs
  have h := hx c m hm hr hs
  show Carried true c m (EStateM.bind x f m)
  unfold EStateM.bind
  have next {status : Status} {m₁ : Machine} (hp : Passes c m m₁) (hn : status ≠ .yielded) :
      Carried true c m (f status m₁) := by
    refine .trans hp (hf status hn c m₁ (hm.passes hp) (hr.passed hp.1) ?_)
    rw [hp.1.source]
    exact hs
  cases hx : x m with
  | ok status m₁ =>
    rw [hx] at h
    cases status with
    | yielded =>
      obtain ⟨⟨r, frames, hc, hp, hw⟩, -⟩ := h
      show Carried true c m (f .yielded m₁)
      -- the frame that the statement parks is marked in the source that the body was read from
      rw [hy]
      refine ⟨⟨r, frames, hc, ?_, hw⟩, fun _ => ⟨kind, rfl, hk, ?_⟩⟩
      · exact ⟨hp.toSteady.withThread rfl rfl, hp.async, hp.mode, hp.skip, hp.source, hp.sound, hp.parked, hp.chain,
          hp.halted, hp.tape⟩
      · rw [show _ = m.thread.cursor.source from hp.source]
        exact hA _ hs
    | normal => exact next h (by simp)
    | leaving signal => exact next h (by simp)
  | error e m₁ =>
    rw [hx] at h
    exact h

end Orderly

/-! ### Wrappers -/

/-- A statement that is run on the machine `inner` in place of `m`, and whose machine is put right
by `leave` afterwards. -/
theorem Carried.around {b : Bool} {c : Control} {m : Machine} (inner : Machine)
    (leave : Machine → Machine) (hpassed : ∀ {m'}, Passed inner m' → Passed m (leave m'))
    (hparked : ∀ {r frames m'}, Parked r frames inner m' → Parked r frames m (leave m'))
    (hsteady : ∀ {m'}, Steady inner m' → Steady m (leave m'))
    (hmode : inner.thread.mode.inAsync = true → m.thread.mode.inAsync = true)
    (htape : ∀ m', (leave m').thread.tape = m'.thread.tape)
    (hasks : ∀ {m'}, Asks m' → Asks (leave m')) (hw : inner.world = m.world)
    (hl : ∀ m', (leave m').world = m'.world) (ho : ∀ m', (leave m').output = m'.output)
    {r s : EStateM.Result ε Machine Status}
    (hok : ∀ {a m'}, r = .ok a m' → s = .ok a (leave m'))
    (herr : ∀ {e m'}, r = .error e m' → s = .error e (leave m'))
    (h : Carried b c inner r) : Carried b c m s := by
  -- the session does not see where the machine was changed on the way in and out
  have steps {c c' : Control} {m' : Machine} (h : Proceeds (inner.situation c) (m'.situation c')) :
      Proceeds (m.situation c) ((leave m').situation c') := by
    simp only [Machine.situation, hw, hl] at h ⊢
    exact h
  cases r with
  | ok status m' =>
    rw [hok rfl]
    cases status with
    | yielded =>
      obtain ⟨⟨r, frames, hc, hp, hs⟩, ha⟩ := h
      exact ⟨⟨r, frames, hc, hparked hp, steps hs⟩, fun hb => hasks (ha hb)⟩
    | normal => exact ⟨hpassed h.1, steps h.2⟩
    | leaving signal => exact ⟨hpassed h.1, steps h.2⟩
  | error e m' =>
    rw [herr rfl]
    simp only [Carried] at h ⊢
    split at h
    · exact ⟨hpassed h.1, steps h.2⟩
    · obtain ⟨r, rfl, hm, hs, ht, hw'⟩ := h
      exact ⟨r, rfl, hmode hm, hpassed hs, by rw [htape, ht], steps hw'⟩
    · have same : inner.situation c = m.situation c := congrArg (Situation.mk c) hw
      exact ⟨hsteady h.1, steps h.2.1, same ▸ h.2.2.unwind (.of_world (ho m') (hl m'))⟩

theorem Halted.congr {frames : List Frame} {m m' : Machine} (h : Halted frames m)
    (hs : m'.thread.scope = m.thread.scope) (ht : m'.thread.tape = m.thread.tape)
    (hw : m'.world = m.world) : Halted frames m' := by
  obtain ⟨fuel, n, m₁, m₂, he, hl, hs', ht', hw'⟩ := h
  exact ⟨fuel, n, m₁, m₂, he, hl, hs'.trans hs.symm, ht'.trans ht.symm, hw'.trans hw.symm⟩

theorem orderly_holding {b : Bool} {A : Source → Prop} (vs : List Value)
    {x : EStateM ε Machine Status} (hx : Orderly b A x) : Orderly b A (holding vs x) := by
  intro c m hm hr hs
  have steady {m' : Machine} (h : Steady { m with pinned := .values vs :: m.pinned } m') :
      Steady m { m' with pinned := m.pinned } :=
    ⟨⟨rfl, h.environment, h.globals, h.directory, h.callDepth, h.weaving⟩, h.task, h.driven⟩
  refine Carried.around { m with pinned := .values vs :: m.pinned }
    (fun m' => { m' with pinned := m.pinned }) (fun h => ?_) (fun h => ?_) steady id (fun _ => rfl)
    id rfl (fun _ => rfl) (fun _ => rfl) (fun h => by simp only [holding, pinning, h])
    (fun h => by simp only [holding, pinning, h])
    (hx c _ ⟨hm.sound, hm.world, hm.acts, hm.weaving, hm.driven, hm.async⟩ hr hs)
  · exact ⟨steady h.toSteady, h.mode, h.skip, h.parked, h.parking, h.source, h.sound, h.resume⟩
  · exact ⟨steady h.toSteady, h.async, h.mode, h.skip, h.source, h.sound, h.parked, h.chain,
      h.halted.congr rfl rfl rfl, h.tape⟩

/-- One more loop around a statement: afterwards there are as many as before. -/
theorem orderly_inLoop {b : Bool} {A : Source → Prop} {x : Eval Status} (hx : Orderly b A x) :
    Orderly b A (inLoop x) := by
  intro c m hm hr hs
  let inner : Machine := { m with thread := { m.thread with
    mode := { m.thread.mode with loopDepth := m.thread.mode.loopDepth + 1 } } }
  have mode {m' : Machine} (h : m'.thread.mode = inner.thread.mode) :
      (inLoop.leave m').thread.mode = m.thread.mode := by
    simp only [inLoop.leave, h]
    rfl
  have steady {m' : Machine} (h : Steady inner m') : Steady m (inLoop.leave m') :=
    ⟨⟨h.pinned, h.environment, h.globals, h.directory, h.callDepth, h.weaving⟩, h.task, h.driven⟩
  have enter (m : Machine) : (do
      modifyMode fun mode => { mode with loopDepth := mode.loopDepth + 1 }; x : Eval Status) m =
      x { m with thread := { m.thread with
        mode := { m.thread.mode with loopDepth := m.thread.mode.loopDepth + 1 } } } := rfl
  refine Carried.around inner inLoop.leave (fun h => ?_) (fun h => ?_) steady id (fun _ => rfl)
    id rfl (fun _ => rfl) (fun _ => rfl) (fun h => by simp only [inLoop, enter]; rw [h])
    (fun h => by simp only [inLoop, enter]; rw [h])
    (hx c _ ⟨hm.sound, hm.world, hm.acts, hm.weaving, hm.driven, hm.async⟩ hr hs)
  · exact ⟨steady h.toSteady, mode h.mode, h.skip, h.parked, h.parking, h.source, h.sound, h.resume⟩
  · exact ⟨steady h.toSteady, h.async, mode h.mode, h.skip, h.source, h.sound, h.parked, h.chain,
      h.halted.congr rfl rfl rfl, h.tape⟩

/-! ### Jobs -/

/-- Jobs tied over some fuel, that all do what they should. -/
structure Works (j : Jobs) : Prop where
  tied : ∃ fuel, j = jobs fuel
  expression : ∀ {A : Source → Prop}, Quiet A j.expression
  unary : ∀ {A : Source → Prop}, Quiet A j.unary
  body : ∀ {A : Source → Prop} (column : Nat), Orderly false A (j.body column)
  invoke : ∀ {A : Source → Prop} (callee : Value) (args : CallArgs) (site : Token),
    Quiet A (j.invoke callee args site)

end Rewind
