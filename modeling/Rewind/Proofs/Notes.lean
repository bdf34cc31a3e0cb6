/-
Runs with notes.

How often a construct does something, and in what order, cannot be read from what it comes to.  So
its code is written once more, with notes taken on the way; what is left when the notes are forgotten
is the code itself.  The notes of a run then are a trail through the states a construct can be in.

A construct that suspends goes on in a later turn, on whatever machine has the frames it has parked to
re-enter.  What it comes to in the end is told turn by turn.

* `Noted`, `Noted.result`, `Noted.notes` — computations that take notes, without the notes and
  without the result;
* `Trail`, `Traces`, `Tells` — notes that are a trail, and computations that take such notes;
* `Leg`, `Turns` — a statement over several turns.
-/
import Rewind.Proofs.Resumption

namespace Rewind

open Eval

variable {ν σ α β : Type}

/-! ### Notes -/

/-- Computations that take notes: what they come to, and the notes in the order they are taken. -/
def Noted (ν α : Type) : Type := Machine → EStateM.Result Interrupt Machine α × List ν

namespace Noted

/-- The computation without its notes. -/
def result (x : Noted ν α) : Eval α := fun m => (x m).1

/-- The notes taken. -/
def notes (x : Noted ν α) (m : Machine) : List ν := (x m).2

/-- A computation in which there is nothing to note. -/
def plain (x : Eval α) : Noted ν α := fun m => (x m, [])

/-- Takes a note of the machine. -/
def note (f : Machine → ν) : Noted ν Unit := fun m => (.ok () m, [f m])

instance : Monad (Noted ν) where
  pure a := plain (pure a)
  bind x f := fun m =>
    match x m with
    | (.ok a m', before) => ((f a m').1, before ++ (f a m').2)
    | (.error e m', before) => (.error e m', before)

instance : MonadLift Eval (Noted ν) := ⟨plain⟩

/-- Runs a computation on a machine that is changed for it, and changed back. -/
def within (before : Machine → Machine) (after : Machine → Machine → Machine) (x : Noted ν α) :
    Noted ν α := fun m =>
  match x (before m) with
  | (.ok a m', notes) => (.ok a (after m m'), notes)
  | (.error e m', notes) => (.error e (after m m'), notes)

@[simp] theorem result_plain (x : Eval α) : (plain x : Noted ν α).result = x := rfl

@[simp] theorem result_lift (x : Eval α) : (liftM x : Noted ν α).result = x := rfl

@[simp] theorem result_pure (a : α) : (pure a : Noted ν α).result = pure a := rfl

@[simp] theorem result_note (f : Machine → ν) : (note f).result = pure () := rfl

@[simp] theorem result_bind (x : Noted ν α) (f : α → Noted ν β) :
    (x >>= f).result = x.result >>= fun a => (f a).result := by
  funext m
  show (match x m with
    | (.ok a m', before) => ((f a m').1, before ++ (f a m').2)
    | (.error e m', before) => (.error e m', before) : _ × List ν).1 = EStateM.bind _ _ m
  unfold EStateM.bind result
  rcases x m with ⟨a | e, before⟩ <;> rfl

theorem bind_of_ok {x : Noted ν α} {f : α → Noted ν β} {m m' : Machine} {a : α} {before : List ν}
    (h : x m = (.ok a m', before)) : (x >>= f) m = ((f a m').1, before ++ (f a m').2) := by
  have run : (x >>= f) m = match x m with
    | (.ok a m', before) => ((f a m').1, before ++ (f a m').2)
    | (.error e m', before) => (.error e m', before) := rfl
  rw [run, h]

/-- What has no notes adds none. -/
theorem lift_bind {x : Eval α} {f : α → Noted ν β} {m m' : Machine} {a : α}
    (h : x m = .ok a m') : ((liftM x : Noted ν α) >>= f) m = f a m' := by
  have lifted : (liftM x : Noted ν α) m = (.ok a m', []) := congrArg (·, []) h
  rw [bind_of_ok lifted]
  rfl

theorem lift_bind_of_error {x : Eval α} {f : α → Noted ν β} {m m' : Machine} {e : Interrupt}
    (h : x m = .error e m') : ((liftM x : Noted ν α) >>= f) m = (.error e m', []) := by
  have run : ((liftM x : Noted ν α) >>= f) m = match (x m, ([] : List ν)) with
    | (.ok a m', before) => ((f a m').1, before ++ (f a m').2)
    | (.error e m', before) => (.error e m', before) := rfl
  rw [run, h]

end Noted

/-! ### Notes that are a trail -/

/-- The notes are the labels of a trail from the first state to the second one. -/
inductive Trail (Step : σ → ν → σ → Prop) : σ → List ν → σ → Prop where
  | nil (s : σ) : Trail Step s [] s
  | cons {s₀ s₁ s₂ : σ} {a : ν} {notes : List ν} : Step s₀ a s₁ → Trail Step s₁ notes s₂ →
    Trail Step s₀ (a :: notes) s₂

variable {Step : σ → ν → σ → Prop}

theorem Trail.append {s₀ s₁ s₂ : σ} {before behind : List ν} (h : Trail Step s₀ before s₁)
    (h' : Trail Step s₁ behind s₂) : Trail Step s₀ (before ++ behind) s₂ := by
  induction h with
  | nil => exact h'
  | cons step _ ih => exact .cons step (ih h')

/-- From the state `s` on the notes are a trail, and the computation ends as `Q` says, or a fault ends
it as `F` says; it neither raises nor suspends. -/
def Traces (Step : σ → ν → σ → Prop) (s : σ) (Q : α → Machine → σ → Prop) (F : Fault → σ → Prop)
    (x : Noted ν α) (m : Machine) : Prop :=
  ∃ s', Trail Step s (x.notes m) s' ∧
    match x.result m with
    | .ok a m' => Q a m' s'
    | .error e _ => ∃ f, e = .fault f ∧ F f s'

namespace Traces

variable {s : σ} {Q : α → Machine → σ → Prop} {R : β → Machine → σ → Prop} {F : Fault → σ → Prop}
  {m : Machine}

theorem pure {a : α} (h : Q a m s) : Traces Step s Q F (Pure.pure a : Noted ν α) m := ⟨s, .nil s, h⟩

theorem note {Q : Unit → Machine → σ → Prop} {f : Machine → ν} {s' : σ} (step : Step s (f m) s')
    (h : Q () m s') : Traces Step s Q F (Noted.note f) m := ⟨s', .cons step (.nil s'), h⟩

theorem bind {x : Noted ν α} {f : α → Noted ν β} (hx : Traces Step s Q F x m)
    (hf : ∀ a m' s', Q a m' s' → Traces Step s' R F (f a) m') : Traces Step s R F (x >>= f) m := by
  obtain ⟨s₁, hp, hq⟩ := hx
  have run : (x >>= f) m = match x m with
    | (.ok a m', before) => ((f a m').1, before ++ (f a m').2)
    | (.error e m', before) => (.error e m', before) := rfl
  unfold Noted.notes at hp
  unfold Noted.result at hq
  -- what has been noted before stands before what the rest notes
  rcases hx : x m with ⟨⟨a, m'⟩ | ⟨e, m'⟩, before⟩
  · rw [hx] at hp hq run
    obtain ⟨s₂, hp', hr⟩ := hf a m' s₁ hq
    refine ⟨s₂, ?_, ?_⟩
    · rw [Noted.notes, run]
      exact hp.append hp'
    · rw [Noted.result, run]
      exact hr
  · rw [hx] at hp hq run
    refine ⟨s₁, ?_, ?_⟩
    · rw [Noted.notes, run]
      exact hp
    · rw [Noted.result, run]
      exact hq

/-- A computation in which there is nothing to note, and which comes to its end. -/
theorem plain_ok {x : Eval α} {a : α} {m' : Machine} (hx : x m = .ok a m') (h : Q a m' s) :
    Traces Step s Q F (liftM x : Noted ν α) m := by
  refine ⟨s, .nil s, ?_⟩
  rw [Noted.result_lift, hx]
  exact h

/-- One in which a fault ends it. -/
theorem plain_fault {x : Eval α} {f : Fault} {m' : Machine} (hx : x m = .error (.fault f) m')
    (h : F f s) : Traces Step s Q F (liftM x : Noted ν α) m := by
  refine ⟨s, .nil s, ?_⟩
  rw [Noted.result_lift, hx]
  exact ⟨f, rfl, h⟩

/-- A run in which there is nothing to note. -/
theorem run {x : Run α} (h : ∀ a m', x m = .ok a m' → Q a m' s)
    (hF : ∀ f m', x m = .error f m' → F f s) :
    Traces Step s Q F (liftM (liftM x : Eval α) : Noted ν α) m := by
  cases hx : x m with
  | ok a m' => exact .plain_ok (by rw [Quiet.run_lift, hx]) (h a m' hx)
  | error f m' => exact .plain_fault (by rw [Quiet.run_lift, hx]) (hF f m' hx)

theorem within {before : Machine → Machine} {after : Machine → Machine → Machine} {x : Noted ν α}
    (h : Traces Step s (fun a m' => Q a (after m m')) F x (before m)) :
    Traces Step s Q F (Noted.within before after x) m := by
  obtain ⟨s', hp, hq⟩ := h
  unfold Noted.notes at hp
  unfold Noted.result at hq
  have run : Noted.within before after x m = match x (before m) with
    | (.ok a m', notes) => (.ok a (after m m'), notes)
    | (.error e m', notes) => (.error e (after m m'), notes) := rfl
  rcases hx : x (before m) with ⟨⟨a, m'⟩ | ⟨e, m'⟩, notes⟩
  all_goals
    rw [hx] at hp hq run
    refine ⟨s', ?_, ?_⟩
    · rw [Noted.notes, run]
      exact hp
    · rw [Noted.result, run]
      exact hq

theorem mono {Q' : α → Machine → σ → Prop} {F' : Fault → σ → Prop} {x : Noted ν α}
    (h : Traces Step s Q F x m) (hQ : ∀ a m' s', Q a m' s' → Q' a m' s')
    (hF : ∀ f s', F f s' → F' f s') : Traces Step s Q' F' x m := by
  obtain ⟨s', hp, hq⟩ := h
  refine ⟨s', hp, ?_⟩
  revert hq
  cases x.result m with
  | ok a m' => exact hQ a m' s'
  | error e m' => exact fun ⟨f, he, hf⟩ => ⟨f, he, hF f s' hf⟩

end Traces

/-- From the state `s` on the notes are a trail, and the computation ends as `Q` says, unless a fault
ends it; it neither raises nor suspends. -/
def Tells (Step : σ → ν → σ → Prop) (s : σ) (Q : α → Machine → σ → Prop) (x : Noted ν α)
    (m : Machine) : Prop :=
  ∃ s', Trail Step s (x.notes m) s' ∧
    match x.result m with
    | .ok a m' => Q a m' s'
    | .error e _ => ∃ f, e = .fault f

theorem tells_iff {s : σ} {Q : α → Machine → σ → Prop} {x : Noted ν α} {m : Machine} :
    Tells Step s Q x m ↔ Traces Step s Q (fun _ _ => True) x m := by
  refine exists_congr fun s' => and_congr_right fun _ => ?_
  cases x.result m with
  | ok => exact Iff.rfl
  | error => exact exists_congr fun f => (and_iff_left trivial).symm

namespace Tells

variable {s : σ} {Q : α → Machine → σ → Prop} {R : β → Machine → σ → Prop} {m : Machine}

theorem pure {a : α} (h : Q a m s) : Tells Step s Q (Pure.pure a : Noted ν α) m :=
  tells_iff.2 (.pure h)

theorem note {Q : Unit → Machine → σ → Prop} {f : Machine → ν} {s' : σ} (step : Step s (f m) s')
    (h : Q () m s') : Tells Step s Q (Noted.note f) m := tells_iff.2 (.note step h)

theorem bind {x : Noted ν α} {f : α → Noted ν β} (hx : Tells Step s Q x m)
    (hf : ∀ a m' s', Q a m' s' → Tells Step s' R (f a) m') : Tells Step s R (x >>= f) m :=
  tells_iff.2 (.bind (tells_iff.1 hx) fun a m' s' h => tells_iff.1 (hf a m' s' h))

/-- A computation in which there is nothing to note, and which comes to its end. -/
theorem plain_ok {x : Eval α} {a : α} {m' : Machine} (hx : x m = .ok a m') (h : Q a m' s) :
    Tells Step s Q (liftM x : Noted ν α) m := tells_iff.2 (.plain_ok hx h)

/-- A run in which there is nothing to note. -/
theorem run {x : Run α} (h : ∀ a m', x m = .ok a m' → Q a m' s) :
    Tells Step s Q (liftM (liftM x : Eval α) : Noted ν α) m :=
  tells_iff.2 (.run h fun _ _ _ => trivial)

theorem within {before : Machine → Machine} {after : Machine → Machine → Machine} {x : Noted ν α}
    (h : Tells Step s (fun a m' => Q a (after m m')) x (before m)) :
    Tells Step s Q (Noted.within before after x) m := tells_iff.2 (.within (tells_iff.1 h))

theorem mono {Q' : α → Machine → σ → Prop} {x : Noted ν α} (h : Tells Step s Q x m)
    (hQ : ∀ a m' s', Q a m' s' → Q' a m' s') : Tells Step s Q' x m :=
  tells_iff.2 (.mono (tells_iff.1 h) hQ fun _ _ => id)

end Tells

/-! ### Statements over several turns -/

/-- One turn of a statement that is taken up again: the fuel for what it runs, that for its own
rounds, and the machine it goes on with. -/
structure Leg where
  fuel : Nat
  rounds : Nat
  machine : Machine

/-- What the statement at `p` comes to in that turn. -/
def Leg.run (p : Position) (t : Leg) : EStateM.Result Fault Machine Status :=
  conclude p (enter (jobs t.fuel) t.rounds p) t.machine

/-- The statement at `p` has come to the first result in its first turn.  As long as it yields, there
may be another turn, on whatever machine has the frames to re-enter that were parked; the second
result is that of the last turn. -/
inductive Turns (p : Position) : EStateM.Result Fault Machine Status → List Leg →
    EStateM.Result Fault Machine Status → Prop where
  | last (r : EStateM.Result Fault Machine Status) : Turns p r [] r
  | more {m : Machine} {t : Leg} {legs : List Leg} {r : EStateM.Result Fault Machine Status} :
    t.machine.thread.resume = m.thread.parked → Turns p (t.run p) legs r →
    Turns p (.ok .yielded m) (t :: legs) r

/-- The notes of a turn, where `noted` goes on inside a construct. -/
def Leg.notes (noted : Jobs → Nat → FrameKind → Noted ν Status) (t : Leg) : List ν :=
  match t.machine.thread.resume with
  | frame :: inner => (noted (jobs t.fuel) t.rounds frame.kind).notes
      { t.machine with thread := { t.machine.thread with resume := inner } }
  | [] => []

/-- A statement that has ended normally. -/
def endsNormally : EStateM.Result Fault Machine Status → Bool
  | .ok .normal _ => true
  | _ => false

theorem ok_of_endsNormally {r : EStateM.Result Fault Machine Status} (h : endsNormally r = true) :
    ∃ m, r = .ok .normal m := by
  unfold endsNormally at h
  split at h
  · exact ⟨_, rfl⟩
  · cases h

section Legs

variable (Asks : σ → FrameKind → Prop) (Over : Status → σ → Prop)

/-- A construct that yields has asked for a frame. -/
def Leaves (status : Status) (m : Machine) (s : σ) : Prop :=
  match status with
  | .yielded => ∃ kind, Asks s kind ∧ m.thread.parking = some kind
  | status => Over status s

/-- A statement that yields has parked the frame of its construct, and one that a fault has ended was
where `Fails` says. -/
def Closes (Fails : Fault → σ → Prop) (p : Position) (r : EStateM.Result Fault Machine Status)
    (s : σ) : Prop :=
  match r with
  | .ok .yielded m => ∃ kind inner, Asks s kind ∧ m.thread.parked = ⟨p, kind⟩ :: inner
  | .ok status _ => Over status s
  | .error f _ => Fails f s

/-- A statement that yields has parked the frame of its construct. -/
def Concludes (p : Position) (r : EStateM.Result Fault Machine Status) (s : σ) : Prop :=
  match r with
  | .ok .yielded m => ∃ kind inner, Asks s kind ∧ m.thread.parked = ⟨p, kind⟩ :: inner
  | .ok status _ => Over status s
  | .error _ _ => True

variable {Asks Over} {p : Position} {s : σ} {Fails : Fault → σ → Prop}

theorem concludes_iff {r : EStateM.Result Fault Machine Status} :
    Concludes Asks Over p r s ↔ Closes Asks Over (fun _ _ => True) p r s := by
  cases r with
  | ok status m => cases status <;> exact Iff.rfl
  | error f m => exact Iff.rfl

theorem Traces.closes {x : Noted ν Status} {m : Machine}
    (h : Traces Step s (Leaves Asks Over) Fails x m) :
    ∃ s', Trail Step s (x.notes m) s' ∧ Closes Asks Over Fails p (conclude p x.result m) s' := by
  obtain ⟨s', hp, hq⟩ := h
  refine ⟨s', hp, ?_⟩
  rw [conclude_run]
  revert hq
  cases x.result m with
  | error e m' =>
    rintro ⟨f, rfl, hf⟩
    exact hf
  | ok status m' =>
    intro hq
    cases status with
    | yielded =>
      obtain ⟨kind, hk, hpark⟩ := hq
      exact ⟨kind, m'.thread.parked, hk, by rw [hpark]; rfl⟩
    | normal => exact hq
    | leaving signal => exact hq

theorem Tells.concludes {x : Noted ν Status} {m : Machine}
    (h : Tells Step s (Leaves Asks Over) x m) :
    ∃ s', Trail Step s (x.notes m) s' ∧ Concludes Asks Over p (conclude p x.result m) s' := by
  obtain ⟨s', hp, hq⟩ := (tells_iff.1 h).closes (p := p)
  exact ⟨s', hp, concludes_iff.2 hq⟩

/-- Turn by turn the notes are one trail. -/
theorem Turns.traces (noted : Jobs → Nat → FrameKind → Noted ν Status)
    {r₀ r : EStateM.Result Fault Machine Status} {legs : List Leg} (turns : Turns p r₀ legs r)
    (same : ∀ j n kind, (noted j n kind).result =
      reenter j n p.column (j.body (p.column + 4)) kind)
    (goes : ∀ t ∈ legs, ∀ s kind inner, Asks s kind → t.machine.thread.resume = ⟨p, kind⟩ :: inner →
      Traces Step s (Leaves Asks Over) Fails (noted (jobs t.fuel) t.rounds kind)
        { t.machine with thread := { t.machine.thread with resume := inner } })
    (begun : Closes Asks Over Fails p r₀ s) :
    ∃ s', Trail Step s (legs.flatMap (Leg.notes noted)) s' ∧ Closes Asks Over Fails p r s' := by
  induction turns generalizing s with
  | last r => exact ⟨s, .nil s, begun⟩
  | @more m t legs r resume _ ih =>
    obtain ⟨kind, inner, asks, parked⟩ := begun
    -- the turn takes up the frame that the last one has parked
    have frames : t.machine.thread.resume = ⟨p, kind⟩ :: inner := resume.trans parked
    obtain ⟨s₁, trail, ends⟩ :=
      (goes t List.mem_cons_self s kind inner asks frames).closes (p := p)
    have run : t.run p = conclude p (noted (jobs t.fuel) t.rounds kind).result
        { t.machine with thread := { t.machine.thread with resume := inner } } := by
      rw [Leg.run, same]
      exact conclude_congr (enter_frame frames)
    have notes : t.notes noted = (noted (jobs t.fuel) t.rounds kind).notes
        { t.machine with thread := { t.machine.thread with resume := inner } } := by
      rw [Leg.notes, frames]
    rw [← run] at ends
    obtain ⟨s₂, rest, last⟩ := ih (fun t ht => goes t (List.mem_cons_of_mem _ ht)) ends
    refine ⟨s₂, ?_, last⟩
    rw [List.flatMap_cons, notes]
    exact trail.append rest

/-- The same, whatever the faults. -/
theorem Turns.trail (noted : Jobs → Nat → FrameKind → Noted ν Status)
    {r₀ r : EStateM.Result Fault Machine Status} {legs : List Leg} (turns : Turns p r₀ legs r)
    (same : ∀ j n kind, (noted j n kind).result =
      reenter j n p.column (j.body (p.column + 4)) kind)
    (goes : ∀ fuel n m s kind, Asks s kind →
      Tells Step s (Leaves Asks Over) (noted (jobs fuel) n kind) m)
    (begun : Concludes Asks Over p r₀ s) :
    ∃ s', Trail Step s (legs.flatMap (Leg.notes noted)) s' ∧ Concludes Asks Over p r s' := by
  obtain ⟨s', trail, last⟩ := turns.traces noted same
    (fun t _ s kind _ asks _ => tells_iff.1 (goes t.fuel t.rounds _ s kind asks))
    (concludes_iff.1 begun)
  exact ⟨s', trail, concludes_iff.2 last⟩

end Legs

end Rewind
