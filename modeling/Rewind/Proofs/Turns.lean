/-
Turns and loops.

A turn of a coroutine is a run of its body from the frames it has parked, and it ends with the
coroutine done or waiting again.  A loop is turns one after another, and once it is over, however it
ended, the session goes on where the loop was begun.

* `beginTurn_run`, `runTurn_run` — what a turn comes to, in terms of the run of the body;
* `looped_turn`, `looped_drive` — a turn and a loop are steps of the session;
* `quiet_weave` — so the call that runs a loop is quiet;
* `quiet_invokeValue` — and so is any call.
-/
import Rewind.Proofs.Calls
import Rewind.Eval.Native

namespace Rewind.Eval

variable {A : Source → Prop} {α β : Type}

/-! ### One turn -/

/-- The world in which a coroutine has its turn. -/
def inTurn (w : World) (r : Ref .coroutine) : World :=
  w.modifyCoroutine r fun c => { c with stage := .running, scope := none, frames := [], tape := {} }

/-- What a coroutine does when its turn comes: nothing if it is done or has no body, it ends if it
was cancelled before it began, and else it goes on with what it has kept. -/
theorem beginTurn_run (r : Ref .coroutine) (m : Machine) :
    let c := m.world.coroutines.get r
    beginTurn r m =
      if c.isDone then .ok none m
      else match c.kind with
        | .script function owner =>
          if c.isCancelled && c.frames.isEmpty then
            .ok none { m with
              world := m.world.finish r (.error (Coroutine.cancellation 0 0)) }
          else match c.scope with
            | none => .error (.failure (.internal (.scopeMissing c.name))) m
            | some scope =>
              .ok (some ⟨function, owner, scope, c.frames, c.tape⟩)
                { m with world := inTurn m.world r }
        | _ => .ok none m := by
  intro c
  show (if c.isDone = true then _ else _ : Run (Option Turn)) m = _
  split
  · rfl
  · show (match c.kind with | .script _ _ => _ | _ => _ : Run (Option Turn)) m = _
    -- only a coroutine with a body has a turn to begin
    cases c.kind with
    | script f owner =>
      show (if (c.isCancelled && c.frames.isEmpty) = true then _ else _ : Run (Option Turn)) m = _
      simp only
      split
      · rfl
      · cases c.scope <;> rfl
    | _ => rfl

/-- The machine in which the body of a coroutine runs in its turn. -/
def turnMachine (m : Machine) (r : Ref .coroutine) (turn : Turn) (cursor : Cursor) : Machine :=
  { m with thread :=
    { cursor, scope := turn.scope, mode := .coroutineBody turn.owner, resume := turn.frames,
      tape := turn.tape, task := some r, driven := true } }

/-- What follows the run of a body in a turn: a coroutine that has yielded keeps what it goes on
with, any other is done. -/
def endTurn (r : Ref .coroutine) (m : Machine) : Status → Machine
  | .yielded => { m with world := keepTurn r m.thread m.world }
  | ended =>
    { m with world := (m.world.clearScope m.thread.scope).finish r (bodyOutcome ended) }

/-- A fault that ends a loop: one of evaluation, or the turn of a coroutine that cannot go on. -/
def Fault.Stalls (m m' : Machine) (f : Fault) : Prop :=
  f.Arises (m.situation .looping) m' ∨
  (∃ r name, f = .failure (.internal (.scopeMissing name)) ∧
    (m'.world.coroutines.get r).Stranded name ∧
    Proceeds (m.situation .looping) (m'.situation .failed)) ∨
  f = .failure (.internal .bodyMissing) ∧ ¬ m.world.Manned

/-- A computation of the loop that began between two turns ended as it should: between two turns
again, or wherever it failed. -/
def Looped (m : Machine) : EStateM.Result Fault Machine α → Prop
  | .ok _ m' => Stable m m' ∧ Proceeds (m.situation .looping) (m'.situation .looping)
  | .error f m' =>
    Stable m m' ∧ (∃ c, Proceeds (m.situation .looping) (m'.situation c)) ∧ Fault.Stalls m m' f

theorem World.get?_of_script {w : World} {r : Ref .coroutine} {f : Ref .function}
    {owner : Option (Ref .blueprint)} (h : (w.coroutines.get r).kind = .script f owner) :
    w.coroutines.get? r = some (w.coroutines.get r) := by
  cases hg : w.coroutines.get? r with
  | none => simp [Arena.get, hg, default] at h
  | some c => simp [Arena.get, hg]

/-- The body of a coroutine in its turn: the machine is ready and what it resumes is a chain. -/
theorem ready_turnMachine {m : Machine} (hw : m.world.Sound) (hv : m.weaving = true)
    (r : Ref .coroutine) (turn : Turn) {body : Script} {cursor : Cursor}
    (hf : (m.world.functions.get turn.function).body = .script body)
    (hc : Cursor.at? body.source body.entry = .ok cursor)
    (hr : turn.frames = [] ∨ Chain body.source turn.frames) :
    Ready (.turn r) (turnMachine m r turn cursor) ∧ Resumable (turnMachine m r turn cursor) := by
  obtain ⟨hcs, hsource⟩ := Cursor.sound_at? (World.marks_of_script hw hf) hc
  refine ⟨⟨hcs, hw, .inr ⟨r, rfl⟩, by simp [turnMachine, hv], fun _ => ⟨r, rfl, rfl⟩, fun _ => rfl⟩, ?_⟩
  refine hr.imp id fun h => ?_
  show Chain cursor.source turn.frames
  rw [hsource]
  exact h

/-- The machine whose loop has taken the head off its queue. -/
def dequeued (m : Machine) (rest : List (Ref .coroutine)) : Machine :=
  { m with world := { m.world with loop := { m.world.loop with ready := rest } } }

/-- The machine on which the coroutine at the head of the queue runs its body. -/
def bodyMachine (m : Machine) (r : Ref .coroutine) (rest : List (Ref .coroutine))
    (f : Ref .function) (owner : Option (Ref .blueprint)) (scope : Ref .scope) (cursor : Cursor) :
    Machine :=
  let c := m.world.coroutines.get r
  turnMachine { m with world := inTurn (dequeued m rest).world r } r
    ⟨f, owner, scope, c.frames, c.tape⟩ cursor

/-- What a turn comes to, in terms of the run of the body. -/
theorem runTurn_run (j : Jobs) (r : Ref .coroutine) (m : Machine) (rest : List (Ref .coroutine)) :
    let c := m.world.coroutines.get r
    runTurn j r (dequeued m rest) =
      if c.isDone then .ok () (dequeued m rest)
      else match c.kind with
        | .script f owner =>
          if c.isCancelled && c.frames.isEmpty then
            .ok () { m with world :=
              (dequeued m rest).world.finish r (.error (Coroutine.cancellation 0 0)) }
          else match c.scope with
            | none => .error (.failure (.internal (.scopeMissing c.name))) (dequeued m rest)
            | some scope =>
              match (m.world.functions.get f).body with
              | .native _ => .error (.failure (.internal .bodyMissing))
                { m with world := inTurn (dequeued m rest).world r }
              | .script body =>
                match Cursor.at? body.source body.entry with
                | .error failure =>
                  .error (.failure failure) { m with world := inTurn (dequeued m rest).world r }
                | .ok cursor =>
                  match j.body (body.column + 4) (bodyMachine m r rest f owner scope cursor) with
                  | .ok status m' => .ok () (endTurn r m' status)
                  | .error fault m' => .error fault m'
        | _ => .ok () (dequeued m rest) := by
  intro c
  show EStateM.bind (beginTurn r) _ (dequeued m rest) = _
  unfold EStateM.bind
  rw [beginTurn_run, show (dequeued m rest).world.coroutines.get r = c from rfl]
  cases c.isDone with
  | true => rfl
  | false =>
    -- each refusal of `beginTurn` in its order, then the body from its entry
    cases c.kind with
    | timer | gather => rfl
    | script f owner =>
      cases c.isCancelled && c.frames.isEmpty with
      | true => rfl
      | false =>
        cases c.scope with
        | none => rfl
        | some scope =>
          simp only [Bool.false_eq_true, if_false]
          show (match (m.world.functions.get f).body with | .native _ => _ | .script body => _
            : Run Unit) { m with world := inTurn (dequeued m rest).world r } = _
          cases (m.world.functions.get f).body with
          | native => rfl
          | script body =>
            dsimp only
            show (match Cursor.at? body.source body.entry with | .error _ => _ | .ok _ => _
              : Run Unit) { m with world := inTurn (dequeued m rest).world r } = _
            cases Cursor.at? body.source body.entry with
            | error => rfl
            | ok cursor =>
              dsimp only
              show EStateM.bind (j.body (body.column + 4)) _
                (bodyMachine m r rest f owner scope cursor) = _
              unfold EStateM.bind
              cases j.body (body.column + 4) (bodyMachine m r rest f owner scope cursor) with
              | error => rfl
              | ok status m' => cases status <;> rfl

section Turn

variable {m : Machine} (hw : m.world.Sound) (hv : m.weaving = true) {r : Ref .coroutine}
  {rest : List (Ref .coroutine)} (hr : m.world.loop.ready = r :: rest) {f : Ref .function}
  {owner : Option (Ref .blueprint)} {scope : Ref .scope}
  (hd : (m.world.coroutines.get r).isDone = false)
  (hk : (m.world.coroutines.get r).kind = .script f owner)
  (hs : (m.world.coroutines.get r).scope = some scope)
  (hx : (m.world.coroutines.get r).isCancelled = true → (m.world.coroutines.get r).frames ≠ [])
  {body : Script} {cursor : Cursor} (hf : (m.world.functions.get f).body = .script body)
  (hc : Cursor.at? body.source body.entry = .ok cursor)

include hw hv hr hd hk hs hx hf hc

/-- The coroutine at the head of the queue can take its turn. -/
theorem turn_begins :
    let t := bodyMachine m r rest f owner scope cursor
    Step (m.situation .looping) (t.situation (.turn r)) ∧ Ready (.turn r) t ∧ Resumable t ∧
      m.world.Runs r body ∧ t.thread.cursor.source = body.source := by
  intro t
  let c := m.world.coroutines.get r
  have begins : Step (m.situation .looping) (t.situation (.turn r)) := .resume hr hk hd hs hx
  have hg := World.get?_of_script hk
  have runs : m.world.Runs r body := ⟨c, f, owner, hg, hk, hf⟩
  -- what was parked was parked in this coroutine's own body, since it has only one
  have chain : c.frames = [] ∨ Chain body.source c.frames :=
    (hw.frames hg).imp_right fun ⟨body', hb, hch⟩ => runs.unique hb ▸ hch
  obtain ⟨ready, resumable⟩ := ready_turnMachine
    (m := { m with world := inTurn (dequeued m rest).world r }) (begins.sound hw) hv r
    ⟨f, owner, scope, c.frames, c.tape⟩ hf hc chain
  -- the cursor was made from the body's source, at a place marked there
  have source : cursor.source = body.source := by
    unfold Cursor.at? at hc
    split at hc
    · contradiction
    · split at hc
      · contradiction
      · rw [← Except.ok.inj hc]
  exact ⟨begins, ready, resumable, runs, source⟩

/-- The body of a coroutine that takes its turn, from the head of the queue to the end of the turn. -/
theorem looped_body {j : Jobs} (hj : Works j) :
    Looped m (match j.body (body.column + 4) (bodyMachine m r rest f owner scope cursor) with
      | .ok status m' => EStateM.Result.ok () (endTurn r m' status)
      | .error fault m' => .error fault m') := by
  obtain ⟨begins, ready, resumable, runs, source⟩ := turn_begins hw hv hr hd hk hs hx hf hc
  have h := hj.body (A := fun _ => True) (body.column + 4) (.turn r) _ ready resumable trivial
  -- the turn begins with one step of the session, and the body goes on from there
  have begun : Proceeds (m.situation .looping)
      ((bodyMachine m r rest f owner scope cursor).situation (.turn r)) :=
    .single begins (by simp) (Arena.size_modify _ _ _)
  have done {ended : Status} {m' : Machine}
      (hp : Passes (.turn r) (bodyMachine m r rest f owner scope cursor) m') :
      Proceeds (m.situation .looping)
        ⟨.looping, (m'.world.clearScope m'.thread.scope).finish r (bodyOutcome ended)⟩ :=
    (begun.trans hp.2 (absurd rfl)).trans (.single (.finish _ _) (by simp) (World.events_finish _ r _
      (World.active_none _) (by simp)).evolves.size) (absurd rfl)
  cases hb : j.body (body.column + 4) (bodyMachine m r rest f owner scope cursor) with
  | ok status m' =>
    rw [hb] at h
    cases status with
    | yielded =>
      obtain ⟨⟨r', frames, hr', hp, hsteps⟩, -⟩ := h
      obtain rfl : r = r' := by simpa using hr'
      -- the frames were parked in this turn, which began with none of them left
      have hch : Chain body.source m'.thread.parked := by
        rw [hp.parked, ← source]
        simpa [bodyMachine, turnMachine] using hp.chain
      refine ⟨⟨hp.pinned, hp.environment, hp.globals, hp.directory, hp.callDepth, hp.weaving⟩, ?_⟩
      exact (begun.trans hsteps (absurd rfl)).trans (.single
        (.keep m'.thread (hsteps.steps.runs (begins.runs runs)) hch) (by simp)
        (World.size_keepTurn r _ _)) (absurd rfl)
    | normal =>
      exact ⟨⟨h.1.pinned, h.1.environment, h.1.globals, h.1.directory, h.1.callDepth, h.1.weaving⟩,
        done h⟩
    | leaving signal =>
      exact ⟨⟨h.1.pinned, h.1.environment, h.1.globals, h.1.directory, h.1.callDepth, h.1.weaving⟩,
        done h⟩
  | error fault m' =>
    rw [hb] at h
    exact ⟨⟨h.1.pinned, h.1.environment, h.1.globals, h.1.directory, h.1.callDepth, h.1.weaving⟩,
      ⟨.turn r, begun.trans h.2.1 (absurd rfl)⟩, .inl (h.2.2.back begun.steps nofun begun.manned)⟩

end Turn

theorem looped_turn {j : Jobs} (hj : Works j) {m : Machine} (hw : m.world.Sound)
    (hv : m.weaving = true) {r : Ref .coroutine} {rest : List (Ref .coroutine)}
    (hr : m.world.loop.ready = r :: rest) : Looped m (runTurn j r (dequeued m rest)) := by
  have stable {w : World} : Stable m { m with world := w } := ⟨rfl, rfl, rfl, rfl, rfl, rfl⟩
  rw [runTurn_run]
  split
  · rename_i hd
    exact ⟨stable, .single (.pass hr (.inl hd)) (by simp) rfl⟩
  · rename_i hd
    have hd : (m.world.coroutines.get r).isDone = false := Bool.eq_false_iff.2 hd
    split
    · rename_i f owner hk
      split
      · rename_i hx
        obtain ⟨hcan, hfr⟩ : (m.world.coroutines.get r).isCancelled = true ∧
            (m.world.coroutines.get r).frames = [] := by
          simpa using hx
        exact ⟨stable, .single (.drop hr hd ⟨f, owner, hk⟩ hcan hfr) (by simp)
          (World.events_finish _ r _ (World.active_none _) (by simp)).evolves.size⟩
      · rename_i hx
        split
        · rename_i hsc
          -- without a scope the turn is lost, and the loop fails
          have lost : Proceeds (m.situation .looping) ((dequeued m rest).situation .failed) :=
            .single (.lose hr hd hsc) (by simp) rfl
          exact ⟨stable, ⟨.failed, lost⟩, .inr (.inl ⟨r, _, rfl, ⟨rfl, ⟨f, owner, hk⟩, hd, hsc⟩, lost⟩)⟩
        · rename_i scope hsc
          have hx : (m.world.coroutines.get r).isCancelled = true →
              (m.world.coroutines.get r).frames ≠ [] := by
            intro hc hf
            exact hx (by simp [hc, hf])
          have begins : Step (m.situation .looping) ⟨.turn r, inTurn (dequeued m rest).world r⟩ :=
            .resume hr hk hd hsc hx
          have begun : Proceeds (m.situation .looping)
              ⟨.turn r, inTurn (dequeued m rest).world r⟩ :=
            .single begins (by simp) (Arena.size_modify _ _ _)
          split
          · rename_i hf
            -- a coroutine is made of a function of the program only, so its body is there
            refine ⟨stable, ⟨.turn r, begun⟩, .inr (.inr ⟨rfl, fun manned => ?_⟩)⟩
            obtain ⟨body, hb⟩ := manned r f owner hk
            rw [hb] at hf
            contradiction
          · rename_i body hf
            split
            · exact ⟨stable, ⟨.turn r, begun⟩, .inl <|
                (reads_at? (World.marks_of_script hw hf) _ ‹_›).arises _ _⟩
            · rename_i cursor hc
              exact looped_body hw hv hr hd hk hsc hx hf hc hj
    · rename_i hk
      exact ⟨stable, .single (.pass hr (.inr fun f owner h => hk f owner h)) (by simp) rfl⟩

/-! ### Loops -/

/-- The machine after a look at the clock. -/
def looked (m : Machine) : Machine :=
  let now := m.world.loop.now + m.environment.lapse m.looks
  { m with looks := m.looks + 1, world := { m.world with loop := { m.world.loop with now } } }

/-- The machine after a look at the clock, by which the timers that are due have ended. -/
def polled (m : Machine) : Machine := { looked m with world := (looked m).world.pollSleepers }

/-- The machine whose clock has moved on to the first timer. -/
def rested (m : Machine) (wake : Nat) : Machine :=
  { m with world := { m.world with
    loop := { m.world.loop with now := max m.world.loop.now wake } } }

/-- One round of a loop. -/
theorem drive_run (j : Jobs) (n : Nat) (m : Machine) :
    drive j (n + 1) m = match (polled m).world.loop.ready with
      | r :: rest => (runTurn j r >>= fun _ => drive j n) (dequeued (polled m) rest)
      | [] =>
        match (polled m).world.loop.sleepers with
        | [] => .ok () (polled m)
        | (wake, _) :: _ => drive j n (rested (polled m) wake) := by
  show (dequeue >>= _ : Run Unit) (polled m) = _
  -- whoever is due has been woken, so an empty queue means that nobody can go on now
  cases hq : (polled m).world.loop.ready with
  | nil =>
    have hd : dequeue (polled m) = .ok none (polled m) := by
      simp only [dequeue, bind, EStateM.bind, ask, hq]
      rfl
    simp only [bind, EStateM.bind, hd, ask]
    cases (polled m).world.loop.sleepers with
    | nil => rfl
    | cons a l => rfl
  | cons r rest =>
    have hd : dequeue (polled m) = .ok (some r) (dequeued (polled m) rest) := by
      simp only [dequeue, bind, EStateM.bind, ask, hq]
      rfl
    simp only [bind, EStateM.bind, hd]

theorem Looped.trans {m m₁ : Machine} {x : EStateM.Result Fault Machine α} (hs : Stable m m₁)
    (hw : Proceeds (m.situation .looping) (m₁.situation .looping)) (h : Looped m₁ x) :
    Looped m x := by
  cases x with
  | ok a m₂ => exact ⟨hs.trans h.1, hw.trans h.2 id⟩
  | error f m₂ =>
    obtain ⟨hs', ⟨c, hw'⟩, hf⟩ := h
    refine ⟨hs.trans hs', ⟨c, hw.trans hw' id⟩, ?_⟩
    obtain hf | ⟨r, name, hf, hr, hl⟩ | ⟨hf, hn⟩ := hf
    · exact .inl (hf.back hw.steps id hw.manned)
    · exact .inr (.inl ⟨r, name, hf, hr, hw.trans hl id⟩)
    · exact .inr (.inr ⟨hf, fun hm => hn (hw.manned hm)⟩)

theorem stable_polled (m : Machine) : Stable m (polled m) := ⟨rfl, rfl, rfl, rfl, rfl, rfl⟩

/-- The clock goes on, and the timers that are due end. -/
theorem proceeds_polled (m : Machine) :
    Proceeds (m.situation .looping) ((polled m).situation .looping) :=
  .trans (.single (.tick (by simp [Control.GoesOn]) (Nat.le_add_right _ _)) (by simp) rfl)
    (.single .poll (by simp) (World.events_pollSleepers (looked m).world).evolves.size) id

theorem looped_drive {j : Jobs} (hj : Works j) (n : Nat) {m : Machine} (hw : m.world.Sound)
    (hv : m.weaving = true) : Looped m (drive j n m) := by
  induction n generalizing m with
  | zero => exact ⟨.refl m, ⟨.looping, .refl _⟩, .inl trivial⟩
  | succ n ih =>
    rw [drive_run]
    have polls := proceeds_polled m
    have hp : (polled m).world.Sound := polls.steps.sound hw
    split
    · rename_i r rest hr
      refine .trans (stable_polled m) polls ?_
      have ht := looped_turn hj hp hv hr
      show Looped (polled m) (EStateM.bind (runTurn j r) (fun _ => drive j n) _)
      unfold EStateM.bind
      cases hrun : runTurn j r (dequeued (polled m) rest) with
      | ok u m₁ =>
        rw [hrun] at ht
        exact .trans ht.1 ht.2 (ih (ht.2.steps.sound hp) (ht.1.weaving.trans hv))
      | error fault m₁ =>
        rw [hrun] at ht
        exact ht
    · split
      · exact ⟨stable_polled m, polls⟩
      · rename_i wake _ _ _
        -- nobody is ready: the clock goes on to the next wake-up
        have rests : Proceeds ((polled m).situation .looping)
            ((rested (polled m) wake).situation .looping) :=
          .single (.tick (by simp [Control.GoesOn]) (Nat.le_max_left _ _)) (by simp) rfl
        have stable : Stable m (rested (polled m) wake) := ⟨rfl, rfl, rfl, rfl, rfl, rfl⟩
        exact .trans stable (polls.trans rests id) (ih (rests.steps.sound hp) hv)

/-- The machine in which a loop has been opened with `root` in it. -/
def opened (m : Machine) (root : Ref .coroutine) : Machine :=
  { m with world := m.world.openLoop.start root }

/-- What a loop comes to, in terms of its rounds: a root that is not done when the loop has come to
rest is a deadlock. -/
theorem runLoop_run (j : Jobs) (n : Nat) (root : Ref .coroutine) (m : Machine) :
    runLoop j n root m = match drive j n (opened m root) with
      | .ok _ m' =>
        if (m'.world.coroutines.get root).isDone then .ok () m'
        else .error (.failure (.deadlock (m'.world.coroutines.get root).name
          (m'.world.coroutines.get root).stage)) m'
      | .error e m' => .error e m' := by
  show EStateM.bind (drive j n) _ (opened m root) = _
  unfold EStateM.bind
  cases drive j n (opened m root) with
  | error e m' => rfl
  | ok a m' =>
    have ends (done : Bool) (f : Failure) : (if (!done) = true then fail f else pure () : Run Unit)
        m' = if done = true then .ok () m' else .error (.failure f) m' := by
      cases done <;> rfl
    exact ends _ _

section Loop

variable {j : Jobs} (hj : Works j) (n : Nat) {root : Ref .coroutine} {m : Machine}
  (hw : m.world.Sound) (hv : m.weaving = true) (hroot : m.world.Has root)
  (hn : (m.world.coroutines.get root).stage = .new)
  (hx : (m.world.coroutines.get root).isCancelled = false)

include hroot hn hx in
theorem opens : Step (m.situation .idle) ((opened m root).situation .looping) :=
  .opening root hroot hn hx

omit hroot in
theorem size_opened (root : Ref .coroutine) :
    (opened m root).world.coroutines.size = m.world.coroutines.size :=
  ((World.events_openLoop m.world).trans
    (World.events_start _ root (World.active_none _))).evolves.size

include hj hw hv hroot hn hx

/-- A loop that is run from an idle machine, however it ends. -/
theorem ran_loop {m' : Machine}
    (h : (∃ a, runLoop j n root m = .ok a m') ∨ (∃ e, runLoop j n root m = .error e m')) :
    Stable m m' ∧ (∃ c, Steps (m.situation .idle) (m'.situation c)) ∧
      (m.world.Manned → m'.world.Manned) := by
  have begun := opens (m := m) hroot hn hx
  have hd := looped_drive hj n (m := opened m root) (begun.sound hw) hv
  have stable : Stable m (opened m root) := ⟨rfl, rfl, rfl, rfl, rfl, rfl⟩
  have manned : m.world.Manned → (opened m root).world.Manned :=
    begun.manned_of_size (size_opened root)
  rw [runLoop_run] at h
  cases hr : drive j n (opened m root) with
  | ok a m₂ =>
    rw [hr] at hd
    -- however the root has ended, the machine is the one that the queue left
    obtain rfl : m₂ = m' := by
      simp only [hr] at h
      split at h <;> grind
    exact ⟨stable.trans hd.1, ⟨.looping, .head begun hd.2.steps⟩, hd.2.manned ∘ manned⟩
  | error e m₂ =>
    rw [hr] at hd
    obtain rfl : m₂ = m' := by
      simp only [hr] at h
      grind
    obtain ⟨hs, ⟨c, hsteps⟩, -⟩ := hd
    exact ⟨stable.trans hs, ⟨c, .head begun hsteps.steps⟩, hsteps.manned ∘ manned⟩

/-- What a loop may fail with: a coroutine that cannot go on could not when the loop began. -/
theorem fault_runLoop {e : Fault} {m' : Machine} (h : runLoop j n root m = .error e m') :
    e.Arises (m.situation .idle) m' := by
  have run := h
  have begun := opens (m := m) hroot hn hx
  have hd := looped_drive hj n (m := opened m root) (begun.sound hw) hv
  have manned : m.world.Manned → (opened m root).world.Manned :=
    begun.manned_of_size (size_opened root)
  rw [runLoop_run] at h
  cases hr : drive j n (opened m root) with
  | ok a m₂ =>
    simp only [hr] at h
    split at h
    · contradiction
    · obtain ⟨rfl, -⟩ := EStateM.Result.error.inj h
      rfl
  | error e' m₂ =>
    rw [hr] at hd
    simp only [hr] at h
    obtain ⟨rfl, rfl⟩ := EStateM.Result.error.inj h
    obtain hf | ⟨r, name, rfl, lost, hl⟩ | ⟨rfl, hm⟩ := hd.2.2
    · exact hf.back (.single begun) nofun manned
    · -- whoever is stranded where the loop fails was so where it began
      have lodged := hl.lodged (by simp)
        (S := fun r => ((opened m root).world.coroutines.get r).Stranded) fun r name hr => .inr hr
      have before := (lodged r name lost).resolve_left (by simp [Control.holder])
      have opens := (World.events_openLoop m.world).trans
        (World.events_start _ root (World.active_none _))
      obtain ⟨fuel, rfl⟩ := hj.tied
      exact ⟨rfl, m, _, .refl, ⟨r, opens.stranded before, lost, fuel, n, root, run⟩, .refl _⟩
    · exact ⟨rfl, fun h => hm (manned h)⟩

end Loop

/-- The machine that goes on with the thread of `m` after a loop has come to `m'`. -/
def afterLoop (m m' : Machine) : Machine :=
  { m' with
    world := m'.world.teardown, thread := m.thread, pinned := m.pinned, weaving := false }

theorem weaveLoop_run (j : Jobs) (n : Nat) (root : Ref .coroutine)
    (f : Except Fault Unit → Eval β) (m : Machine) :
    (do
      modify fun m => { m with weaving := true }
      let result ← pinning (.thread m.thread.waiting) (catchFault (runLoop j n root))
      modifyWorld (·.teardown)
      modify fun m' => { m' with thread := m.thread, weaving := false }
      f result : Eval β) m =
    match runLoop j n root
        { m with weaving := true, pinned := .thread m.thread.waiting :: m.pinned } with
      | .ok a m' => f (.ok a) (afterLoop m m')
      | .error e m' => f (.error e) (afterLoop m m') := by
  simp only [bind, EStateM.bind, modify_run,
    pinning, catchFault]
  cases runLoop j n root { m with weaving := true, pinned := .thread m.thread.waiting :: m.pinned } <;> rfl

theorem quiet_checkArity (native : Native) (args : List Value) (least most : Nat) (site : Token) :
    Quiet A (checkArity native args least most site) :=
  .ite (fun _ => quiet_complain _ _) fun _ => .pure _

/-- What an argument stands for is a coroutine. -/
theorem yields_coroutineArg (native : Native) (v : Value) (site : Token) :
    Yields (fun m r => m.world.Has r) (coroutineArg native v site) := by
  intro m
  simp only [coroutineArg, bind, EStateM.bind, ask]
  cases h : m.world.coroutine? v with
  | some r => exact .inl ⟨r, rfl, World.has_of_coroutine? h⟩
  | none => exact .inr ⟨_, rfl⟩

/-- A loop that is run from a ready machine, and whatever is done with its result. -/
theorem ended_weaveLoop {j : Jobs} (hj : Works j) (n : Nat) {root : Ref .coroutine}
    {f : Except Fault Unit → Eval β}
    {m : Machine} (hf : ∀ (result) {m'}, Settles .idle m m' →
      (∀ e, result = .error e → e.Arises (m.situation .idle) m') → Ended .idle m (f result m'))
    (hm : Ready .idle m) (hv : m.weaving = false)
    (hroot : m.world.Has root) (hn : (m.world.coroutines.get root).stage = .new)
    (hx : (m.world.coroutines.get root).isCancelled = false) :
    Ended .idle m ((do
      modify fun m => { m with weaving := true }
      let result ← pinning (.thread m.thread.waiting) (catchFault (runLoop j n root))
      modifyWorld (·.teardown)
      modify fun m' => { m' with thread := m.thread, weaving := false }
      f result : Eval β) m) := by
  let m₁ : Machine := { m with weaving := true, pinned := .thread m.thread.waiting :: m.pinned }
  -- the teardown closes the loop, and the thread is put back in its place
  have settles {m' : Machine}
      (h : (∃ a, runLoop j n root m₁ = .ok a m') ∨ (∃ e, runLoop j n root m₁ = .error e m')) :
      Settles .idle m (afterLoop m m') := by
    obtain ⟨hstable, ⟨c, hsteps⟩, hmanned⟩ := ran_loop hj n (m := m₁) hm.world rfl hroot hn hx h
    exact ⟨.of_thread ⟨⟨rfl, hstable.environment, hstable.globals, hstable.directory,
      hstable.callDepth, hv.symm⟩, rfl, rfl⟩ rfl hm.sound, .close hsteps rfl hmanned⟩
  rw [weaveLoop_run]
  cases hr : runLoop j n root m₁ with
  | ok a m' =>
    exact hf _ (settles (.inl ⟨a, hr⟩)) nofun
  | error e m' =>
    refine hf _ (settles (.inr ⟨e, hr⟩)) fun e' he => ?_
    obtain rfl := Except.error.inj he
    exact (fault_runLoop hj n (m := m₁) hm.world rfl hroot hn hx hr).unwind ⟨rfl, .teardown _⟩

/-- What is left of a loop once it is over: the outcome of its root. -/
theorem ended_weaveResult (root : Ref .coroutine) (result : Except Fault Unit) {m m' : Machine}
    (hm : Ready .idle m) (h : Settles .idle m m') :
    (∀ e, result = .error e → e.Arises (m.situation .idle) m') → Ended .idle m ((match result with
      | .error fault => throw (.fault fault)
      | .ok () => do
        let c ← ask fun w => w.coroutines.get root
        match ← onHeap (Heap.duplicateOutcome c.outcome) with
        | .ok v => return .fresh v
        | .error r => fail (.workflow c.name (← ask fun w => w.text r.value)) : Eval Held) m') := by
  intro he
  cases result with
  | error fault => exact ⟨h.1.toSteady, h.2, he _ rfl⟩
  | ok =>
    refine .trans h ((Quiet.bind (quiet_ask _) fun c => .bind (quiet_onHeap _) fun outcome => ?_
      : Quiet (fun _ => True) _) _ _ (hm.settles h) trivial)
    split
    · exact .pure _
    · exact .bind (quiet_ask _) fun _ => .lift (quiet_fail _ (by trivial))

/-- The call that runs a loop leaves nothing of it behind but what it has done to the world. -/
theorem quiet_weave {j : Jobs} (hj : Works j) (n : Nat) (args : List Value) (site : Token) :
    Quiet A (weave j n args site) := by
  refine .bind (quiet_checkArity _ _ _ _ _) fun _ => ?_
  refine (yields_coroutineArg _ _ _).bind fun c m root hm hs hroot => ?_
  have raises {x : Complaint} {f : Unit → Eval Held} :
      Ended c m ((complain x site >>= f) m) := Settles.refl hm.sound
  show Ended c m ((if (m.thread.driven || m.weaving) = true then _ else _ : Eval Held) m)
  by_cases hv : (m.thread.driven || m.weaving) = true
  · rw [if_pos hv]
    exact raises
  · rw [if_neg hv]
    have hv : m.weaving = false := by simp_all
    show Ended c m ((if (m.world.coroutines.get root).stage ≠ .new then _ else _ : Eval Held) m)
    by_cases hn : (m.world.coroutines.get root).stage ≠ .new
    · rw [if_pos hn]
      exact raises
    · rw [if_neg hn]
      show Ended c m ((if (m.world.coroutines.get root).isCancelled = true then _ else _
        : Eval Held) m)
      by_cases hx : (m.world.coroutines.get root).isCancelled = true
      · rw [if_pos hx]
        exact raises
      · rw [if_neg hx]
        -- where no loop runs the session is idle, and this call is the one that acts
        obtain rfl : c = .idle :=
          Classical.byContradiction fun h => Bool.false_ne_true (hv.symm.trans (hm.weaving.2 h))
        exact ended_weaveLoop hj n (fun result _ h => ended_weaveResult root result hm h) hm
          hv hroot (Classical.not_not.1 hn) (Bool.eq_false_iff.2 hx)

/-! ### The functions of the loop -/

theorem quiet_spawnTask (args : List Value) (site : Token) : Quiet A (spawnTask args site) := by
  refine .bind (quiet_checkArity _ _ _ _ _) fun _ => ?_
  refine (yields_coroutineArg _ _ _).bind fun c m task hm hs ht => ?_
  have raises {x : Complaint} {f : Unit → Eval Held} :
      Ended c m ((complain x site >>= f) m) := Settles.refl hm.sound
  show Ended c m ((if (m.world.coroutines.get task).stage ≠ .new then _ else _ : Eval Held) m)
  refine .ite (fun _ => raises) fun _ => ?_
  show Ended c m ((if (!m.thread.driven) = true then _ else _ : Eval Held) m)
  refine .ite (fun _ => raises) fun hd => ?_
  have hd : m.thread.driven = true := by simpa using hd
  obtain ⟨r, rfl, -⟩ := hm.driven hd
  have h := Settles.step hm (.start task ht)
    (World.events_start m.world task (World.active_none _)).evolves.size
  cases (m.world.coroutines.get task).kind <;>
    exact .trans h (Quiet.pure (A := A) _ _ _ (hm.settles h) hs)

theorem quiet_readClock : Quiet A (readClock : Eval Nat) := fun _ _ hm _ =>
  ⟨.of_thread ⟨⟨rfl, rfl, rfl, rfl, rfl, rfl⟩, rfl, rfl⟩ rfl hm.sound,
    .act (.tick hm.goesOn (Nat.le_add_right _ _)) rfl⟩

theorem quiet_rest (args : List Value) (site : Token) : Quiet A (rest args site) := by
  refine .bind (quiet_checkArity _ _ _ _ _) fun _ => ?_
  dsimp only
  split
  · exact quiet_complain _ _
  · refine .guard (quiet_complain _ _) ?_
    split
    · exact quiet_complain _ _
    · exact .bind quiet_readClock fun _ =>
        .bind (quiet_newCoroutine _ (fun w => w.admits_timer _) (fun w => w.mans_timer _) nofun) fun _ => .pure _

theorem quiet_yieldNow (args : List Value) (site : Token) : Quiet A (yieldNow args site) :=
  .bind (quiet_checkArity _ _ _ _ _) fun _ => .bind quiet_readClock fun _ =>
    .bind (quiet_newCoroutine _ (fun w => w.admits_timer _) (fun w => w.mans_timer _) nofun) fun _ => .pure _

theorem quiet_returnExceptions (positional : Nat) (named : List (String × Value × Token))
    (chosen : Bool) : Quiet A (returnExceptions positional named chosen) := by
  induction named generalizing chosen with
  | nil => exact .pure _
  | cons a named ih =>
    obtain ⟨name, v, site⟩ := a
    have next : Quiet A (do
        returnExceptions positional named (← truthy (.view v)) : Eval Bool) :=
      .bind (quiet_truthy _) fun _ => ih _
    have twice : Quiet A (do
        if 1 < positional then complain .returnExceptionsTwice site
        returnExceptions positional named (← truthy (.view v)) : Eval Bool) :=
      .ite (fun _ => .bind (quiet_complain _ _) fun _ => next) fun _ => next
    exact .ite (fun _ => .bind (quiet_complain _ _) fun _ => twice) fun _ => twice

theorem quiet_gather (args : CallArgs) (site : Token) : Quiet A (gather args site) := by
  refine .bind (quiet_checkArity _ _ _ _ _) fun _ => ?_
  have made (r : Ref .array) (chosen : Bool) : Quiet A (do
      let tasks ← ask fun w => w.heap.array r
      let children ← tasks.toList.mapM fun v => coroutineArg .gather v site
      let state := GatherState.ofChildren children chosen
      return .fresh (.gather (← newCoroutine "gather_task" (.gather state) none)) : Eval Held) := by
    refine .bind (quiet_ask _) fun tasks => ?_
    refine (Yields.mapM (fun v => yields_coroutineArg .gather v site) _).bind
      fun c m children hm hs hc => ?_
    -- every child has been looked up, so it is a coroutine of this session
    have hk : m.world.Admits (.gather (GatherState.ofChildren children chosen)) :=
      fun g hg => ⟨children, chosen, (CoroutineKind.gather.inj hg).symm, hc⟩
    have h := ended_newCoroutine (ε := Interrupt) "gather_task" none hm hk
      (m.world.mans_gather _) nofun
    exact .trans h (Settles.refl hm.sound)
  split
  all_goals cases args.positional[1]? with
  | some v => ?_
  | none => ?_
  · exact .bind (quiet_truthy _) fun _ => .bind (quiet_returnExceptions _ _ _) (made _)
  · exact .bind (.pure _) fun _ => .bind (quiet_returnExceptions _ _ _) (made _)
  · exact .bind (quiet_truthy _) fun _ => .bind (quiet_returnExceptions _ _ _) fun _ =>
      quiet_complain _ _
  · exact .bind (.pure _) fun _ => .bind (quiet_returnExceptions _ _ _) fun _ => quiet_complain _ _

theorem quiet_cancel (args : List Value) (site : Token) : Quiet A (cancel args site) := by
  refine .bind (quiet_checkArity _ _ _ _ _) fun _ => ?_
  refine (yields_coroutineArg _ _ _).bind fun c m task hm hs ht => ?_
  show Ended c m ((if m.thread.driven = true then _ else _ : Eval Held) m)
  refine .ite (fun hd => ?_) fun _ => ?_
  · obtain ⟨r, rfl, -⟩ := hm.driven hd
    have h := Settles.step hm (.cancel task ht)
      (World.events_cancel m.world task (World.active_none _)).evolves.size
    exact .trans h (Settles.refl hm.sound)
  · have h := Settles.step hm (.flag task hm.goesOn ht)
      (World.events_flagCancelled m.world task (a := none)).evolves.size
    exact .trans h (Settles.refl hm.sound)

/-! ### Any call -/

section Jobs

variable {j : Jobs} (hj : Works j)

include hj in
theorem quiet_showValues (args : List Value) (site : Token) : Quiet A (showValues j args site) :=
  .bind (quiet_holding _ (quiet_mapM (fun v => quiet_render hj v site) _)) fun _ =>
    .bind (quiet_emit _) fun _ => .pure _

theorem quiet_lengthOf (args : List Value) (site : Token) : Quiet A (lengthOf args site) := by
  refine .bind (quiet_checkArity _ _ _ _ _) fun _ => .bind (quiet_ask _) fun heap => ?_
  cases args.headD .null with
  | str | array | tuple | dict => exact .bind (.pure _) fun _ => .pure _
  | _ => exact .bind (quiet_complain _ _) fun _ => .pure _

theorem quiet_sliceIndex (v : Value) (site : Token) : Quiet A (sliceIndex v site) := by
  unfold sliceIndex
  split
  · exact .pure _
  · exact quiet_complain _ _

theorem quiet_sliceText (args : List Value) (site : Token) : Quiet A (sliceText args site) := by
  refine .bind (quiet_checkArity _ _ _ _ _) fun _ => ?_
  split
  · refine .bind (quiet_mapM (fun v => quiet_sliceIndex v site) _) fun bounds => ?_
    split <;> exact .pure _
  · exact quiet_complain _ _

theorem quiet_append (receiver : Option Value) (args : List Value) (site : Token) :
    Quiet A (append receiver args site) := by
  refine .bind (quiet_checkArity _ _ _ _ _) fun _ => ?_
  split
  · exact .bind (quiet_onHeap _) fun _ => .pure _
  · exact quiet_complain _ _

include hj

theorem quiet_native (n : Nat) (native : Native) (receiver : Option Value) (args : CallArgs)
    (site : Token) : Quiet A (match native with
      | .show => showValues j args.positional site
      | .len => lengthOf args.positional site
      | .slice => sliceText args.positional site
      | .type => do
        checkArity .type args.positional 1 1 site
        return .fresh (.str (args.positional.headD .null).kind.name)
      | .append => append receiver args.positional site
      | .weave => holding args.positional (weave j n args.positional site)
      | .spawnTask => spawnTask args.positional site
      | .rest => rest args.positional site
      | .gather => gather args site
      | .cancel => cancel args.positional site
      | .yieldNow => yieldNow args.positional site : Eval Held) := by
  cases native with
  | «show» => exact quiet_showValues hj _ _
  | len => exact quiet_lengthOf _ _
  | slice => exact quiet_sliceText _ _
  | type => exact .bind (quiet_checkArity _ _ _ _ _) fun _ => .pure _
  | append => exact quiet_append _ _ _
  | weave => exact quiet_holding _ (quiet_weave hj n _ _)
  | spawnTask => exact quiet_spawnTask _ _
  | rest => exact quiet_rest _ _
  | gather => exact quiet_gather _ _
  | cancel => exact quiet_cancel _ _
  | yieldNow => exact quiet_yieldNow _ _

theorem quiet_callNative (n : Nat) (native : Native) (receiver : Option Value) (args : CallArgs)
    (site : Token) : Quiet A (callNative j n native receiver args site) := by
  have called := quiet_native (A := A) hj n native receiver args site
  refine .ite (fun _ => ?_) fun _ => called
  split
  · exact .bind (quiet_complain _ _) fun _ => called
  · exact called

theorem quiet_callFunction (n : Nat) (r : Ref .function) (receiver : Option Value)
    (owner : Option (Ref .blueprint)) (args : CallArgs) (site : Token) :
    Quiet A (callFunction j n r receiver owner args site) := by
  intro c m hm hs
  simp only [callFunction, bind, EStateM.bind, ask]
  cases hb : (m.world.functions.get r).body with
  | native native => exact quiet_callNative hj n _ _ _ _ c m hm hs
  | script body =>
    exact .ite (fun _ => ended_spawn _ _ _ _ _ hm hb)
      fun _ => ended_callScript hj _ _ _ _ _ hm fun native hn => by
        rw [hb] at hn
        contradiction

theorem quiet_dispatch (n : Nat) (callee : Value) (args : CallArgs) (site : Token) :
    Quiet A (dispatch j n callee args site) := by
  refine quiet_holding _ ?_
  split
  · exact quiet_callFunction hj n _ _ _ _ _
  · exact .bind (quiet_ask _) fun _ => quiet_callFunction hj n _ _ _ _ _
  · exact quiet_instantiate hj _ _ _
  · exact quiet_complain _ _

omit hj in
/-- What comes to its end has come to the end of its first part. -/
theorem ok_of_bind {ε : Type} {x : EStateM ε Machine α} {f : α → EStateM ε Machine β}
    {m m' : Machine} {b : β} (h : (x >>= f) m = .ok b m') :
    ∃ a m₁, x m = .ok a m₁ ∧ f a m₁ = .ok b m' := by
  change EStateM.bind x f m = _ at h
  unfold EStateM.bind at h
  split at h
  · exact ⟨_, _, ‹_›, h⟩
  · contradiction

omit hj in
/-- Any other call is carried out and its outcome recorded. -/
theorem invokeValue_of_not_replays (n : Nat) (callee : Value) (args : CallArgs) (site : Token)
    {m : Machine} (h : m.thread.replays = false) :
    invokeValue j n callee args site m =
      match (do own (← dispatch j n callee args site) : Eval Value) m with
      | .ok v m' => settle (.ok v) m'
      | .error (.raised r) m' => settle (.error r) m'
      | .error .suspended m' => .error .suspended m'
      | .error (.fault f) m' => .error (.fault f) m' := by
  refine (bind_of_ok (replayed_of_not_replays h)).trans ?_
  show EStateM.bind (liftM (attempt (do own (← dispatch j n callee args site))) :
    Eval (Attempt Value)) _ m = _
  unfold EStateM.bind
  rw [Quiet.run_lift]
  unfold attempt
  cases (do own (← dispatch j n callee args site) : Eval Value) m with
  | ok v m' => rfl
  | error e m' => cases e <;> rfl

/-- A call whose outcome is put on the tape. -/
theorem quiet_invokeValue (n : Nat) (callee : Value) (args : CallArgs) (site : Token) :
    Quiet A (invokeValue j n callee args site) := by
  intro c m hm hs
  cases h : m.thread.replays with
  | true =>
    obtain ⟨entry, -, hr⟩ := replayed_of_replays h
    have taken := quiet_replayed (A := A) c m hm hs
    rw [hr] at taken
    simp only [invokeValue, bind, EStateM.bind, hr]
    exact .trans taken (quiet_resume _ c _ (hm.settles taken) hs)
  | false =>
    have called : Quiet A (do own (← dispatch j n callee args site) : Eval Value) :=
      .bind (quiet_dispatch hj n callee args site) fun _ => quiet_own _
    have he := called c m hm hs
    rw [invokeValue_of_not_replays n callee args site h]
    -- whatever the call came to is recorded, unless it is a fault
    cases hr : (do own (← dispatch j n callee args site) : Eval Value) m with
    | ok v m' =>
      rw [hr] at he
      exact .trans he (ended_settle (hm.settles he) _ (Thread.replays_of_settled he.1 h))
    | error e m' =>
      rw [hr] at he
      cases e with
      | raised r =>
        exact .trans he (ended_settle (hm.settles he) _ (Thread.replays_of_settled he.1 h))
      | suspended => exact he
      | fault f => exact he

end Jobs

end Rewind.Eval
