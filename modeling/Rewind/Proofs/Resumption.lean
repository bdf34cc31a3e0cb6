/-
Coroutines that are suspended and resumed.

In one turn a coroutine is suspended in a statement, however deep inside blocks, branches, loops and
`try` phases; the loop goes on without it for as long as it may; and in its next turn it goes on.
Put together from what frames lead to and from what becomes of a suspended coroutine, this says what
the next turn does.

* `sound_new`, `coherent_new`, `proceeds_runSource` — sessions start sound, and a program is steps;
* `TurnSuspends` — the turn in which a coroutine is suspended; `TurnSuspends.kept` — what it leaves;
* `resumed_turn` — the next turn is a run of the body from what was kept;
* `ByColumns`, `resumption_by_columns` — it goes on with the suspended statement exactly if the frames
  fit, and what happens otherwise.
-/
import Rewind.Proofs.Fate
import Rewind.Proofs.Reentry
import Rewind.Session

namespace Rewind

open Eval World

/-! ### Sessions -/

theorem sound_new (env : Environment) : (Machine.new env).world.Sound := by
  refine ⟨fun {r f} h => ?_, fun {r c} h => ?_⟩
  · simp [Machine.new, Arena.get?] at h
  · simp [Machine.new, Arena.get?] at h

theorem coherent_new (env : Environment) :
    ((Machine.new env).situation .idle).Coherent := by
  have none (r : Ref .coroutine) : (Machine.new env).world.coroutines.get r = default := by
    simp [Machine.new, Arena.get, Arena.get?]
  refine ⟨⟨List.nodup_nil, fun h => ?_, fun {t r} h => ?_, fun {r} _ => ?_⟩, running_none _, ?_⟩
  · contradiction
  · rw [show ((Machine.new env).situation .idle).world = (Machine.new env).world from rfl, none] at h
    contradiction
  · rw [show ((Machine.new env).situation .idle).world = (Machine.new env).world from rfl, none]
    rfl
  · intro r h
    contradiction

/-- What is reached in a session: programs, and loops inside of programs, are steps. -/
def Reachable (env : Environment) (s : Situation) : Prop :=
  Steps ((Machine.new env).situation .idle) s

theorem Reachable.sound {env : Environment} {s : Situation} (h : Reachable env s) :
    s.world.Sound := Steps.sound h (sound_new env)

theorem Reachable.coherent {env : Environment} {s : Situation} (h : Reachable env s) :
    s.Coherent := Steps.coherent h (coherent_new env)

theorem runSource_run {m : Machine} {text : String} {cursor : Cursor} (fuel : Nat)
    (hc : Cursor.ofSource ⟨m.sources, text.toList⟩ = .ok cursor) :
    m.runSource text fuel =
      match (jobs fuel).body 1 { m with
        sources := m.sources + 1, thread := { cursor, scope := m.globals } } with
      | .ok status m => ((Machine.ending m.world status).mapError .failure, m)
      | .error fault m => (.error fault, m) := by
  unfold Machine.runSource
  dsimp only
  split
  · rename_i fault h
    exact absurd (hc.symm.trans h) (by simp)
  · rename_i c h
    obtain rfl := Except.ok.inj (h.symm.trans hc)
    rfl

/-- A program that is run between two others is steps of the session, however it ends. -/
theorem proceeds_runSource {m : Machine} (text : String) (fuel : Nat) (hw : m.world.Sound)
    (hv : m.weaving = false) :
    Proceeds (m.situation .idle) ((m.runSource text fuel).2.situation .idle) ∧
      (m.runSource text fuel).2.weaving = false ∧
      ∀ fault, (m.runSource text fuel).1 = .error fault →
        fault.Arises (m.situation .idle) (m.runSource text fuel).2 := by
  cases hc : Cursor.ofSource ⟨m.sources, text.toList⟩ with
  | error lex =>
    simp only [Machine.runSource, hc]
    exact ⟨.refl _, hv, fun fault h => Except.error.inj h ▸ trivial⟩
  | ok cursor =>
    rw [runSource_run fuel hc]
    let m₁ : Machine := { m with
      sources := m.sources + 1, thread := { cursor, scope := m.globals } }
    have ready : Ready .idle m₁ :=
      ⟨(Cursor.sound_ofSource hc).1, hw, .inl rfl, by simp [m₁, hv], by simp [m₁], by simp [m₁]⟩
    have h := (works_jobs fuel).body (A := fun _ => True) 1 .idle m₁ ready (.inl rfl) trivial
    rw [show { m with sources := m.sources + 1, thread := { cursor, scope := m.globals } } = m₁
      from rfl]
    cases hb : (jobs fuel).body 1 m₁ with
    | error fault m' =>
      rw [hb] at h
      exact ⟨h.2.1, h.1.weaving.trans hv, fun _ he => Except.error.inj he ▸ h.2.2⟩
    | ok status m' =>
      rw [hb] at h
      -- what a program ends with of its own accord is at most an exception nobody caught
      have ends (w : World) (fault : Fault)
          (he : (Machine.ending w status).mapError Fault.failure = .error fault) :
          fault.Arises (m.situation .idle) m' := by
        unfold Machine.ending at he
        split at he
        · exact Except.error.inj he ▸ trivial
        · contradiction
      cases status with
      | yielded =>
        obtain ⟨⟨r, -, hidle, -⟩, -⟩ := h
        contradiction
      | normal => exact ⟨h.2, h.1.weaving.trans hv, ends m'.world⟩
      | leaving signal => exact ⟨h.2, h.1.weaving.trans hv, ends m'.world⟩

/-! ### The turn in which a coroutine is suspended -/

namespace World

theorem Evolves.isDone {w w' : World} (h : Evolves w w') {r : Ref .coroutine}
    (hd : (w.coroutines.get r).isDone = true) : (w'.coroutines.get r).isDone = true :=
  (h.done hd).1

end World

/-- The coroutine `r` is at the head of the queue, takes its turn and is suspended in it. -/
def TurnSuspends (fuel : Nat) (r : Ref .coroutine) (m m' : Machine) : Prop :=
  ∃ rest, m.world.loop.ready = r :: rest ∧ runTurn (jobs fuel) r (dequeued m rest) = .ok () m' ∧
    (m'.world.coroutines.get r).stage = .suspendedAwait

section Suspension

variable {env : Environment} {fuel : Nat} {r : Ref .coroutine} {m m' : Machine}
  (h : TurnSuspends fuel r m m') (hm : Reachable env (m.situation .looping))
  (hv : m.weaving = true)
include h hm hv

theorem TurnSuspends.reachable : Reachable env (m'.situation .looping) := by
  obtain ⟨rest, hq, hrun, -⟩ := h
  have looped := looped_turn (works_jobs fuel) hm.sound hv hq
  rw [hrun] at looped
  exact Relation.ReflTransGen.trans hm looped.2.steps

/-- A turn in which a coroutine is suspended is a run of its body that yields: in all other cases
the coroutine is as it was in the queue, or done. -/
theorem TurnSuspends.yields : ∃ (body : Script) (t m₁ : Machine),
    Step (m.situation .looping) (t.situation (.turn r)) ∧ Ready (.turn r) t ∧ Resumable t ∧
      t.thread.parked = [] ∧ m.world.Runs r body ∧ t.thread.cursor.source = body.source ∧
      (jobs fuel).body (body.column + 4) t = .ok .yielded m₁ ∧
      m'.world = keepTurn r m₁.thread m₁.world := by
  obtain ⟨rest, hq, hrun, hst⟩ := h
  have hw := hm.sound
  -- whoever is in the queue is not waiting, so it began to wait in this turn
  have waiting : (m.world.coroutines.get r).stage ≠ .suspendedAwait := by
    have hqueued := hm.coherent.world.queued (r := r) (by
      show r ∈ m.world.loop.ready
      simp [hq])
    intro hs
    obtain hs' | hs' := hqueued <;> exact absurd (hs'.symm.trans hs) (by decide)
  -- a coroutine that has ended is done, and this one waits
  have ended {w : World} {outcome : Outcome} (hg : w.Has r)
      (he : m'.world = w.finish r outcome) : False := by
    have hd := World.isDone_finish outcome hg
    rw [← he, Coroutine.isDone, hst] at hd
    contradiction
  rw [runTurn_run] at hrun
  split at hrun
  · obtain rfl := (EStateM.Result.ok.inj hrun).2
    exact absurd hst waiting
  rename_i hd
  have hd : (m.world.coroutines.get r).isDone = false := Bool.eq_false_iff.2 hd
  split at hrun
  · rename_i f owner hk
    have hg : m.world.Has r := World.get?_of_script hk
    split at hrun
    · obtain rfl := (EStateM.Result.ok.inj hrun).2
      exact (ended (w := (dequeued m rest).world) hg rfl).elim
    rename_i hx
    have hx : (m.world.coroutines.get r).isCancelled = true →
        (m.world.coroutines.get r).frames ≠ [] := fun hc hf => hx (by simp [hc, hf])
    split at hrun
    · contradiction
    rename_i scope hsc
    split at hrun
    · contradiction
    rename_i body hf
    split at hrun
    · contradiction
    rename_i cursor hcur
    obtain ⟨begins, ready, resumable, runs, source⟩ :=
      turn_begins hw hv hq hd hk hsc hx hf hcur
    split at hrun
    · rename_i status m₁ hrun₁
      obtain rfl := (EStateM.Result.ok.inj hrun).2
      have hbody := (works_jobs fuel).body (A := fun _ => True) (body.column + 4) (.turn r) _ ready
        resumable trivial
      rw [hrun₁] at hbody
      have past {outcome : Outcome}
          (hp : Passes (.turn r) (bodyMachine m r rest f owner scope cursor) m₁)
          (he : (endTurn r m₁ status).world =
            (m₁.world.clearScope m₁.thread.scope).finish r outcome) : False := by
        refine ended ?_ he
        obtain ⟨c, f', owner', hc', -⟩ := hp.2.steps.runs (begins.runs runs)
        exact hc'.trans (congrArg some (get_of_get? hc').symm)
      cases status with
      | normal => exact (past hbody rfl).elim
      | leaving signal => exact (past hbody rfl).elim
      | yielded => exact ⟨body, _, m₁, begins, ready, resumable, rfl, runs, source, hrun₁, rfl⟩
    · contradiction
  · obtain rfl := (EStateM.Result.ok.inj hrun).2
    exact absurd hst waiting

end Suspension

/-- The coroutine `r`, which runs `body`, was suspended in the statement at `p` inside the constructs
`outer`, and has kept the scope, the tape and the frames that `k` says. -/
structure SuspendedAt (r : Ref .coroutine) (body : Script) (p : Position) (outer : List Frame)
    (k : Suspension) : Prop where
  chain : Chain body.source k.frames
  frames : k.frames = outer ++ [⟨p, .simple⟩]
  halted : ∃ fuel n m m', m.thread.cursor.capture = p ∧
    enter (jobs fuel) n p m = .error .suspended m' ∧ m'.thread.scope = k.scope ∧
    m'.thread.tape = k.tape ∧ (m'.world.coroutines.get r).Waits k.target

/-- What a turn in which a coroutine is suspended leaves. -/
theorem TurnSuspends.kept {env : Environment} {fuel : Nat} {r : Ref .coroutine} {m m' : Machine}
    (h : TurnSuspends fuel r m m') (hm : Reachable env (m.situation .looping))
    (hv : m.weaving = true) :
    ∃ body p outer k, m'.world.Runs r body ∧ SuspendedAt r body p outer k ∧
      Fate m'.world r k fun _ => False := by
  obtain ⟨body, t, m₁, begins, ready, resumable, hnone, runs, source, hrun, hworld⟩ :=
    h.yields hm hv
  have hbody := (works_jobs fuel).body (A := fun _ => True) (body.column + 4) (.turn r) t ready
    resumable trivial
  rw [hrun] at hbody
  obtain ⟨⟨r', frames, hr', hp, hsteps⟩, -⟩ := hbody
  obtain rfl : r = r' := by simpa using hr'
  obtain ⟨target, hwaits⟩ := (Steps.coherent hsteps.steps (begins.coherent hm.coherent)).waiting rfl
  have hparked : m₁.thread.parked = frames := by rw [hp.parked, hnone, List.append_nil]
  have chain : Chain body.source m₁.thread.parked := by
    rw [hparked, ← source]
    exact hp.chain
  obtain ⟨outer, p, hframes⟩ := chain.split
  obtain ⟨fuel', n, ms, ms', hrun', hlast, hscope, htape, hworld'⟩ := hp.halted
  -- the innermost frame was parked by the statement that was interrupted, at its start
  have hplace : ms.thread.cursor.capture = p := by
    rw [← hparked, hframes, List.getLast?_concat] at hlast
    exact (congrArg Frame.start (Option.some.inj hlast)).symm
  rw [hworld]
  refine ⟨body, p, outer, ⟨target, m₁.thread.parked, m₁.thread.scope, m₁.thread.tape⟩, ?_,
    ⟨chain, hframes, fuel', n, ms, ms', hplace, hplace ▸ hrun', hscope, htape, ?_⟩,
    fate_keepTurn m₁.thread hwaits⟩
  · exact (hsteps.steps.runs (begins.runs runs)).keepTurn r m₁.thread
  · rw [hworld']
    exact hwaits

/-! ### The turn in which it goes on -/

/-- The coroutine `r` takes its turn on the machine `t`, with what it has kept and, behind the
outcomes on its tape, the one it has waited for. -/
structure ResumedOn (r : Ref .coroutine) (body : Script) (k : Suspension) (outcome : Outcome)
    (t : Machine) : Prop where
  source : t.thread.cursor.source = body.source
  resume : t.thread.resume = k.frames
  scope : t.thread.scope = k.scope
  tape : t.thread.tape = k.tape.inject outcome
  task : t.thread.task = some r

/-- The turn of a coroutine that was suspended is a run of its body from what it has kept. -/
theorem resumed_turn {env : Environment} {m : Machine} {r : Ref .coroutine} {body : Script}
    {k : Suspension} {rest : List (Ref .coroutine)} {came : Outcome → Prop}
    (hm : Reachable env (m.situation .looping)) (hb : m.world.Runs r body)
    (hf : Fate m.world r k came) (hframes : k.frames ≠ [])
    (hq : m.world.loop.ready = r :: rest) (hd : (m.world.coroutines.get r).isDone = false) :
    ∃ outcome t, came outcome ∧ ResumedOn r body k outcome t ∧
      ∀ j, runTurn j r (dequeued m rest) = match j.body (body.column + 4) t with
        | .ok status m' => .ok () (endTurn r m' status)
        | .error fault m' => .error fault m' := by
  obtain ⟨hscope, hkept, outcome, htape, hsent⟩ :=
    hf.at_turn hm.coherent.world (by rw [hq]; simp) hd
  obtain ⟨c, f, owner, hc, hk, hfun⟩ := hb
  rw [← get_of_get? hc] at hk
  have hmarks : body.source.Marks body.entry := by
    cases hg : m.world.functions.get? f with
    | none => simp [Arena.get, hg, default] at hfun
    | some g => exact hm.sound.functions hg body (by simpa [Arena.get, hg] using hfun)
  obtain ⟨token, behind, htoken, hstart⟩ := hmarks
  -- the body's entry is marked in its source, so a cursor can be set there
  have hat : Cursor.at? body.source body.entry = .ok ⟨body.source, token, behind, 0⟩ := by
    rw [← hstart]
    exact Cursor.at?_eq htoken
  refine ⟨outcome, bodyMachine m r rest f owner k.scope ⟨body.source, token, behind, 0⟩, hsent,
    ⟨rfl, hkept, rfl, htape, rfl⟩, fun j => ?_⟩
  have hx : ((m.world.coroutines.get r).isCancelled &&
      (m.world.coroutines.get r).frames.isEmpty) = false := by
    rw [hkept]
    simp [hframes]
  have run := runTurn_run j r m rest
  simp only [hd, hk, hx, hscope, hfun, hat, Bool.false_eq_true, if_false] at run
  exact run

/-- What a run from frames comes to by the columns of the frames.  If they fit, the suspended
statement runs again, on a machine that has come to its start with all that the resumed one has, and
the constructs around go on with how it ends.  Else the first frame that does not fit decides: if it
starts right of its body the text is rejected, and if it starts left of it that body is over. -/
structure ByColumns (column : Nat) (t : Machine) : Prop where
  resumes : ∀ (n : Nat) {outer : List Frame} {p : Position},
    t.thread.resume = outer ++ [⟨p, .simple⟩] → Fits column t.thread.resume →
    ∃ m', Reaches p t m' ∧ m'.thread.resume = [] ∧
      (jobs (n + 2 + outer.length)).body column t = unwind (n + 1) column outer t
        (goOn p.column (statements (jobs (n + 1)) p.column n)
          (conclude p (statement (jobs (n + 1)) n)) m')
  rejects : ∀ (n : Nat) {outer : List Frame} {f : Frame} {rest : List Frame},
    t.thread.resume = outer ++ f :: rest → Fits column outer →
    column + 4 * outer.length < f.start.column →
    ∃ m', (jobs (n + 2 + outer.length)).body column t =
      .error (.failure (.malformed
        (.unexpectedIndentation (column + 4 * outer.length) f.start.column) f.start.line
        f.start.column)) m'
  skips : ∀ (n : Nat) {outer : List Frame} {f : Frame} {rest : List Frame},
    t.thread.resume = outer ++ f :: rest → Fits column outer →
    f.start.column < column + 4 * outer.length →
    ∃ m', Reaches f.start t m' ∧ (jobs (n + 2 + outer.length)).body column t =
      unwind (n + 1) column outer t (.ok .normal m')

theorem byColumns {column : Nat} {t : Machine}
    (hc : Chain t.thread.cursor.source t.thread.resume) : ByColumns column t :=
  ⟨fun n _ _ hr hf => body_resumes n hr hc hf, fun n _ _ _ hr hf => body_rejects n hr hc hf,
    fun n _ _ _ hr hf => body_skips n hr hc hf⟩

/-- A coroutine is suspended in a statement of a reachable loop, which then goes on without it.  When
its turn comes, unless it was ended meanwhile, it goes on in its scope with the outcome it has waited
for; whether it comes to the suspended statement is decided by the columns of its frames alone. -/
theorem resumption_by_columns {env : Environment} {fuel : Nat} {m₀ m₁ m : Machine}
    {r : Ref .coroutine} {rest : List (Ref .coroutine)}
    (reachable : Reachable env (m₀.situation .looping)) (weaving : m₀.weaving = true)
    (suspends : TurnSuspends fuel r m₀ m₁)
    (without : Without r (m₁.situation .looping) (m.situation .looping))
    (next : m.world.loop.ready = r :: rest) (alive : (m.world.coroutines.get r).isDone = false) :
    ∃ body p outer k outcome t, SuspendedAt r body p outer k ∧
      Brings r k.target outcome (m₁.situation .looping) (m.situation .looping) ∧
      ResumedOn r body k outcome t ∧
      (∀ j, runTurn j r (dequeued m rest) = match j.body (body.column + 4) t with
        | .ok status m' => .ok () (endTurn r m' status)
        | .error fault m' => .error fault m') ∧
      ByColumns (body.column + 4) t ∧
      (¬ Fits (body.column + 4) k.frames → ∃ around f inside, k.frames = around ++ f :: inside ∧
        Fits (body.column + 4) around ∧
        f.start.column ≠ body.column + 4 + 4 * around.length) := by
  obtain ⟨body, p, outer, k, runs, suspended, fate⟩ := suspends.kept reachable weaving
  have reached : Reachable env (m.situation .looping) :=
    Relation.ReflTransGen.trans (suspends.reachable reachable weaving) without.steps
  have hframes : k.frames ≠ [] := by simp [suspended.frames]
  obtain ⟨outcome, t, sent, resumed, turn⟩ := resumed_turn reached (without.steps.runs runs)
    (without.fate (suspends.reachable reachable weaving).coherent fate) hframes next alive
  -- the frames were parked in this body, each inside the one before
  have chain : Chain t.thread.cursor.source t.thread.resume := by
    rw [resumed.source, resumed.resume]
    exact suspended.chain
  exact ⟨body, p, outer, k, outcome, t, suspended, sent, resumed, turn, byColumns chain,
    exists_misfit⟩

/-! ### A coroutine that waits inside a branch -/

/-- A body in which a statement inside a branch waits for `t`. -/
def patientBody : Script :=
  { params := [], isAsync := true, source := ⟨1, "    if: true:\n        await t\n".toList⟩,
    entry := ⟨1, 4, 1, 5⟩, column := 1, scope := ⟨0⟩ }

/-- A world with that body, in which `t` is bound. -/
def patientWorld : World :=
  let w := (Machine.new {}).world
  { w with
    scopes := (w.scopes.define ⟨0⟩ "t" (.coroutine ⟨1⟩)).push { parent := some ⟨0⟩ }
    functions := w.functions.push ⟨"f", .script patientBody⟩ }

/-- A loop with a coroutine that runs the body, and a timer as `t`. -/
def patientLoop : Machine :=
  let f : Coroutine := { serial := 1, name := "f", kind := .script ⟨0⟩ none, scope := some ⟨1⟩ }
  let t : Coroutine := { serial := 2, name := "t", kind := .timer 5 }
  let w := { patientWorld with coroutines := (patientWorld.coroutines.push f).push t }
  { world := w.openLoop.start ⟨0⟩, weaving := true }

/-- The loop after the turn of that coroutine. -/
def patientTurn : Machine :=
  match runTurn (jobs 10) ⟨0⟩ (dequeued patientLoop []) with
  | .ok _ m => m
  | .error _ m => m

theorem reachable_patientWorld : Reachable {} ⟨.idle, patientWorld⟩ := by
  have marks : patientBody.source.Marks patientBody.entry := by
    have h : (Cursor.ofSource patientBody.source).toOption.map Cursor.capture =
        some patientBody.entry := by decide +kernel
    cases hc : Cursor.ofSource patientBody.source with
    | error fault =>
      rw [hc] at h
      contradiction
    | ok c =>
      obtain ⟨hsound, hsource⟩ := Cursor.sound_ofSource hc
      simp only [hc, Except.toOption, Option.map_some, Option.some.injEq] at h
      rw [← hsource, ← h]
      exact hsound.capture
  refine .single (.compute (by simp [Control.GoesOn]) rfl rfl
    ⟨[⟨"f", .script patientBody⟩], rfl, ?_⟩)
  intro f hf body hb
  obtain rfl := List.mem_singleton.1 hf
  obtain rfl := Body.script.inj hb
  exact marks

theorem reachable_patientLoop : Reachable {} (patientLoop.situation .looping) := by
  refine .tail (.tail (.tail reachable_patientWorld
    (.create 1 "f" (.script ⟨0⟩ none) (some ⟨1⟩) ?_ (admits_script _ _ _)))
    (.create 2 "t" (.timer 5) none ?_ (admits_timer _ _))) (.opening ⟨0⟩ rfl rfl rfl)
  all_goals simp [Control.GoesOn]

theorem suspends_patientLoop : TurnSuspends 10 ⟨0⟩ patientLoop patientTurn := by
  obtain ⟨h, waits⟩ : (match runTurn (jobs 10) ⟨0⟩ (dequeued patientLoop []) with
      | .ok _ _ => true | .error _ _ => false) = true ∧
      (patientTurn.world.coroutines.get ⟨0⟩).stage = .suspendedAwait := by decide +kernel
  refine ⟨[], rfl, ?_, waits⟩
  unfold patientTurn
  cases hr : runTurn (jobs 10) ⟨0⟩ (dequeued patientLoop []) with
  | ok u m => rfl
  | error e m => simp [hr] at h

/-- A loop may move its clock on and end the timers that are due. -/
theorem without_polled (r : Ref .coroutine) (m : Machine) (wake : Nat) :
    Without r (m.situation .looping) ((polled (rested m wake)).situation .looping) := by
  refine .tail (.tail (.single ⟨.tick (by simp [Control.GoesOn]) (Nat.le_max_left _ wake), ?_⟩)
    ⟨.tick (by simp [Control.GoesOn]) (Nat.le_add_right _ _), ?_⟩) ⟨.poll, ?_⟩
  all_goals simp [Machine.situation, Control.By]

/-- The timer is done, and the coroutine is woken. -/
theorem woken_patientTurn :
    (polled (rested patientTurn 5)).world.loop.ready = [⟨0⟩] ∧
      ((polled (rested patientTurn 5)).world.coroutines.get ⟨0⟩).isDone = false := by
  decide +kernel

theorem resumption_of_patientLoop :
    ∃ body p outer k outcome t, SuspendedAt ⟨0⟩ body p outer k ∧
      Brings ⟨0⟩ k.target outcome (patientTurn.situation .looping)
        ((polled (rested patientTurn 5)).situation .looping) ∧
      ResumedOn ⟨0⟩ body k outcome t ∧
      (∀ j, runTurn j ⟨0⟩ (dequeued (polled (rested patientTurn 5)) []) =
        match j.body (body.column + 4) t with
        | .ok status m' => .ok () (endTurn ⟨0⟩ m' status)
        | .error fault m' => .error fault m') ∧
      ByColumns (body.column + 4) t := by
  obtain ⟨body, p, outer, k, outcome, t, suspended, sent, resumed, turn, columns, -⟩ :=
    resumption_by_columns reachable_patientLoop rfl suspends_patientLoop
      (without_polled ⟨0⟩ patientTurn 5) woken_patientTurn.1 woken_patientTurn.2
  exact ⟨body, p, outer, k, outcome, t, suspended, sent, resumed, turn, columns⟩

/-! ### A statement that shares its line -/

/-- What a run has printed, and the message of what has ended it early. -/
def account : Except Fault Unit × Machine → String × Option String
  | (.ok (), m) => (m.output, none)
  | (.error (.failure f), m) => (m.output, some f.message)
  | (.error .exhausted, m) => (m.output, some "")

/-- The second statement on a line runs through if it does not have to wait, and is rejected when it
is resumed: what was a place on a line is then taken for its start. -/
theorem shared_line_rejected_when_resumed :
    account ((Machine.new {}).runSource ("load: weaver as w\n" ++
      "async funct: g():\n    skip\n" ++
      "async funct: f(t):\n    skip: await t\n" ++
      "async funct: main():\n    let: t = g()\n    await t\n    await f(t)\n    show(\"fine\")\n" ++
      "    await f(g())\n" ++
      "w.weave(main())\n") 12) =
    ("fine\n", some "Unexpected indentation: expected column 5 but found column 11") := by
  decide +kernel

end Rewind
