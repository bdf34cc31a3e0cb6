/-
The discipline of the stack.

A statement that is over has left all the scopes that were entered in it, and everything else that
belongs to the thread is as it was when the statement was first entered, however many turns it has
taken.  So a coroutine ends in the scope of its arguments.  That holds as long as the frames to go on
from fit the columns of the bodies they stand in; one that does not fit makes a construct go on where
it should not.

* `Visits`, `Visits.restored` — a statement over several turns;
* `Housed`, `Housed.round` — a coroutine between its turns; `Housed.endsAt` — in its turn;
* `stack_discipline` — statements, coroutines, and how deep calls are;
* `wrong_scope_when_resumed` — a loop whose scope is not left.
-/
import Rewind.Proofs.Homecoming
import Rewind.Proofs.Yielding

namespace Rewind

open Coroutine World Eval

/-! ### Statements over several turns -/

/-- The evaluator is about to run the statement under the cursor, in a run of a program from the
directory `program`. -/
structure Facing (program : Option String) (m : Machine) : Prop where
  amid : m.Amid program
  ready : ∃ c, Ready c m
  colon : m.thread.cursor.kind ≠ .colon
  eof : m.thread.cursor.kind ≠ .eof
  parked : m.thread.parked = []

/-- The evaluator is back in `m'` where it was in `m` when a statement had yielded, and is about to
run the statement from the frames it has parked. -/
structure Returns (program : Option String) (m m' : Machine) : Prop extends
    Facing program m' where
  resume : m'.thread.resume = m.thread.parked
  place : m'.thread.resume.head?.map (·.start) = some m'.thread.cursor.capture
  fits : Fits m'.thread.cursor.capture.column m'.thread.resume
  source : m'.thread.cursor.source = m.thread.cursor.source
  scope : m'.thread.scope = m.thread.scope
  mode : m'.thread.mode = m.thread.mode
  skip : m'.thread.skip = m.thread.skip
  callDepth : m'.callDepth = m.callDepth
  scopes : m.world.scopes.Grows m'.world.scopes

/-- What comes of the statement under the cursor of `m`, which is entered there and, whenever it has
yielded, is entered again. -/
inductive Visits (program : Option String) (m : Machine) :
    EStateM.Result Fault Machine Status → Prop
  | entered (fuel n : Nat) : Facing program m → m.thread.resume = [] →
      Visits program m (execute (jobs fuel) n m)
  | again (fuel n : Nat) {m₁ m₂ : Machine} : Visits program m (.ok .yielded m₁) →
      Returns program m₁ m₂ → Visits program m (execute (jobs fuel) n m₂)

/-- The thread is in the scope `home`, with no frames left, and all else is as it was in `m`. -/
structure Restored (home : Ref .scope) (m m' : Machine) : Prop where
  scope : m'.thread.scope = home
  resume : m'.thread.resume = []
  parked : m'.thread.parked = []
  mode : m'.thread.mode = m.thread.mode
  skip : m'.thread.skip = m.thread.skip
  callDepth : m'.callDepth = m.callDepth

/-- The thread has yielded, as far inside `home` as its frames tell, and all else is as in `m`. -/
structure Stopped (home : Ref .scope) (m m' : Machine) : Prop where
  chain : Chain m.thread.cursor.source m'.thread.parked
  inside : m'.world.scopes.Inside (scopesIn m'.thread.parked) m'.thread.scope home
  source : m'.thread.cursor.source = m.thread.cursor.source
  mode : m'.thread.mode = m.thread.mode
  skip : m'.thread.skip = m.thread.skip
  callDepth : m'.callDepth = m.callDepth

/-- How the run of a statement or body that began in `m` leaves the thread. -/
def EndsAt (home : Ref .scope) (m : Machine) : EStateM.Result Fault Machine Status → Prop
  | .ok .yielded m' => Stopped home m m'
  | .ok _ m' => Restored home m m'
  | .error _ _ => True

section Visits

variable {program : Option String} {home : Ref .scope} {c : Control} {m m₁ m₂ : Machine}
  {r : EStateM.Result Fault Machine Status}

/-- What is carried on and comes home is stopped or restored. -/
theorem Homes.endsAt (h : Homes false home m r) (hc : Carried false c m r)
    (hp : m.thread.parked = []) : EndsAt home m r := by
  have restored {m' : Machine} (h : AtHome home m') (hc : Passes c m m') : Restored home m m' :=
    ⟨h.scope, h.resume, hc.1.parked.trans hp, hc.1.mode, hc.1.skip, hc.1.callDepth⟩
  cases r with
  | error f m' => trivial
  | ok status m' =>
    cases status with
    | normal => exact restored h hc
    | leaving signal => exact restored h hc
    | yielded =>
      obtain ⟨-, frames, hf, hin⟩ := h
      obtain ⟨⟨task, frames', -, parked, -⟩, -⟩ := hc
      rw [hp, List.append_nil] at hf
      refine ⟨?_, hf ▸ hin, parked.source, parked.mode, parked.skip, parked.callDepth⟩
      have chain := parked.chain
      rwa [← List.append_nil frames', ← hp, ← parked.parked] at chain

theorem Stopped.trans (h : Stopped home m m₁)
    (hs : m₂.thread.cursor.source = m₁.thread.cursor.source)
    (hm : m₂.thread.mode = m₁.thread.mode) (hk : m₂.thread.skip = m₁.thread.skip)
    (hd : m₂.callDepth = m₁.callDepth) (h' : EndsAt home m₂ r) : EndsAt home m r := by
  cases r with
  | error f m' => trivial
  | ok status m' =>
    have restored (h' : Restored home m₂ m') : Restored home m m' :=
      ⟨h'.scope, h'.resume, h'.parked, h'.mode.trans (hm.trans h.mode),
        h'.skip.trans (hk.trans h.skip), h'.callDepth.trans (hd.trans h.callDepth)⟩
    cases status with
    | normal => exact restored h'
    | leaving signal => exact restored h'
    | yielded =>
      have source := hs.trans h.source
      exact ⟨source ▸ h'.chain, h'.inside, h'.source.trans source, h'.mode.trans (hm.trans h.mode),
        h'.skip.trans (hk.trans h.skip), h'.callDepth.trans (hd.trans h.callDepth)⟩

/-- A statement that is over has left everything as it was when it was first entered. -/
theorem Visits.restored (h : Visits program m r) : EndsAt m.thread.scope m r := by
  induction h with
  | entered fuel n facing hr =>
    -- the statement is met for the first time
    obtain ⟨c, ready⟩ := facing.ready
    have poised : Poised program (fun _ => True) c m := ⟨ready, facing.amid, trivial⟩
    exact (homes_execute (tidy_jobs fuel) n poised hr facing.colon).endsAt
      (carried_execute (works_jobs fuel) n ready (.inl hr) facing.colon facing.eof) facing.parked
  | @again fuel n m₁ m₂ _ back ih =>
    obtain ⟨c, ready⟩ := back.ready
    have poised : Poised program (fun _ => True) c m₂ := ⟨ready, back.amid, trivial⟩
    have stopped : Stopped m.thread.scope m m₁ := ih
    have chain := stopped.chain
    rw [← back.resume, ← stopped.source, ← back.source] at chain
    refine stopped.trans back.source back.mode back.skip back.callDepth ?_
    refine Homes.endsAt ?_
      (carried_execute (works_jobs fuel) n ready (.inr chain) back.colon back.eof) back.parked
    -- whatever went on meanwhile, the scopes that were parked are still inside one another
    have inside := stopped.inside.grows back.scopes
    rw [← back.scope, ← back.resume] at inside
    have fits := back.fits
    have place := back.place
    cases hres : m₂.thread.resume with
    | nil =>
      rw [hres] at place
      contradiction
    | cons f rest =>
      rw [hres] at chain inside fits place
      have start : f.start = m₂.thread.cursor.capture := Option.some.inj place
      exact homes_execute_frame (tidy_jobs fuel) n poised back.colon hres start chain
        (by rw [start]; exact fits.2) inside

end Visits

/-! ### Coroutines -/

namespace Coroutine

/-- The coroutine still has what it goes on with, or it has nothing to go on with any more. -/
def Holds (c c' : Coroutine) : Prop :=
  c'.scope = none ∨ c'.scope = c.scope ∧ c'.frames = c.frames

variable {c c' c'' : Coroutine}

theorem Holds.refl (c : Coroutine) : Holds c c := .inr ⟨rfl, rfl⟩

theorem Holds.trans (h : Holds c c') (h' : Holds c' c'') : Holds c c'' := by
  obtain hn | ⟨hs, hf⟩ := h'
  · exact .inl hn
  · exact h.imp hs.trans fun ⟨hs', hf'⟩ => ⟨hs.trans hs', hf.trans hf'⟩

theorem Holds.none (h : Holds c c') (hn : c.scope = none) : c'.scope = none :=
  h.elim id fun ⟨hs, _⟩ => hs.trans hn

theorem Changes.holds (h : Changes c c') : Holds c c' := by
  induction h with
  | refl => exact .refl c
  | tail _ hc ih =>
    refine ih.trans ?_
    cases hc with
    | release => exact .inl rfl
    | _ => exact .inr ⟨rfl, rfl⟩

end Coroutine

namespace World

variable {w w' : World} {r : Ref .coroutine}

theorem Evolves.holds (h : Evolves w w') (hr : w.Has r) :
    (w.coroutines.get r).Holds (w'.coroutines.get r) := by
  obtain ⟨c, hc, hcc⟩ := h.changes hr
  rw [get_of_get? hc]
  exact hcc.holds

theorem holds_modifyCoroutine (s : Ref .coroutine) (f : Coroutine → Coroutine)
    (hf : ∀ c, (f c).scope = c.scope ∧ (f c).frames = c.frames) :
    (w.coroutines.get r).Holds ((w.modifyCoroutine s f).coroutines.get r) :=
  .inr ⟨field_modifyCoroutine w s f Coroutine.scope (fun c => (hf c).1) r,
    field_modifyCoroutine w s f Coroutine.frames (fun c => (hf c).2) r⟩

/-- The frames of the coroutine lead from the scope it stands in to `home`. -/
def Leads (w : World) (r : Ref .coroutine) (home : Ref .scope) : Prop :=
  ∀ s, (w.coroutines.get r).scope = some s →
    w.scopes.Inside (scopesIn (w.coroutines.get r).frames) s home

variable {home : Ref .scope}

theorem Leads.holds (h : w.Leads r home) (hr : (w.coroutines.get r).Holds (w'.coroutines.get r))
    (hs : w.scopes.Grows w'.scopes) : w'.Leads r home := by
  intro s hscope
  obtain hn | ⟨hsame, hf⟩ := hr
  · rw [hn] at hscope
    contradiction
  · rw [hf]
    exact (h s (hsame ▸ hscope)).grows hs

end World

/-- Unless the coroutine is kept after its turn, it holds what it goes on with or loses it. -/
theorem Step.holds {s s' : Situation} (h : Step s s') {r : Ref .coroutine} (hr : s.world.Has r)
    (hw : s.control ≠ .waiting r ∨ s'.control ≠ .looping) :
    (s.world.coroutines.get r).Holds (s'.world.coroutines.get r) := by
  obtain ⟨c, w⟩ := s
  obtain ⟨c', w'⟩ := s'
  dsimp only at hr hw ⊢
  -- what a step does to this coroutine, if anything
  obtain ⟨he, -⟩ | ⟨hc, -⟩ | ⟨x, -, -, -, -, -, -, -, -, rfl⟩ | ⟨s, -, -, -, rfl⟩ |
    ⟨s, t, -, -, -, -, rfl⟩ | ⟨s, rest, scope, f, owner, -, -, -, -, -, -, rfl⟩ |
    ⟨s, body, t, rfl, rfl, -, -, rfl⟩ | ⟨-, rfl⟩ := h.cases
  · exact (he none (.inl rfl) (active_none w)).evolves.holds hr
  · rw [hc]
    exact .refl _
  · rw [show Arena.get _ r = _ from get_push hr x]
    exact .refl _
  · exact holds_modifyCoroutine s _ fun _ => ⟨rfl, rfl⟩
  · exact (holds_modifyCoroutine (w := w) s
      (fun c => { c with stage := .suspendedAwait, awaiting := some t }) fun _ => ⟨rfl, rfl⟩).trans
      (holds_modifyCoroutine t (fun c => { c with waiters := c.waiters ++ [s] })
        fun _ => ⟨rfl, rfl⟩)
  · by_cases hs : r = s
    · subst hs
      exact .inl (congrArg Coroutine.scope (get_modifyCoroutine (w := { w with
        loop := { w.loop with ready := rest } }) r _ hr))
    · rw [show Arena.get _ r = _ from get_modifyCoroutine_of_ne (w := { w with
        loop := { w.loop with ready := rest } }) s _ hs]
      exact .refl _
  · have hs : r ≠ s := by
      rintro rfl
      simp at hw
    have kept : (keepTurn s t w).coroutines.get r = w.coroutines.get r := by
      simp only [keepTurn]
      split
      · exact (get_modifyCoroutine_of_ne _ s _ hs).trans (get_modifyCoroutine_of_ne _ s _ hs)
      · exact get_modifyCoroutine_of_ne _ s _ hs
    rw [kept]
    exact .refl _
  · exact (evolves_teardown w).holds hr

theorem Uninterrupted.steps {s s' : Situation} (h : Uninterrupted s s') : Steps s s' :=
  Relation.ReflTransGen.mono (fun _ _ h => h.1) _ _ h

theorem Uninterrupted.holds {s s' : Situation} (h : Uninterrupted s s') {r : Ref .coroutine}
    (hr : s.world.Has r) : (s.world.coroutines.get r).Holds (s'.world.coroutines.get r) := by
  induction h with
  | refl => exact .refl _
  | @tail s₁ s₂ hsteps hstep ih =>
    refine ih.trans (hstep.1.holds (Steps.has (Uninterrupted.steps hsteps) hr)
      (.inr fun hl => hstep.2.1 ?_))
    rw [← hstep.2.2, hl]
    rfl

/-- In its turn the coroutine `r` runs `body` on the machine `t`. -/
def BodyTurn (m : Machine) (r : Ref .coroutine) (rest : List (Ref .coroutine)) (body : Script)
    (t : Machine) : Prop :=
  m.world.loop.ready = r :: rest ∧ (m.world.coroutines.get r).isDone = false ∧
    ((m.world.coroutines.get r).isCancelled = true → (m.world.coroutines.get r).frames ≠ []) ∧
    ∃ f owner scope cursor, (m.world.coroutines.get r).kind = .script f owner ∧
      (m.world.coroutines.get r).scope = some scope ∧
      (m.world.functions.get f).body = .script body ∧
      Cursor.at? body.source body.entry = .ok cursor ∧
      t = bodyMachine m r rest f owner scope cursor

section Turns

variable {j : Jobs} {m m' t : Machine} {r : Ref .coroutine} {rest : List (Ref .coroutine)}
  {body : Script}

/-- A turn that comes to its end is a run of the body, if it is not over at once. -/
theorem turn_cases (hr : m.world.loop.ready = r :: rest)
    (run : runTurn j r (dequeued m rest) = .ok () m') :
    m' = dequeued m rest ∨
    ((m.world.coroutines.get r).isCancelled = true ∧
      m' = { m with
        world := (dequeued m rest).world.finish r (.error (Coroutine.cancellation 0 0)) }) ∨
    ∃ body t status m₁, BodyTurn m r rest body t ∧
      j.body (body.column + 4) t = .ok status m₁ ∧ m' = endTurn r m₁ status := by
  rw [runTurn_run] at run
  -- every way in which a turn is refused ends the run with an error, or at once
  split at run
  · exact .inl (EStateM.Result.ok.inj run).2.symm
  rename_i hd
  split at run
  · rename_i f owner hk
    split at run
    · rename_i hx
      exact .inr (.inl ⟨(Bool.and_eq_true_iff.1 hx).1, (EStateM.Result.ok.inj run).2.symm⟩)
    rename_i hx
    split at run
    · contradiction
    rename_i scope hs
    split at run
    · contradiction
    rename_i body hf
    split at run
    · contradiction
    rename_i cursor hc
    split at run
    · rename_i status m₁ hb
      refine .inr (.inr ⟨body, _, status, m₁, ⟨hr, Bool.eq_false_iff.2 hd, fun hc hf => hx ?_, f,
        owner, scope, cursor, hk, hs, hf, hc, rfl⟩, hb, (EStateM.Result.ok.inj run).2.symm⟩)
      simp [hc, hf]
    · contradiction
  · exact .inl (EStateM.Result.ok.inj run).2.symm

variable (turn : BodyTurn m r rest body t) (hw : m.world.Sound) (hv : m.weaving = true)

include turn hw hv

theorem BodyTurn.begins : Step (m.situation .looping) (t.situation (.turn r)) ∧
    Ready (.turn r) t ∧ Resumable t ∧ m.world.Runs r body ∧
      t.thread.cursor.source = body.source := by
  obtain ⟨hr, hd, hx, f, owner, scope, cursor, hk, hs, hf, hc, rfl⟩ := turn
  exact turn_begins hw hv hr hd hk hs hx hf hc

end Turns

section Turns

variable {program : Option String} {fuel : Nat} {m m' t : Machine} {r s : Ref .coroutine}
  {rest : List (Ref .coroutine)} {body : Script} {status : Status} {home : Ref .scope}

theorem BodyTurn.amid (turn : BodyTurn m r rest body t) (hm : m.Amid program) : t.Amid program := by
  obtain ⟨-, -, -, f, owner, scope, cursor, -, -, -, -, rfl⟩ := turn
  exact hm.of_eq rfl rfl hm.depth rfl

theorem BodyTurn.parked (turn : BodyTurn m r rest body t) : t.thread.parked = [] := by
  obtain ⟨-, -, -, f, owner, scope, cursor, -, -, -, -, rfl⟩ := turn
  rfl

/-- The machine of a turn has taken what the coroutine goes on with. -/
theorem BodyTurn.takes (turn : BodyTurn m r rest body t) :
    (m.world.coroutines.get r).scope = some t.thread.scope ∧
      t.thread.resume = (m.world.coroutines.get r).frames ∧
      (t.world.coroutines.get r).scope = none ∧ t.world.scopes = m.world.scopes := by
  obtain ⟨-, -, -, f, owner, scope, cursor, hk, hs, -, -, rfl⟩ := turn
  have hr : m.world.Has r := World.get?_of_script hk
  exact ⟨hs, rfl, congrArg Coroutine.scope (get_modifyCoroutine (dequeued m rest).world r _ hr), rfl⟩

theorem get_keepTurn_of_ne (w : World) (thread : Thread) (hs : r ≠ s) :
    (keepTurn s thread w).coroutines.get r = w.coroutines.get r := by
  simp only [keepTurn]
  split
  · exact (get_modifyCoroutine_of_ne _ s _ hs).trans (get_modifyCoroutine_of_ne _ s _ hs)
  · exact get_modifyCoroutine_of_ne _ s _ hs

theorem keeps_keepTurn {w : World} (thread : Thread) (hr : w.Has r) :
    ((keepTurn r thread w).coroutines.get r).scope = some thread.scope ∧
      ((keepTurn r thread w).coroutines.get r).frames = thread.parked := by
  let w₁ := w.modifyCoroutine r fun c =>
    { c with scope := some thread.scope, frames := thread.parked, tape := thread.tape }
  have kept : w₁.coroutines.get r = { w.coroutines.get r with
      scope := some thread.scope, frames := thread.parked, tape := thread.tape } :=
    get_modifyCoroutine w r _ hr
  simp only [keepTurn]
  split
  · refine ⟨(field_modifyCoroutine w₁ r (fun c => { c with stage := .runnable }) Coroutine.scope
      (fun _ => rfl) r).trans ?_, (field_modifyCoroutine w₁ r (fun c => { c with
        stage := .runnable }) Coroutine.frames (fun _ => rfl) r).trans ?_⟩
    · rw [kept]
    · rw [kept]
  · exact ⟨congrArg Coroutine.scope kept, congrArg Coroutine.frames kept⟩

/-- The end of a turn. -/
theorem holds_endTurn (m : Machine) (hr : m.world.Has r) (hs : r ≠ s ∨ status ≠ .yielded) :
    (m.world.coroutines.get r).Holds ((endTurn s m status).world.coroutines.get r) := by
  have ended (outcome : Outcome) : (m.world.coroutines.get r).Holds
      (((m.world.clearScope m.thread.scope).finish s outcome).coroutines.get r) :=
    (events_finish (a := none) (m.world.clearScope m.thread.scope) s outcome (active_none _)
      (by simp)).evolves.holds hr
  cases status with
  | normal => exact ended _
  | leaving signal => exact ended _
  | yielded =>
    rw [endTurn, get_keepTurn_of_ne _ _ (hs.resolve_right (by simp))]
    exact .refl _

theorem stands_endTurn (m : Machine) (s : Ref .coroutine) (status : Status) :
    m.world.Stands (endTurn s m status).world := by
  have ended (outcome : Outcome) :
      m.world.Stands ((m.world.clearScope m.thread.scope).finish s outcome) :=
    (Stands.clearScope _ _).trans (stands_finish _ _ _)
  cases status with
  | normal => exact ended _
  | leaving signal => exact ended _
  | yielded =>
    rw [endTurn]
    simp only [keepTurn]
    split <;> exact .same rfl rfl

/-- A coroutine of a loop, which runs `body`: its frames fit the columns of the body, and they lead
from where it stands to `home`. -/
structure Housed (program : Option String) (r : Ref .coroutine) (body : Script) (home : Ref .scope)
    (m : Machine) : Prop where
  amid : m.Amid program
  sound : m.world.Sound
  weaving : m.weaving = true
  runs : m.world.Runs r body
  fits : Fits (body.column + 4) (m.world.coroutines.get r).frames
  leads : m.world.Leads r home

/-- In its turn it is stopped on the way or comes home. -/
theorem Housed.endsAt (h : Housed program r body home m) (turn : BodyTurn m r rest body t)
    (fuel : Nat) : EndsAt home t ((jobs fuel).body (body.column + 4) t) := by
  obtain ⟨-, ready, resumable, -⟩ := turn.begins h.sound h.weaving
  obtain ⟨scope, resume, -, scopes⟩ := turn.takes
  refine Homes.endsAt ((tidy_jobs fuel).homes _ ready (turn.amid h.amid) resumable ?_ ?_)
    ((works_jobs fuel).body (A := fun _ => True) _ _ _ ready resumable trivial) turn.parked
  · rw [resume]
    exact h.fits
  · rw [resume, scopes]
    exact h.leads _ scope

/-- What a turn keeps, whose ever it is. -/
theorem BodyTurn.keeps (turn : BodyTurn m s rest body t) (hm : m.Amid program)
    (hw : m.world.Sound) (hv : m.weaving = true)
    (run : (jobs fuel).body (body.column + 4) t = .ok status m') :
    Kept t t m' ∧ ∃ c, Uninterrupted (t.situation (.turn s)) (m'.situation c) := by
  obtain ⟨-, ready, resumable, -⟩ := turn.begins hw hv
  have poised : Poised program (fun _ => True) (.turn s) t := ⟨ready, turn.amid hm, trivial⟩
  have kept := poised.keeps (fun ground => ((tidy_jobs fuel).echoes ground).inner body.column) run
  have carried := (works_jobs fuel).body (A := fun _ => True) (body.column + 4) _ _ ready resumable
    trivial
  rw [run] at carried
  refine ⟨kept, ?_⟩
  cases status with
  | yielded =>
    obtain ⟨⟨u, frames, hu, -, hp⟩, -⟩ := carried
    obtain rfl : s = u := by simpa using hu
    exact ⟨_, hp.uninterrupted (by simp [Control.holder]) (by simp [Control.holder])⟩
  | normal | leaving =>
    exact ⟨_, carried.2.uninterrupted (by simp [Control.holder]) (by simp [Control.holder])⟩

/-- A turn after which it has nothing to go on with is a run of the body to its end. -/
theorem Housed.bodyEnds (h : Housed program r body home m) (next : m.world.loop.ready = r :: rest)
    (run : runTurn (jobs fuel) r (dequeued m rest) = .ok () m')
    (calm : (m.world.coroutines.get r).isCancelled = false)
    (begun : (m.world.coroutines.get r).scope ≠ none)
    (gone : (m'.world.coroutines.get r).scope = none) :
    ∃ t status m₁, BodyTurn m r rest body t ∧
      (jobs fuel).body (body.column + 4) t = .ok status m₁ ∧ status ≠ .yielded := by
  obtain rfl | ⟨hc, -⟩ | ⟨text, t, status, m₁, turn, hbody, rfl⟩ := turn_cases next run
  · exact absurd gone begun
  · rw [calm] at hc
    contradiction
  · obtain ⟨begins, -, -, runs, -⟩ := turn.begins h.sound h.weaving
    obtain rfl : text = body := runs.unique h.runs
    refine ⟨t, status, m₁, turn, hbody, ?_⟩
    -- had the body yielded, its scope would have been kept
    rintro rfl
    obtain ⟨-, c, uninterrupted⟩ := turn.keeps h.amid h.sound h.weaving hbody
    obtain ⟨f, owner, -, -, hk, -⟩ := turn.2.2.2
    have hr : m₁.world.Has r :=
      Steps.has uninterrupted.steps (Step.has begins (World.get?_of_script hk))
    rw [show ((endTurn r m₁ .yielded).world.coroutines.get r).scope = _ from
      (keeps_keepTurn m₁.thread hr).1] at gone
    contradiction

/-- A round of the loop, after which the frames fit. -/
theorem Housed.round (h : Housed program r body home m) (round : Round (jobs fuel) m m')
    (fits : Fits (body.column + 4) (m'.world.coroutines.get r).frames) :
    Housed program r body home m' := by
  obtain ⟨within, weaving⟩ := Rounds.within (works_jobs fuel) (.single round) h.sound h.weaving
  have hr : m.world.Has r := by
    obtain ⟨c, f, owner, hc, -⟩ := h.runs
    exact hc.trans (congrArg some (get_of_get? hc).symm)
  -- the session's steps keep the rest
  suffices m'.Amid program ∧ m'.world.Leads r home from
    ⟨this.1, within.steps.sound h.sound, weaving, within.steps.runs h.runs, fits, this.2⟩
  cases round with
  | tick => exact ⟨h.amid.withWorld rfl, h.leads⟩
  | poll =>
    have stands := stands_pollSleepers (looked m).world
    have clocked : (looked m).world.Leads r home := h.leads
    exact ⟨h.amid.of_eq rfl rfl h.amid.depth stands.blueprints,
      clocked.holds (Step.poll.holds hr (.inl (by simp))) stands.scopes.grows⟩
  | rest => exact ⟨h.amid.withWorld rfl, h.leads⟩
  | @turn m' s queue hs run =>
    obtain rfl | ⟨-, rfl⟩ | ⟨text, t, status, m₁, turn, hbody, rfl⟩ := turn_cases hs run
    · exact ⟨h.amid.withWorld rfl, h.leads⟩
    · have stands := stands_finish (dequeued m queue).world s (.error (Coroutine.cancellation 0 0))
      refine ⟨h.amid.withWorld stands.blueprints, h.leads.holds ?_ stands.scopes.grows⟩
      exact (events_finish (a := none) (dequeued m queue).world s _ (active_none _)
        (by simp)).evolves.holds hr
    · obtain ⟨begins, -, -, runs, -⟩ := turn.begins h.sound h.weaving
      obtain ⟨kept, c, uninterrupted⟩ := turn.keeps h.amid h.sound h.weaving hbody
      obtain ⟨-, -, gone, scopes⟩ := turn.takes
      have stands := stands_endTurn m₁ s status
      -- scopes are never taken away, neither by the turn nor behind it
      have grows : m.world.scopes.Grows (endTurn s m₁ status).world.scopes :=
        scopes ▸ kept.scopes.grows.trans stands.scopes.grows
      have hrt : t.world.Has r := Step.has begins hr
      have hr₁ : m₁.world.Has r := Steps.has uninterrupted.steps hrt
      have held : (t.world.coroutines.get r).Holds (m₁.world.coroutines.get r) :=
        uninterrupted.holds hrt
      have amid : (endTurn s m₁ status).Amid program := by
        have amid₁ := (turn.amid h.amid).kept kept
        cases status <;> exact amid₁.withWorld stands.blueprints
      refine ⟨amid, ?_⟩
      by_cases hrs : r = s
      · subst hrs
        by_cases hy : status = .yielded
        · -- what it keeps leads home
          subst hy
          obtain rfl : text = body := runs.unique h.runs
          have ends := h.endsAt turn fuel
          rw [hbody] at ends
          have stopped : Stopped home t m₁ := ends
          obtain ⟨hscope, hframes⟩ := keeps_keepTurn m₁.thread hr₁
          intro scope hsc
          obtain rfl : m₁.thread.scope = scope := Option.some.inj (hscope.symm.trans hsc)
          rw [show ((endTurn r m₁ .yielded).world.coroutines.get r).frames = _ from hframes]
          exact stopped.inside.grows stands.scopes.grows
        · -- it has nothing to go on with
          intro scope hsc
          have none := (held.none gone)
          rw [(holds_endTurn m₁ hr₁ (.inr hy)).none none] at hsc
          contradiction
      · exact h.leads.holds ((begins.holds hr (.inl (by simp))).trans
          (held.trans (holds_endTurn m₁ hr₁ (.inl hrs)))) grows

end Turns

/-! ### From turn to turn -/

/-- A loop goes on, and wherever it is between two turns the frames of `r` fit the column. -/
def RoundsInColumns (j : Jobs) (r : Ref .coroutine) (column : Nat) : Machine → Machine → Prop :=
  Relation.ReflTransGen fun m m' =>
    Round j m m' ∧ Fits column (m'.world.coroutines.get r).frames

/-- A coroutine of a loop, which has not begun to run `body`; `home` is the scope of its arguments. -/
structure Unbegun (program : Option String) (r : Ref .coroutine) (body : Script)
    (home : Ref .scope) (m : Machine) : Prop where
  amid : m.Amid program
  sound : m.world.Sound
  weaving : m.weaving = true
  runs : m.world.Runs r body
  scope : (m.world.coroutines.get r).scope = some home
  frames : (m.world.coroutines.get r).frames = []

section Rounds

variable {program : Option String} {fuel : Nat} {m m' : Machine} {r : Ref .coroutine}
  {body : Script} {home : Ref .scope}

theorem Unbegun.housed (h : Unbegun program r body home m) : Housed program r body home m := by
  refine ⟨h.amid, h.sound, h.weaving, h.runs, ?_, fun s hs => ?_⟩
  · rw [h.frames]
    trivial
  · rw [h.frames]
    exact Option.some.inj (hs.symm.trans h.scope)

theorem Housed.rounds (h : Housed program r body home m)
    (rounds : RoundsInColumns (jobs fuel) r (body.column + 4) m m') :
    Housed program r body home m' := by
  induction rounds with
  | refl => exact h
  | tail _ hround ih => exact ih.round hround.1 hround.2

end Rounds

/-- A statement that is over, after however many turns, has left the scope, the activation of the
thread, what is skipped and the depth of calls as they were when it was first entered, and no frames.
A coroutine whose body is over, whatever the loop has done between its turns, is in the scope of its
arguments.  Both as long as the frames to go on from fit the columns.  And no part of a run begins
deeper in calls than they may be. -/
theorem stack_discipline {env : Environment} {m₀ : Machine} (session : Session env m₀)
    (text : String) (fuel : Nat) :
    (∀ {program : Option String} {m m' : Machine} {status : Status},
      Visits program m (.ok status m') → status ≠ .yielded → Restored m.thread.scope m m') ∧
    (∀ {program : Option String} {r : Ref .coroutine} {body : Script} {home : Ref .scope}
        {m₁ m₂ t m' : Machine} {rest : List (Ref .coroutine)} {status : Status},
      Unbegun program r body home m₁ → RoundsInColumns (jobs fuel) r (body.column + 4) m₁ m₂ →
      BodyTurn m₂ r rest body t → (jobs fuel).body (body.column + 4) t = .ok status m' →
      status ≠ .yielded → Restored home t m') ∧
    ∀ w : Watch, w.Discreet →
      (∀ q m, m.callDepth ≤ m.environment.maxCallDepth → w.begins q m = "") →
        m₀.runWatched w text fuel = m₀.runSource text fuel := by
  have restored {home : Ref .scope} {m m' : Machine} {status : Status}
      (h : EndsAt home m (.ok status m')) (hn : status ≠ .yielded) : Restored home m m' := by
    cases status with
    | yielded => contradiction
    | normal => exact h
    | leaving signal => exact h
  refine ⟨fun visits hn => restored visits.restored hn, fun unbegun rounds turn run hn => ?_,
    fun w hw hs => ?_⟩
  · have ends := (unbegun.housed.rounds rounds).endsAt turn fuel
    rw [run] at ends
    exact restored ends hn
  · have agree : Watch.Agree {} w ⟨m₀.directory, [], m₀, false⟩ := fun q m h => hs q m h.1.depth
    rw [← m₀.runWatched_silent text fuel]
    exact Machine.runWatched_congr (fun _ _ => rfl) hw agree (session.resting.grounds nofun)
      session.resting.owner text fuel

/-! ### A branch in which a coroutine waits -/

/-- What a run has come to, whatever it is. -/
def reached : EStateM.Result Fault Machine Status → Machine
  | .ok _ m | .error _ m => m

/-- A statement that has yielded on the way from `m` to `m₁` goes on with the outcome it has waited for. -/
def goingOn (m m₁ : Machine) (outcome : Outcome) : Machine :=
  { m₁ with thread := { m.thread with
      resume := m₁.thread.parked
      scope := m₁.thread.scope
      tape := m₁.thread.tape.inject outcome } }

theorem returns_goingOn {program : Option String} {fuel n : Nat} {m m₁ : Machine}
    (facing : Facing program m) (hr : m.thread.resume = [])
    (run : execute (jobs fuel) n m = .ok .yielded m₁) (outcome : Outcome)
    (place : m₁.thread.parked.head?.map (·.start) = some m.thread.cursor.capture)
    (fits : Fits m.thread.cursor.capture.column m₁.thread.parked) :
    Visits program m (.ok .yielded m₁) ∧ Returns program m₁ (goingOn m m₁ outcome) := by
  have entered : Visits program m (.ok .yielded m₁) := run ▸ .entered fuel n facing hr
  have stopped : Stopped m.thread.scope m m₁ := entered.restored
  obtain ⟨c, ready⟩ := facing.ready
  have poised : Poised program (fun _ => True) c m := ⟨ready, facing.amid, trivial⟩
  have kept := poised.keeps (fun ground => echoes_execute ((tidy_jobs fuel).echoes ground) n) run
  have carried := carried_execute (works_jobs fuel) n ready (.inl hr) facing.colon facing.eof
  rw [run] at carried
  obtain ⟨⟨r, frames, rfl, parked, proceeds⟩, -⟩ := carried
  refine ⟨entered, ⟨⟨(facing.amid.kept kept).of_eq rfl rfl (facing.amid.kept kept).depth rfl,
    ⟨.turn r, ready.sound, proceeds.steps.sound ready.world, .inr ⟨r, rfl⟩, ?_, ready.driven,
      ready.async⟩, facing.colon, facing.eof, facing.parked⟩, rfl, place, fits, stopped.source.symm,
    rfl, stopped.mode.symm, stopped.skip.symm, rfl, .refl _⟩⟩
  rw [show (goingOn m m₁ outcome).weaving = m.weaving from parked.weaving]
  exact ready.weaving

/-- The start of the body of the coroutine that waits in a branch. -/
def patientCursor : Cursor := (Cursor.at? patientBody.source patientBody.entry).toOption.getD default

/-- The machine on which it begins. -/
def patientStart : Machine := bodyMachine patientLoop ⟨0⟩ [] ⟨0⟩ none ⟨1⟩ patientCursor

theorem turn_patientStart : BodyTurn patientLoop ⟨0⟩ [] patientBody patientStart := by
  refine ⟨rfl, rfl, nofun, ⟨0⟩, none, ⟨1⟩, patientCursor, rfl, rfl, rfl, ?_, rfl⟩
  have reads : (Cursor.at? patientBody.source patientBody.entry).isOk = true := by decide +kernel
  unfold patientCursor
  cases hc : Cursor.at? patientBody.source patientBody.entry with
  | ok c => rfl
  | error f =>
    rw [hc] at reads
    contradiction

theorem unbegun_patientLoop : Unbegun none ⟨0⟩ patientBody ⟨1⟩ patientLoop where
  amid := ⟨List.nodup_nil, rfl, nofun, World.lineage_empty.of_same rfl, Nat.zero_le _,
    List.suffix_rfl, fun _ => rfl, nofun⟩
  sound := reachable_patientLoop.sound
  weaving := rfl
  runs := ⟨_, ⟨0⟩, none, rfl, rfl, rfl⟩
  scope := rfl
  frames := rfl

theorem facing_patientStart : Facing none patientStart := by
  obtain ⟨-, ready, -⟩ := turn_patientStart.begins reachable_patientLoop.sound rfl
  obtain ⟨colon, eof⟩ : patientStart.thread.cursor.kind ≠ .colon ∧
      patientStart.thread.cursor.kind ≠ .eof := by decide +kernel
  exact ⟨turn_patientStart.amid unbegun_patientLoop.amid, ⟨_, ready⟩, colon, eof, rfl⟩

/-- A statement that has yielded. -/
def yields : EStateM.Result Fault Machine Status → Bool
  | .ok .yielded _ => true
  | _ => false

theorem eq_of_yields {r : EStateM.Result Fault Machine Status} (h : yields r = true) :
    r = .ok .yielded (reached r) := by
  cases r with
  | error f m => contradiction
  | ok status m =>
    cases status with
    | yielded => rfl
    | normal | leaving => contradiction

/-- The branch is entered twice: it yields, and ends when what it has waited for is there. -/
theorem visits_patientStart : ∃ m', Visits none patientStart (.ok .normal m') := by
  obtain ⟨first, place, fits, ended⟩ : yields (execute (jobs 9) 9 patientStart) = true ∧
      (reached (execute (jobs 9) 9 patientStart)).thread.parked.head?.map (·.start) =
        some patientStart.thread.cursor.capture ∧
      Fits patientStart.thread.cursor.capture.column
        (reached (execute (jobs 9) 9 patientStart)).thread.parked ∧
      endsNormally (execute (jobs 9) 9 (goingOn patientStart
        (reached (execute (jobs 9) 9 patientStart)) (.ok .null))) = true := by decide +kernel
  obtain ⟨entered, back⟩ := returns_goingOn facing_patientStart rfl (eq_of_yields first) (.ok .null)
    place fits
  obtain ⟨m', run⟩ := ok_of_endsNormally ended
  exact ⟨m', run ▸ entered.again 9 9 back⟩

/-- The loop lets the coroutine take its turn, moves its clock on, and ends the timer. -/
theorem rounds_patientLoop : RoundsInColumns (jobs 10) ⟨0⟩ (patientBody.column + 4) patientLoop
    (polled (rested patientTurn 5)) := by
  obtain ⟨rest, ready, run, -⟩ := suspends_patientLoop
  obtain rfl : rest = [] := (List.cons.inj ready).2.symm
  have sleepers : patientTurn.world.loop.sleepers = [(5, ⟨1⟩)] := by decide +kernel
  refine .tail (.tail (.single ⟨.turn ready run, ?_⟩) ⟨.rest ?_ sleepers, ?_⟩) ⟨.poll, ?_⟩
  all_goals decide +kernel

/-- A turn that is over, after which it holds what `p` says. -/
def endsWith (p : Machine → Bool) : EStateM.Result Fault Machine Unit → Bool
  | .ok _ m => p m
  | .error _ _ => false

theorem ok_of_endsWith {p : Machine → Bool} {r : EStateM.Result Fault Machine Unit}
    (h : endsWith p r = true) : ∃ m, r = .ok () m ∧ p m = true := by
  cases r with
  | ok u m => exact ⟨m, rfl, h⟩
  | error f m => contradiction

/-- The branch is over, the coroutine is over, and calls are nowhere too deep. -/
theorem stack_discipline_of_patientLoop :
    (∃ m', Visits none patientStart (.ok .normal m') ∧ Restored ⟨1⟩ patientStart m') ∧
    (∃ t status m', BodyTurn (polled (rested patientTurn 5)) ⟨0⟩ [] patientBody t ∧
      (jobs 10).body (patientBody.column + 4) t = .ok status m' ∧ status ≠ .yielded ∧
      Restored ⟨1⟩ t m') ∧
    Session {} (Machine.new {}) ∧
    (Machine.new {}).runWatched tooDeep threeLevels 10 =
      (Machine.new {}).runSource threeLevels 10 := by
  have discipline := stack_discipline (.new : Session {} _) threeLevels 10
  refine ⟨?_, ?_, .new, discipline.2.2 tooDeep (fun _ _ => rfl) fun _ _ h => if_pos h⟩
  · obtain ⟨m', visits⟩ := visits_patientStart
    exact ⟨m', visits, discipline.1 visits (by simp)⟩
  · have ends : endsWith (fun m => (m.world.coroutines.get ⟨0⟩).scope.isNone)
        (runTurn (jobs 10) ⟨0⟩ (dequeued (polled (rested patientTurn 5)) [])) = true := by
      decide +kernel
    obtain ⟨m, run, gone⟩ := ok_of_endsWith ends
    have housed := unbegun_patientLoop.housed.rounds rounds_patientLoop
    obtain ⟨t, status, m', turn, body, ended⟩ := housed.bodyEnds (by decide +kernel) run
      (by decide +kernel) (by decide +kernel) (Option.isNone_iff_eq_none.1 gone)
    exact ⟨t, status, m', turn, body, ended,
      discipline.2.1 unbegun_patientLoop rounds_patientLoop turn body ended⟩

/-! ### A loop that starts left of the body it stands in -/

/-- A program whose inner loop stands in a line that begins inside brackets, left of the body it is a
statement of. -/
def strayLoop : String :=
  "load: weaver as w\nlet: i = 7\nasync funct: main():\n    loop: for i from 0 to 0:\n" ++
  "        let: a = [\n0]: loop: for j from 0 to 0:\n        await w.rest(1)\n" ++
  "    show(i)\nw.weave(main())\n"

/-- The frame of the inner loop does not fit, so the body of the outer one is over when it is resumed.
The outer loop leaves the scope of the inner one and takes its own for that of the function: the
variable of the loop is still there. -/
theorem wrong_scope_when_resumed :
    account ((Machine.new {}).runSource strayLoop 14) = ("0\n", none) := by
  decide +kernel

end Rewind
