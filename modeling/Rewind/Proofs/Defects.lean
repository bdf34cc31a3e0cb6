/-
What a session may fail with.

A defect is a state that the machine is not meant to reach.  Through all programs of a session most of
them are out of reach: no cursor goes back to a place of another source, nothing but the body of a
coroutine is suspended, and whoever runs a body has one.  Two are not.  A coroutine that was left
behind by an earlier loop has lost its scope, and the loop in which its turn comes again fails; and a
built-in function may be the `init` of a blueprint, which is called as if it were written in the
program.

* `Session` — what programs that are run one after another come to;
* `Session.rests` — between two of them no loop runs, and the world is in order;
* `loses_turn_iff` — the turn of a coroutine fails for want of a scope exactly if it is stranded;
* `defects_of_session` — all of it together.
-/
import Rewind.Proofs.Resumption

namespace Rewind

open Eval World

/-! ### Sessions -/

/-- What programs that are run one after another come to. -/
inductive Session (env : Environment) : Machine → Prop
  | new : Session env (Machine.new env)
  | text {m : Machine} (text : String) (fuel : Nat) :
      Session env m → Session env (m.runSource text fuel).2
  | file {m : Machine} (path : String) (fuel : Nat) :
      Session env m → Session env (m.runFile path fuel).2

/-- Between two programs no loop runs, and the world is in order. -/
structure Rests (env : Environment) (m : Machine) : Prop where
  reachable : Reachable env (m.situation .idle)
  weaving : m.weaving = false
  manned : m.world.Manned

theorem Rests.runSource {env : Environment} {m : Machine} (h : Rests env m) (text : String)
    (fuel : Nat) : Rests env (m.runSource text fuel).2 := by
  obtain ⟨proceeds, weaving, -⟩ := proceeds_runSource text fuel h.reachable.sound h.weaving
  exact ⟨Relation.ReflTransGen.trans h.reachable proceeds.steps, weaving, proceeds.manned h.manned⟩

theorem manned_new (env : Environment) : (Machine.new env).world.Manned := by
  intro r f owner h
  have none : (Machine.new env).world.coroutines.get r = default := by
    simp [Machine.new, Arena.get, Arena.get?]
  rw [none] at h
  contradiction

theorem Session.rests {env : Environment} {m : Machine} (h : Session env m) : Rests env m := by
  induction h with
  | new => exact ⟨.refl, rfl, manned_new env⟩
  | text text fuel _ ih => exact ih.runSource text fuel
  | @file m path fuel _ ih =>
    unfold Machine.runFile
    split
    · exact ih
    · rename_i text _
      exact Rests.runSource (m := { m with directory := Path.parent? path })
        ⟨ih.reachable, ih.weaving, ih.manned⟩ text fuel

/-! ### Who loses its turn -/

/-- The turn of a coroutine at the head of the queue fails for want of a scope exactly if it is
stranded, unless it is cancelled and has not begun. -/
theorem loses_turn_iff {m : Machine} (fuel : Nat) (hw : m.world.Sound) (hv : m.weaving = true)
    {r : Ref .coroutine} {rest : List (Ref .coroutine)} (hr : m.world.loop.ready = r :: rest)
    (name : String) :
    (∃ m', runTurn (jobs fuel) r (dequeued m rest) =
        .error (.failure (.internal (.scopeMissing name))) m') ↔
      (m.world.coroutines.get r).Stranded name ∧
        ¬ ((m.world.coroutines.get r).isCancelled = true ∧
          (m.world.coroutines.get r).frames = []) := by
  rw [runTurn_run]
  constructor
  · rintro ⟨m', h⟩
    split at h
    · contradiction
    rename_i hd
    have hd : (m.world.coroutines.get r).isDone = false := Bool.eq_false_iff.2 hd
    split at h
    on_goal 2 => contradiction
    rename_i f owner hk
    split at h
    · contradiction
    rename_i hx
    have hx : ¬ ((m.world.coroutines.get r).isCancelled = true ∧
        (m.world.coroutines.get r).frames = []) := fun hc => hx (by simp [hc])
    split at h
    · rename_i hs
      obtain ⟨he, -⟩ := EStateM.Result.error.inj h
      simp only [Fault.failure.injEq, Failure.internal.injEq, Defect.scopeMissing.injEq] at he
      exact ⟨⟨he, ⟨f, owner, hk⟩, hd, hs⟩, hx⟩
    · rename_i scope hs
      split at h
      · cases h
      rename_i body hf
      split at h
      · rename_i failure hc
        obtain ⟨he, -⟩ := EStateM.Result.error.inj h
        obtain rfl := Fault.failure.inj he
        exact absurd (reads_at? (marks_of_script hw hf) _ hc) id
      rename_i cursor hc
      split at h
      · contradiction
      · -- no run of a body ends so: only a loop does
        rename_i fault m₁ hb
        obtain ⟨rfl, -⟩ := EStateM.Result.error.inj h
        obtain ⟨-, ready, resumable, -⟩ := turn_begins hw hv hr hd hk hs
          (fun hc hf => hx ⟨hc, hf⟩) hf hc
        have ended := (works_jobs fuel).body (A := fun _ => True) (body.column + 4) (.turn r) _
          ready resumable trivial
        rw [hb] at ended
        exact absurd ended.2.2.1 (by simp)
  · rintro ⟨⟨hn, ⟨f, owner, hk⟩, hd, hs⟩, hx⟩
    have hx : ¬ ((m.world.coroutines.get r).isCancelled &&
        (m.world.coroutines.get r).frames.isEmpty) = true := by
      simpa using hx
    refine ⟨dequeued m rest, ?_⟩
    simp only [hd, hk, hs, hn, Bool.false_eq_true, if_false, if_neg hx]

example :
    account ((Machine.new {}).runSource ("load: weaver as w\n" ++
      "blueprint: P:\n    let: init = w.rest\n" ++
      "let: p = P(5)\nshow(\"made\")\n") 12) =
    ("", some "script call on a native function") := by
  decide +kernel

/-! ### All defects -/

/-- The run of a program in a session ends with a defect in two cases only.  Either a blueprint was
called that has a built-in function for its `init`, and the call of such a blueprint fails; or a loop
was begun while some coroutine was left without a scope by an earlier one, and its turn came, which
fails in whatever loop it comes.  It was that call or that loop which the run ended with: what it has
left is still there at the end, and the coroutine is still without a scope. -/
theorem defects_of_session {env : Environment} {m : Machine} (hm : Session env m) :
    (∀ text fuel defect,
      (m.runSource text fuel).1 = .error (.failure (.internal defect)) →
        (defect = .nativeScript ∧ ∃ (c : Control) (m₁ m₂ : Machine),
          Steps (m.situation .idle) (m₁.situation c) ∧
          m₁.FailsInit m₂ ∧ m₂.Unwinds (m.runSource text fuel).2) ∨
        ∃ name, defect = .scopeMissing name ∧ ∃ m₁ m₂ : Machine,
          Steps (m.situation .idle) (m₁.situation .idle) ∧ m₁.LosesTurn name m₂ ∧
          m₂.Unwinds (m.runSource text fuel).2) ∧
    (∀ m' r rest fuel name, Steps (m.situation .idle) (m'.situation .looping) →
      m'.weaving = true → m'.world.loop.ready = r :: rest →
        ((∃ m'', runTurn (jobs fuel) r (dequeued m' rest) =
            .error (.failure (.internal (.scopeMissing name))) m'') ↔
          (m'.world.coroutines.get r).Stranded name ∧
            ¬ ((m'.world.coroutines.get r).isCancelled = true ∧
              (m'.world.coroutines.get r).frames = []))) ∧
    ∀ (m' : Machine) b f owner native fuel args site,
      m'.world.findMember b "init" = some (.function f, owner) →
      (m'.world.functions.get f).body = .native native →
        ∃ m'', instantiate (jobs fuel) b args site m' =
          .error (.fault (.failure (.internal .nativeScript))) m'' := by
  obtain ⟨reachable, weaving, manned⟩ := hm.rests
  refine ⟨fun text fuel defect h => ?_, fun m' r rest fuel name hs hv hr => ?_,
    fun m' b f owner native fuel args site hf hn =>
      ⟨_, instantiate_of_nativeInit _ ⟨f, owner, native, hf, hn⟩ args site⟩⟩
  · have arises := (proceeds_runSource text fuel reachable.sound weaving).2.2 _ h
    cases defect with
    | nativeScript => exact .inl ⟨rfl, arises⟩
    | scopeMissing name => exact .inr ⟨name, rfl, arises.2⟩
    | bodyMissing => exact absurd manned arises.2
    | _ => exact arises.elim
  · exact loses_turn_iff fuel (Steps.sound hs reachable.sound) hv hr name

/-- A session in which two programs have failed.  The first has left a timer behind, and the second a
coroutine that waits for it. -/
def leftBehind : Machine :=
  let first := (Machine.new {}).runSource ("load: weaver as w\n" ++
    "let: t = w.rest(1)\n" ++
    "async funct: main():\n    w.spawn_task(t)\n    break\n" ++
    "w.weave(main())\n") 12
  (first.2.runSource "async funct: a():\n    await t\nw.weave(a())\n" 12).2

theorem session_leftBehind : Session {} leftBehind := by
  rw [leftBehind]
  exact .text _ _ (.text _ _ .new)

/-- A program that cancels the timer. -/
def cancelsTimer : String :=
  "async funct: c():\n    w.cancel(t)\n    show(\"done\")\n" ++ "w.weave(c())\n"

/-- The name of the coroutine that a run ended with because it has no scope, and what was printed. -/
def lostTurn : Except Fault Unit × Machine → String × String
  | (.error (.failure (.internal (.scopeMissing name))), m) => (name, m.output)
  | _ => ("", "")

theorem lostTurn_cancelsTimer :
    lostTurn (leftBehind.runSource cancelsTimer 12) = ("a", "done\n") := by
  decide +kernel

theorem eq_of_lostTurn {result : Except Fault Unit × Machine} {name output : String}
    (h : lostTurn result = (name, output)) (hn : name ≠ "") :
    result.1 = .error (.failure (.internal (.scopeMissing name))) ∧ result.2.output = output := by
  unfold lostTurn at h
  split at h
  · obtain ⟨rfl, rfl⟩ := Prod.mk.inj h
    exact ⟨rfl, rfl⟩
  · exact absurd (Prod.mk.inj h).1.symm hn

theorem account_of_error {result : Except Fault Unit × Machine} {f : Failure} {output : String}
    (h : result.1 = .error (.failure f)) (ho : result.2.output = output) :
    account result = (output, some f.message) := by
  obtain ⟨r, m⟩ := result
  subst h ho
  rfl

theorem stranded_of_leftBehind : Session {} leftBehind ∧
    ∃ m₁ m₂ : Machine, Steps (leftBehind.situation .idle) (m₁.situation .idle) ∧ m₁.LosesTurn "a" m₂ ∧
      m₂.Unwinds (leftBehind.runSource cancelsTimer 12).2 := by
  obtain ⟨run, -⟩ := eq_of_lostTurn lostTurn_cancelsTimer (by decide)
  refine ⟨session_leftBehind, ?_⟩
  obtain ⟨h, -⟩ | ⟨name, h, stranded⟩ :=
    (defects_of_session session_leftBehind).1 cancelsTimer 12 _ run
  · exact nomatch h
  · exact Defect.scopeMissing.inj h ▸ stranded

/-- Whoever waits for a coroutine of an earlier loop is woken by its end, and cannot go on. -/
theorem turn_lost_after_cancel :
    account (leftBehind.runSource cancelsTimer 12) =
      ("done\n", some "coroutine 'a' has no scope to run in") := by
  obtain ⟨run, output⟩ := eq_of_lostTurn lostTurn_cancelsTimer (by decide)
  exact account_of_error run output

end Rewind
