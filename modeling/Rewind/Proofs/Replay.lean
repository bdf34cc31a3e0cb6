/-
Replaying a statement.

A statement that is resumed runs again from its start, and its calls and awaits take the outcomes of
its tape one after another.  Which of them takes which outcome is a matter of counting alone: nothing
ties an outcome to the call it came from.  So an `await` gets the outcome of the coroutine it has
waited for exactly if, when it comes to it, as many outcomes have been taken as were recorded before
the suspension.  What other coroutines do meanwhile cannot touch the tape, but it can change which
calls the statement comes to, and with it that number.

* `Advances.counted` — how far a tape has been taken says what is left on it;
* `Tape.outcomeAt` — the outcome at a place of the tape of a resumed statement;
* `awaitExpr_run` — an `await` in terms of its operand and of the tape;
* `Counts`, `counts` — calls and awaits take the outcomes by number;
* `replay_by_count` — so it is in the turn after any suspension, whatever happens meanwhile.
-/
import Rewind.Proofs.Resumption

namespace Rewind

open Eval World

/-! ### Counting -/

namespace Tape

/-- The outcome at place `i` of a tape onto which `awaited` was injected. -/
def outcomeAt (t : Tape) (awaited : Outcome) (i : Nat) : Outcome := t.entries[i]?.getD awaited

theorem outcomeAt_size (t : Tape) (awaited : Outcome) : t.outcomeAt awaited t.size = awaited := by
  simp [outcomeAt, size]

/-- As long as no more was taken from a tape than was on it, it holds what it held; behind that there
is nothing left to take. -/
theorem Advances.counted {t t' : Tape} (h : t.Advances t') (ht : t.position ≤ t.size) :
    (t'.entries = t.entries ∧ t'.position ≤ t.size) ∨
      (t.size < t'.position ∧ t'.replaying = false ∧ t.size ≤ t'.size) := by
  induction h with
  | refl => exact .inl ⟨rfl, ht⟩
  | tail _ hm ih =>
    cases hm with
    | read hr =>
      -- once a new outcome is recorded none of the old ones is taken any more
      obtain ⟨he, -⟩ | ⟨-, hn, -⟩ := ih
      · have hlt := of_decide_eq_true hr
        rw [he] at hlt
        exact .inl ⟨he, hlt⟩
      · rw [hn] at hr
        contradiction
    | record outcome hn =>
      refine .inr ⟨?_, replaying_record _ outcome, ?_⟩
      · obtain ⟨he, -⟩ | ⟨-, -, hs⟩ := ih
        · simp only [record, size, he]
          exact Nat.lt_succ_self _
        · exact Nat.lt_succ_of_le hs
      · simp only [record, size, Array.size_push] at ih ⊢
        obtain ⟨he, -⟩ | ⟨-, -, hs⟩ := ih
        · rw [he]
          exact Nat.le_succ _
        · exact Nat.le_succ_of_le hs

/-- A tape onto which an outcome was injected has something left exactly up to that outcome. -/
theorem Advances.replaying_inject {t t' : Tape} {awaited : Outcome}
    (h : (t.inject awaited).Advances t') :
    (t'.position ≤ t.size → t'.replaying = true ∧
      t'.entries[t'.position]? = some (t.outcomeAt awaited t'.position)) ∧
    (t.size < t'.position → t'.replaying = false) := by
  have hsize : (t.inject awaited).size = t.size + 1 := Array.size_push ..
  obtain ⟨he, hp⟩ | ⟨hp, hn, -⟩ := h.counted (Nat.zero_le _)
  · rw [hsize] at hp
    have hentries : t'.entries = t.entries.push awaited := he
    refine ⟨fun hle => ⟨?_, ?_⟩, fun hlt => ?_⟩
    · simp only [replaying, hentries, Array.size_push, decide_eq_true_eq]
      exact Nat.lt_succ_of_le hle
    · rw [hentries]
      obtain hlt | heq := Nat.lt_or_eq_of_le hle
      · rw [Array.getElem?_push_lt hlt, outcomeAt, Array.getElem?_eq_getElem hlt, Option.getD_some]
      · rw [heq, outcomeAt_size]
        exact Array.getElem?_push_size
    · simp only [replaying, hentries, Array.size_push, decide_eq_false_iff_not, Nat.not_lt]
      exact hlt
  · rw [hsize] at hp
    exact ⟨fun hle => by omega, fun _ => hn⟩

end Tape

/-! ### Calls and awaits of a replayed statement -/

/-- A run that gives a copy of an outcome, as taken from the tape. -/
def gives (m : Machine) (outcome : Outcome) : EStateM.Result Interrupt Machine Held :=
  resume (takeOutcome m outcome).1 (takeOutcome m outcome).2

/-- An `await`, from where its operand has come to. -/
theorem awaitExpr_run {j : Jobs} {m m₀ m₁ : Machine} {keyword : Token} {operand : Held}
    (hk : advance .kwAwait m = .ok keyword m₀) (ha : m₀.thread.mode.inAsync = true)
    (ho : j.unary m₀ = .ok operand m₁) (hs : m₁.thread.skip = 0) :
    awaitExpr j m = match replayed m₁ with
      | .ok (some outcome) m₂ => resume outcome m₂
      | .ok none m₂ => waitFor keyword operand.value m₂
      | .error e m₂ => .error e m₂ := by
  have hk' : (liftM (advance .kwAwait) : Eval Token) m = .ok keyword m₀ := by
    rw [Quiet.run_lift, hk]
  show EStateM.bind (liftM (advance .kwAwait)) _ m = _
  unfold EStateM.bind
  rw [hk']
  show (if (!m₀.thread.mode.inAsync) = true then _ else _ : Eval Held) m₀ = _
  rw [if_neg (by simp [ha])]
  show EStateM.bind j.unary _ m₀ = _
  unfold EStateM.bind
  rw [ho]
  show (if (m₁.thread.skip != 0) = true then _ else _ : Eval Held) m₁ = _
  rw [if_neg (by simp [hs])]
  show EStateM.bind replayed _ m₁ = _
  unfold EStateM.bind
  -- the outcome on the tape, or the coroutine that the operand stands for
  cases replayed m₁ with
  | ok outcome m₂ => cases outcome <;> rfl
  | error e m₂ => rfl

/-- In a run on the machine `t`, whose tape has `recorded` on it and `awaited` behind that, a call and
an `await` take the outcome that the number of those taken before says; with all of them taken they
call and wait anew. -/
structure Counts (recorded : Tape) (awaited : Outcome) (t : Machine) : Prop where
  call : ∀ {m : Machine} (j : Jobs) (n : Nat) (callee : Value) (args : CallArgs) (site : Token),
    t.thread.tape.Advances m.thread.tape → m.thread.mode.inAsync = true → m.thread.skip = 0 →
    m.thread.tape.position ≤ recorded.size →
    invokeValue j n callee args site m =
      gives m (recorded.outcomeAt awaited m.thread.tape.position)
  await : ∀ {j : Jobs} {m m₀ m₁ : Machine} {keyword : Token} {operand : Held},
    advance .kwAwait m = .ok keyword m₀ → m₀.thread.mode.inAsync = true →
    j.unary m₀ = .ok operand m₁ → t.thread.tape.Advances m₁.thread.tape →
    m₁.thread.mode.inAsync = true → m₁.thread.skip = 0 →
    awaitExpr j m =
      if m₁.thread.tape.position < recorded.size then
        gives m₁ (recorded.outcomeAt awaited m₁.thread.tape.position)
      else if m₁.thread.tape.position = recorded.size then gives m₁ awaited
      else waitFor keyword operand.value m₁

/-- What comes next on the tape is what a call or an `await` gets. -/
theorem replayed_gives {recorded : Tape} {awaited : Outcome} {m : Machine}
    (h : (recorded.inject awaited).Advances m.thread.tape) (ha : m.thread.mode.inAsync = true)
    (hs : m.thread.skip = 0) (hp : m.thread.tape.position ≤ recorded.size) :
    m.thread.replays = true ∧ ∃ outcome m', replayed m = .ok (some outcome) m' ∧
      resume outcome m' = gives m (recorded.outcomeAt awaited m.thread.tape.position) := by
  obtain ⟨hr, hentry⟩ := h.replaying_inject.1 hp
  have hreplays : m.thread.replays = true := by simp [Thread.replays, ha, hs, hr]
  obtain ⟨entry, he, hrun⟩ := replayed_of_replays hreplays
  obtain rfl := Option.some.inj (he.symm.trans hentry)
  exact ⟨hreplays, _, _, hrun, rfl⟩

theorem counts {recorded : Tape} {awaited : Outcome} {t : Machine}
    (h : t.thread.tape = recorded.inject awaited) : Counts recorded awaited t := by
  constructor
  case call =>
    intro m j n callee args site hadv ha hs hp
    rw [h] at hadv
    obtain ⟨-, outcome, m', hrun, hgives⟩ := replayed_gives hadv ha hs hp
    rw [← hgives]
    simp only [invokeValue, bind, EStateM.bind, hrun]
  case await =>
    intro j m m₀ m₁ keyword operand hk ha₀ ho hadv ha hs
    rw [h] at hadv
    rw [awaitExpr_run hk ha₀ ho hs]
    have taken (hp : m₁.thread.tape.position ≤ recorded.size) : (match replayed m₁ with
        | .ok (some outcome) m₂ => resume outcome m₂
        | .ok none m₂ => waitFor keyword operand.value m₂
        | .error e m₂ => .error e m₂) =
        gives m₁ (recorded.outcomeAt awaited m₁.thread.tape.position) := by
      obtain ⟨-, outcome, m', hrun, hgives⟩ := replayed_gives hadv ha hs hp
      simp only [hrun, hgives]
    -- before the recorded outcomes are used up, at the injected one, and behind it
    by_cases hlt : m₁.thread.tape.position < recorded.size
    · rw [if_pos hlt]
      exact taken (Nat.le_of_lt hlt)
    · rw [if_neg hlt]
      by_cases heq : m₁.thread.tape.position = recorded.size
      · rw [if_pos heq, taken (Nat.le_of_eq heq), heq, Tape.outcomeAt_size]
      · have hover : recorded.size < m₁.thread.tape.position := by omega
        have hn : m₁.thread.replays = false := by
          simp [Thread.replays, hadv.replaying_inject.2 hover]
        rw [if_neg heq, replayed_of_not_replays hn]

/-! ### The turn after a suspension -/

/-- A coroutine is suspended in a statement of a reachable loop, which then goes on without it.  In
its next turn the tape has the outcomes recorded before the suspension and behind them that of the
coroutine waited for, or its own cancellation; calls and awaits take them by number. -/
theorem replay_by_count {env : Environment} {fuel : Nat} {m₀ m₁ m : Machine}
    {r : Ref .coroutine} {rest : List (Ref .coroutine)}
    (reachable : Reachable env (m₀.situation .looping)) (weaving : m₀.weaving = true)
    (suspends : TurnSuspends fuel r m₀ m₁)
    (without : Without r (m₁.situation .looping) (m.situation .looping))
    (next : m.world.loop.ready = r :: rest) (alive : (m.world.coroutines.get r).isDone = false) :
    ∃ body p outer k outcome t, SuspendedAt r body p outer k ∧
      Brings r k.target outcome (m₁.situation .looping) (m.situation .looping) ∧
      ResumedOn r body k outcome t ∧
      (∀ j, runTurn j r (dequeued m rest) = match j.body (body.column + 4) t with
        | .ok status m' => .ok () (endTurn r m' status)
        | .error fault m' => .error fault m') ∧
      Counts k.tape outcome t := by
  obtain ⟨body, p, outer, k, runs, suspended, fate⟩ := suspends.kept reachable weaving
  have reached := suspends.reachable reachable weaving
  have hframes : k.frames ≠ [] := by simp [suspended.frames]
  obtain ⟨outcome, t, sent, resumed, turn⟩ := resumed_turn
    (Relation.ReflTransGen.trans reached without.steps) (without.steps.runs runs)
    (without.fate reached.coherent fate) hframes next alive
  exact ⟨body, p, outer, k, outcome, t, suspended, sent, resumed, turn, counts resumed.tape⟩

theorem replay_of_patientLoop :
    ∃ body p outer k outcome t, SuspendedAt ⟨0⟩ body p outer k ∧
      Brings ⟨0⟩ k.target outcome (patientTurn.situation .looping)
        ((polled (rested patientTurn 5)).situation .looping) ∧
      ResumedOn ⟨0⟩ body k outcome t ∧
      (∀ j, runTurn j ⟨0⟩ (dequeued (polled (rested patientTurn 5)) []) =
        match j.body (body.column + 4) t with
        | .ok status m' => .ok () (endTurn ⟨0⟩ m' status)
        | .error fault m' => .error fault m') ∧
      Counts k.tape outcome t :=
  replay_by_count reachable_patientLoop rfl suspends_patientLoop
    (without_polled ⟨0⟩ patientTurn 5) woken_patientTurn.1 woken_patientTurn.2

/-- Another coroutine changes what a condition in the suspended statement reads.  The statement comes
to one call less then: the call of `g` takes the outcome of `h`, and the `await` that of the call. -/
theorem await_takes_outcome_of_call :
    account ((Machine.new {}).runSource ("load: weaver as w\n" ++
      "let: x = true\n" ++
      "funct: h():\n    return: 1\n" ++
      "async funct: g(n):\n    let: x = false\n    return: 5\n" ++
      "async funct: main():\n    let: y = await g(h() if x else 0)\n    show(y)\n" ++
      "w.weave(main())\n") 16) =
    ("<coroutine g #2>\n", none) := by
  decide +kernel

end Rewind
