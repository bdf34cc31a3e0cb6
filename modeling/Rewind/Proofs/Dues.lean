/-
What is due between coroutines.

Starting and finishing a coroutine goes from one to the next: a gather task starts its children, and
one that is done reports to the gather tasks it is a child of, which may be done in turn.  In the
midst of that a slot of a gather task may be empty although its child is done or has not been turned
to.  The outcomes that are due in such slots are kept here in a list beside the world, and so is the
coroutine that is being attended to.  What each part of the bookkeeping keeps, with its effect on
that list, is kept by all of it.

* `Due`, `World.owes`, `World.expects` — outcomes that are due;
* `Focus` — who is being started, or may be about to end;
* `Kept` — a property of worlds that each part of the bookkeeping keeps;
* `Kept.finish`, `Kept.start` — it is kept when a coroutine ends or is started.
-/
import Rewind.Proofs.Event
import Mathlib.Data.Finset.Card

namespace Rewind

open Coroutine

/-! ### Dues -/

/-- The outcome of `child` is due in a slot of `task`. -/
structure Due where
  task : Ref .coroutine
  slot : Nat
  child : Ref .coroutine
  deriving DecidableEq

/-- The coroutine that is being attended to: it is about to join the loop, or may be complete. -/
inductive Focus where
  | nobody
  | starting (r : Ref .coroutine)
  | ending (r : Ref .coroutine)

namespace World

/-- What a coroutine that ends owes to the gather tasks it is a child of. -/
def owes (w : World) (r : Ref .coroutine) : List Due :=
  (w.coroutines.get r).parents.map fun p => ⟨p.1, p.2, r⟩

/-- What a gather task that joins the loop waits for. -/
def expects (r : Ref .coroutine) (children : List (Ref .coroutine)) : List Due :=
  children.zipIdx.map fun x => ⟨r, x.2, x.1⟩

/-- A gather task gets a child that is not done. -/
def link (w : World) (d : Due) : World :=
  w.modifyCoroutine d.child fun c => { c with parents := c.parents ++ [(d.task, d.slot)] }

/-- A timer joins the loop. -/
def sleep (w : World) (r : Ref .coroutine) (wake : Nat) : World :=
  let w := w.enroll r .suspendedTimer
  { w with loop := { w.loop with sleepers := insertSleeper w.loop.sleepers wake r } }

/-- A gather task whose children have all reported ends. -/
def conclude (w : World) (r : Ref .coroutine) (g : GatherState) : World :=
  let (total, w) := w.onHeap g.outcome
  w.settle r (finalOutcome (w.coroutines.get r) total)

/-- What the parts of the bookkeeping keep, with the outcomes that are due and the coroutine that is
being attended to. -/
structure Kept (P : Focus → List Due → World → Prop) : Prop where
  fresh {f : Focus} {dues : List Due} {w : World} {r : Ref .coroutine} : P f dues w →
    (w.coroutines.get r).isDone = false → (w.coroutines.get r).exception = none
  has {f : Focus} {dues : List Due} {w : World} {d : Due} : P f dues w → d ∈ dues →
    w.Has d.child
  /-- Anyone may be attended to. -/
  attend {dues : List Due} {w : World} (f : Focus) : P .nobody dues w → P f dues w
  /-- Nothing more is to be done about one that has joined the loop, -/
  begun {dues : List Due} {w : World} {r : Ref .coroutine} : P (.starting r) dues w →
    (w.coroutines.get r).stage ≠ .new → P .nobody dues w
  /-- or about one that waits for more. -/
  rest {dues : List Due} {w : World} {r : Ref .coroutine} : P (.ending r) dues w →
    w.completeGather? r = none ∨ (∃ d ∈ dues, d.task = r) → P .nobody dues w
  /-- A complete gather task ends and owes its outcome. -/
  conclude {dues : List Due} {w : World} {r : Ref .coroutine} {g : GatherState} :
    P (.ending r) dues w → w.completeGather? r = some g →
    P .nobody (w.owes r ++ dues) (w.conclude r g)
  /-- A coroutine that is done reports what it owes. -/
  report {dues : List Due} {w : World} {d : Due} {outcome : Outcome} : P .nobody (d :: dues) w →
    (w.coroutines.get d.child).isDone = true →
    w.heap.MirrorsOutcome (w.coroutines.get d.child).outcome outcome →
    P (.ending d.task) dues (w.report outcome d.task d.slot)
  /-- A gather task turns to a child that is not done. -/
  link {dues : List Due} {w : World} {d : Due} : P .nobody (d :: dues) w →
    (w.coroutines.get d.child).isDone = false → P (.starting d.child) dues (w.link d)
  /-- A new coroutine with a body joins the loop, -/
  line {dues : List Due} {w : World} {r : Ref .coroutine} {f : Ref .function}
    {owner : Option (Ref .blueprint)} : P (.starting r) dues w → w.Has r →
    (w.coroutines.get r).stage = .new → (w.coroutines.get r).kind = .script f owner →
    P .nobody dues ((w.enroll r .runnable).enqueue r)
  /-- or a timer, -/
  sleep {dues : List Due} {w : World} {r : Ref .coroutine} {wake : Nat} : P (.starting r) dues w →
    w.Has r → (w.coroutines.get r).stage = .new → (w.coroutines.get r).kind = .timer wake →
    P .nobody dues (w.sleep r wake)
  /-- or a gather task, which waits for the outcomes of all its children. -/
  join {dues : List Due} {w : World} {r : Ref .coroutine} {g : GatherState} :
    P (.starting r) dues w → w.Has r → (w.coroutines.get r).stage = .new →
    (w.coroutines.get r).kind = .gather g →
    P (.ending r) (expects r g.children ++ dues) (w.enroll r .gatherWait)

/-! ### How many are left -/

/-- The coroutines that are not done. -/
def live (w : World) : Finset Nat :=
  (Finset.range w.coroutines.size).filter fun i => (w.coroutines.get ⟨i⟩).isDone = false

/-- The coroutines that have not joined a loop. -/
def waiting (w : World) : Finset Nat :=
  (Finset.range w.coroutines.size).filter fun i => (w.coroutines.get ⟨i⟩).stage = .new

section Left

variable {w w' : World} {r : Ref .coroutine}

theorem mem_live : r.index ∈ w.live ↔ w.Has r ∧ (w.coroutines.get r).isDone = false := by
  simp [live, has_iff]

theorem mem_waiting : r.index ∈ w.waiting ↔ w.Has r ∧ (w.coroutines.get r).stage = .new := by
  simp [waiting, has_iff]

theorem card_live_le : w.live.card ≤ w.coroutines.size :=
  (Finset.card_filter_le _ _).trans (Finset.card_range _).le

theorem card_waiting_le : w.waiting.card ≤ w.coroutines.size :=
  (Finset.card_filter_le _ _).trans (Finset.card_range _).le

theorem Evolves.live_subset (h : Evolves w w') : w'.live ⊆ w.live := by
  intro i hi
  obtain ⟨hr, hd⟩ := mem_live.1 (show (Ref.mk (k := .coroutine) i).index ∈ w'.live from hi)
  refine mem_live.2 ⟨?_, ?_⟩
  · rw [has_iff] at hr ⊢
    rwa [← h.size]
  · refine Bool.eq_false_iff.2 fun hn => ?_
    rw [(h.done hn).1] at hd
    contradiction

theorem Evolves.waiting_subset (h : Evolves w w') : w'.waiting ⊆ w.waiting := by
  intro i hi
  obtain ⟨hr, hs⟩ := mem_waiting.1 (show (Ref.mk (k := .coroutine) i).index ∈ w'.waiting from hi)
  refine mem_waiting.2 ⟨?_, ?_⟩
  · rw [has_iff] at hr ⊢
    rwa [← h.size]
  · exact Classical.byContradiction fun hn => h.not_new hn hs

/-- When a coroutine is done, fewer are left. -/
theorem Evolves.card_live_lt (h : Evolves w w') (hr : w.Has r)
    (hd : (w.coroutines.get r).isDone = false) (hd' : (w'.coroutines.get r).isDone = true) :
    w'.live.card < w.live.card := by
  refine Finset.card_lt_card (Finset.ssubset_iff_subset_ne.2 ⟨h.live_subset, fun he => ?_⟩)
  have hm : r.index ∈ w'.live := he ▸ mem_live.2 ⟨hr, hd⟩
  rw [(mem_live.1 hm).2] at hd'
  contradiction

/-- When a coroutine has joined, fewer are left. -/
theorem Evolves.card_waiting_lt (h : Evolves w w') (hr : w.Has r)
    (hs : (w.coroutines.get r).stage = .new) (hs' : (w'.coroutines.get r).stage ≠ .new) :
    w'.waiting.card < w.waiting.card := by
  refine Finset.card_lt_card (Finset.ssubset_iff_subset_ne.2 ⟨h.waiting_subset, fun he => ?_⟩)
  have hm : r.index ∈ w'.waiting := he ▸ mem_waiting.2 ⟨hr, hs⟩
  exact hs' (mem_waiting.1 hm).2

end Left

/-! ### Ending -/

theorem completeGather?_eq_some {w : World} {r : Ref .coroutine} {g : GatherState} :
    w.completeGather? r = some g ↔ (w.coroutines.get r).kind = .gather g ∧
      (w.coroutines.get r).isDone = false ∧ g.pending = 0 := by
  unfold completeGather?
  cases hk : (w.coroutines.get r).kind with
  | gather g' =>
    -- a group that is done, or that still waits for somebody, is not complete
    by_cases hc : (w.coroutines.get r).isDone = true ∨ g'.pending ≠ 0
    · simp only [hk, hc, if_true]
      constructor
      · intro h
        contradiction
      · rintro ⟨he, hd, hp⟩
        obtain rfl := CoroutineKind.gather.inj he
        obtain hc | hc := hc
        · rw [hd] at hc
          contradiction
        · exact absurd hp hc
    · simp only [hk, hc, if_false]
      obtain ⟨hd, hp⟩ := not_or.1 hc
      constructor
      · rintro ⟨⟩
        exact ⟨rfl, Bool.eq_false_iff.2 hd, Classical.not_not.1 hp⟩
      · rintro ⟨he, -, -⟩
        rw [CoroutineKind.gather.inj he]
  | _ => simp [hk]

theorem has_of_gather {w : World} {r : Ref .coroutine} {g : GatherState}
    (h : (w.coroutines.get r).kind = .gather g) : w.Has r := by
  refine get?_of_get_ne fun hd => ?_
  rw [hd] at h
  contradiction

theorem heap_complete (w : World) (r : Ref .coroutine) (outcome : Outcome) :
    (w.complete r outcome).heap = (Heap.duplicateOutcome outcome w.heap).2 := by
  simp only [complete, releaseLinks]
  split <;> rfl

/-- The coroutine that is done keeps an outcome that holds the same as the one it came to. -/
theorem outcome_settle (w : World) {r : Ref .coroutine} (outcome : Outcome) (hr : w.Has r)
    (he : (w.coroutines.get r).exception = none) :
    ((w.settle r outcome).coroutines.get r).isDone = true ∧
      (w.settle r outcome).heap.MirrorsOutcome ((w.settle r outcome).coroutines.get r).outcome
        outcome := by
  obtain ⟨hs, -, -, -, ho⟩ := get_complete w outcome hr he
  have hwake : Evolves (w.complete r outcome) (w.settle r outcome) :=
    Evolves.foldl (evolves_wakeWithCopy outcome) _ _
  have hm := (Heap.mirrors_duplicateOutcome outcome w.heap).symm
  rw [← heap_complete w r outcome, ← ho] at hm
  rw [get_settle w outcome (by simp [hs])]
  exact ⟨by simp [isDone, hs], hm.mono hwake.heap⟩

section Rules

variable {P : Focus → List Due → World → Prop} {dues : List Due} {w : World} {r : Ref .coroutine}

/-- A coroutine that is done reports to the gather tasks of a list, and each that is complete is done
too. -/
theorem Kept.reports (hP : Kept P) {depth : Nat} {outcome : Outcome}
    (ih : ∀ {w : World} {p : Ref .coroutine} {total : Outcome} {dues : List Due}, w.Has p →
      (w.coroutines.get p).isDone = false → w.live.card ≤ depth →
      (w.coroutines.get p).exception = none →
      P .nobody (w.owes p ++ dues) (w.settle p (finalOutcome (w.coroutines.get p) total)) →
      P .nobody dues (finishWithin depth w p total)) (l : List (Ref .coroutine × Nat))
    (h : P .nobody (l.map (fun p => ⟨p.1, p.2, r⟩) ++ dues) w)
    (hd : (w.coroutines.get r).isDone = true)
    (ho : w.heap.MirrorsOutcome (w.coroutines.get r).outcome outcome)
    (hn : w.live.card ≤ depth) :
    P .nobody dues (l.foldl (fun w x =>
      match (w.report outcome x.1 x.2).completeGather? x.1 with
      | some g => finishWithin depth ((w.report outcome x.1 x.2).onHeap g.outcome).2 x.1
          ((w.report outcome x.1 x.2).onHeap g.outcome).1
      | none => w.report outcome x.1 x.2) w) := by
  induction l generalizing w with
  | nil => exact h
  | cons x l ihl =>
    let w₁ := w.report outcome x.1 x.2
    have h₁ : P (.ending x.1) (l.map (fun p => ⟨p.1, p.2, r⟩) ++ dues) w₁ := hP.report h hd ho
    have e₁ : Evolves w w₁ := (events_report (a := none) outcome w x.1 x.2).evolves
    -- whatever the report has led to, the child's outcome is still there for the others
    have goes {w' : World} (e : Evolves w w')
        (h : P .nobody (l.map (fun p => ⟨p.1, p.2, r⟩) ++ dues) w') :
        P .nobody dues (l.foldl (fun w x =>
          match (w.report outcome x.1 x.2).completeGather? x.1 with
          | some g => finishWithin depth ((w.report outcome x.1 x.2).onHeap g.outcome).2 x.1
              ((w.report outcome x.1 x.2).onHeap g.outcome).1
          | none => w.report outcome x.1 x.2) w') := by
      obtain ⟨hd', ho'⟩ := e.done hd
      refine ihl h hd' ?_ ((Finset.card_le_card e.live_subset).trans hn)
      rw [ho']
      exact ho.mono e.heap
    rw [List.foldl_cons]
    cases hg : w₁.completeGather? x.1 with
    | none => exact goes e₁ (hP.rest h₁ (.inl hg))
    | some g =>
      obtain ⟨hk, hd', -⟩ := completeGather?_eq_some.1 hg
      have h₂ := hP.conclude h₁ hg
      refine goes (e₁.trans ?_) (ih (w := (w₁.onHeap g.outcome).2) (has_of_gather hk) hd' ?_
        (hP.fresh (w := w₁) h₁ hd') h₂)
      · exact (events_onHeap (a := none) w₁ g.extends_outcome).evolves.trans
          (events_finishWithin depth _ x.1 _ (active_none _) (by simp)).evolves
      · exact (Finset.card_le_card e₁.live_subset).trans hn

theorem Kept.finishWithin (hP : Kept P) {depth : Nat} {w : World} {r : Ref .coroutine}
    {outcome : Outcome} {dues : List Due} (hr : w.Has r)
    (hd : (w.coroutines.get r).isDone = false) (hn : w.live.card ≤ depth)
    (he : (w.coroutines.get r).exception = none)
    (h : P .nobody (w.owes r ++ dues) (w.settle r (finalOutcome (w.coroutines.get r) outcome))) :
    P .nobody dues (finishWithin depth w r outcome) := by
  induction depth generalizing w r outcome dues with
  | zero =>
    -- there is at least one left
    have hm : r.index ∈ w.live := mem_live.2 ⟨hr, hd⟩
    rw [Finset.card_eq_zero.1 (Nat.le_zero.1 hn)] at hm
    contradiction
  | succ depth ih =>
    obtain ⟨hd', ho⟩ := outcome_settle w (finalOutcome (w.coroutines.get r) outcome) hr he
    have hlt := (evolves_settle w r _ hd).card_live_lt hr hd hd'
    simp only [World.finishWithin, hd]
    exact hP.reports (fun h₁ h₂ h₃ h₄ h₅ => ih h₁ h₂ h₃ h₄ h₅) (w.coroutines.get r).parents h hd' ho
      (by omega)

/-- A property that is kept when a coroutine is done and owes its outcome is kept by all that
follows from it. -/
theorem Kept.finish (hP : Kept P) {outcome : Outcome} (hr : w.Has r)
    (hd : (w.coroutines.get r).isDone = false) (he : (w.coroutines.get r).exception = none)
    (h : P .nobody (w.owes r ++ dues) (w.settle r (finalOutcome (w.coroutines.get r) outcome))) :
    P .nobody dues (w.finish r outcome) :=
  hP.finishWithin hr hd (card_live_le.trans (Nat.le_succ _)) he h

theorem Kept.finishIfComplete (hP : Kept P) (h : P (.ending r) dues w) :
    P .nobody dues (w.finishIfComplete r) := by
  unfold World.finishIfComplete
  cases hg : w.completeGather? r with
  | none => exact hP.rest h (.inl hg)
  | some g =>
    obtain ⟨hk, hd, -⟩ := completeGather?_eq_some.1 hg
    exact hP.finish (w := (w.onHeap g.outcome).2) (has_of_gather hk) hd (hP.fresh (w := w) h hd)
      (hP.conclude h hg)

/-! ### Starting -/

/-- A gather task turns to the children of a list. -/
theorem Kept.enlists (hP : Kept P) {depth : Nat}
    (ih : ∀ {w : World} {r : Ref .coroutine} {dues : List Due}, w.Has r →
      w.waiting.card ≤ depth → P (.starting r) dues w → P .nobody dues (startWithin depth w r))
    (l : List (Ref .coroutine × Nat))
    (h : P (.ending r) (l.map (fun x => ⟨r, x.2, x.1⟩) ++ dues) w)
    (hn : w.waiting.card ≤ depth) :
    P (.ending r) dues
      (l.foldl (fun w x => enlist (startWithin depth) r w x.1 x.2) w) := by
  induction l generalizing w with
  | nil => exact h
  | cons x l ihl =>
    have h₀ := hP.rest h (.inr ⟨⟨r, x.2, x.1⟩, List.mem_cons_self, rfl⟩)
    have hc : w.Has x.1 := hP.has h₀ List.mem_cons_self
    have e : Evolves w (enlist (startWithin depth) r w x.1 x.2) :=
      (events_enlist (a := none) (fun w c hw => events_startWithin depth w c hw) r w x.1 x.2
        (active_none w)).evolves
    refine ihl ?_ ((Finset.card_le_card e.waiting_subset).trans hn)
    unfold enlist
    by_cases hd : (w.coroutines.get x.1).isDone = true
    · simp only [hd, if_true]
      -- a child that is done reports at once
      exact hP.report h₀ hd (.refl _ _)
    · simp only [hd]
      have hd : (w.coroutines.get x.1).isDone = false := Bool.eq_false_iff.2 hd
      have linked : Evolves w (w.link ⟨r, x.2, x.1⟩) :=
        .of_modify fun c _ => .single (.parent c r x.2)
      exact hP.attend _ (ih (hc.evolves linked)
        ((Finset.card_le_card linked.waiting_subset).trans hn) (hP.link h₀ hd))

theorem Kept.startWithin (hP : Kept P) {depth : Nat} {w : World} {r : Ref .coroutine}
    {dues : List Due} (hr : w.Has r) (hn : w.waiting.card ≤ depth) (h : P (.starting r) dues w) :
    P .nobody dues (startWithin depth w r) := by
  induction depth generalizing w r dues with
  | zero =>
    refine hP.begun h fun hs => ?_
    have hm : r.index ∈ w.waiting := mem_waiting.2 ⟨hr, hs⟩
    rw [Finset.card_eq_zero.1 (Nat.le_zero.1 hn)] at hm
    contradiction
  | succ depth ih =>
    -- whoever has begun already is left alone, and nobody new is waiting then
    by_cases hs : (w.coroutines.get r).stage = .new
    · cases hk : (w.coroutines.get r).kind with
      | script f owner =>
        simp only [World.startWithin, hs, hk]
        exact hP.line h hr hs hk
      | timer wake =>
        simp only [World.startWithin, hs, hk]
        exact hP.sleep h hr hs hk
      | gather g =>
        have e := evolves_enroll w r .gatherWait hs (by simp) (by simp) (by simp)
        have hget : (w.enroll r .gatherWait).coroutines.get r =
            { w.coroutines.get r with stage := .gatherWait } := get_modifyCoroutine w r _ hr
        have hlt := e.card_waiting_lt hr hs (by rw [hget]; simp)
        have h₁ := hP.join h hr hs hk
        simp only [World.startWithin, hs, hk]
        exact hP.finishIfComplete (hP.enlists (fun h₁ h₂ h₃ => ih h₁ h₂ h₃) g.children.zipIdx h₁
          (by omega))
    · simp only [World.startWithin]
      rw [if_pos hs]
      exact hP.begun h hs

/-- A property that is kept by each part of the bookkeeping is kept when a coroutine is started. -/
theorem Kept.start (hP : Kept P) (hr : w.Has r) (h : P .nobody dues w) :
    P .nobody dues (w.start r) :=
  hP.startWithin hr (card_waiting_le.trans (Nat.le_succ _)) (hP.attend _ h)

end Rules

end World

end Rewind
