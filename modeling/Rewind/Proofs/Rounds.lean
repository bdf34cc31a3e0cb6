/-
Between the turns of a loop.

A loop goes from round to round: timers that are due end, the coroutine at the head of the queue
takes its turn, or the clock moves on to the first sleeper; and the clock may go on at any time.
Between any two of these the records of all coroutines and the lists of the loop fit together.  If
nothing is left to do and the root is not done, it waits, at some remove, for coroutines that wait
for each other in a circle.

* `Round`, `Rounds` — what a loop does between two turns; `rounds_drive` — a loop is rounds;
* `World.Scheduled`, `scheduled_between_turns` — how everything fits together between two turns;
* `World.WaitsOn`, `World.Knotted` — coroutines that wait for each other in a circle;
* `deadlock_of_knot` — nothing else can keep the root of a loop from its end.
-/
import Mathlib.Data.Fintype.Pigeonhole
import Rewind.Proofs.Queue

namespace Rewind

open Coroutine World Eval

/-! ### Rounds -/

/-- The machine whose clock has gone on. -/
def clocked (m : Machine) (now : Nat) : Machine :=
  { m with world := { m.world with loop := { m.world.loop with now } } }

/-- What a loop does between two turns, and a turn. -/
inductive Round (j : Jobs) : Machine → Machine → Prop
  /-- The clock goes on, whoever is in the queue. -/
  | tick {m : Machine} {now : Nat} : m.world.loop.now ≤ now → Round j m (clocked m now)
  /-- The clock is looked at, and the timers that are due end. -/
  | poll {m : Machine} : Round j m (polled m)
  /-- The head of the queue takes its turn. -/
  | turn {m m' : Machine} {r : Ref .coroutine} {rest : List (Ref .coroutine)} :
      m.world.loop.ready = r :: rest → runTurn j r (dequeued m rest) = .ok () m' → Round j m m'
  /-- Nobody is in the queue, and the clock moves on. -/
  | rest {m : Machine} {wake : Nat} {r : Ref .coroutine} {rest : List (Nat × Ref .coroutine)} :
      m.world.loop.ready = [] → m.world.loop.sleepers = (wake, r) :: rest → Round j m (rested m wake)

/-- From a moment between two turns to a later one. -/
def Rounds (j : Jobs) : Machine → Machine → Prop := Relation.ReflTransGen (Round j)

theorem Rounds.within {j : Jobs} (hj : Works j) {m m' : Machine} (h : Rounds j m m')
    (hw : m.world.Sound) (hv : m.weaving = true) :
    Within (m.situation .looping) (m'.situation .looping) ∧ m'.weaving = true := by
  induction h with
  | refl => exact ⟨.refl, hv⟩
  | @tail m₁ m₂ _ hround ih =>
    obtain ⟨hm, hv₁⟩ := ih
    cases hround with
    | tick hn => exact ⟨.tail hm ⟨.tick (by simp [Control.GoesOn]) hn, by simp⟩, hv₁⟩
    | poll =>
      exact ⟨Relation.ReflTransGen.trans hm ((proceeds_polled m₁).within (by simp)), hv₁⟩
    | turn hr hrun =>
      have looped := looped_turn hj (hm.steps.sound hw) hv₁ hr
      rw [hrun] at looped
      exact ⟨Relation.ReflTransGen.trans hm (looped.2.within (by simp)), looped.1.weaving.trans hv₁⟩
    | rest => exact ⟨.tail hm ⟨.tick (by simp [Control.GoesOn]) (Nat.le_max_left _ _), by simp⟩, hv₁⟩

/-- A loop that has come to rest has gone through rounds, and nothing is left to do. -/
theorem rounds_drive {j : Jobs} {n : Nat} {m m' : Machine} {u : Unit}
    (h : drive j n m = .ok u m') :
    Rounds j m m' ∧ m'.world.loop.ready = [] ∧ m'.world.loop.sleepers = [] := by
  induction n generalizing m with
  | zero => cases h
  | succ n ih =>
    rw [drive_run] at h
    -- each round of the loop polls, and then runs a turn, rests or stops
    cases hr : (polled m).world.loop.ready with
    | cons r rest =>
      simp only [hr] at h
      replace h : EStateM.bind (runTurn j r) (fun _ => drive j n) (dequeued (polled m) rest) =
        .ok u m' := h
      unfold EStateM.bind at h
      cases hrun : runTurn j r (dequeued (polled m) rest) with
      | ok v m₁ =>
        rw [hrun] at h
        obtain ⟨hrounds, hdone⟩ := ih h
        exact ⟨.head .poll (.head (.turn hr hrun) hrounds), hdone⟩
      | error e m₁ =>
        rw [hrun] at h
        cases h
    | nil =>
      simp only [hr] at h
      cases hs : (polled m).world.loop.sleepers with
      | cons x l =>
        simp only [hs] at h
        obtain ⟨hrounds, hdone⟩ := ih h
        exact ⟨.head .poll (.head (.rest hr hs) hrounds), hdone⟩
      | nil =>
        simp only [hs] at h
        cases h
        exact ⟨.single .poll, hr, hs⟩

/-! ### Everything fits together -/

namespace World

/-- How the records and the lists of a loop fit together between two turns. -/
structure Scheduled (w : World) : Prop where
  /-- The queue holds exactly the coroutines that can go on, each once. -/
  ready : w.loop.ready.Nodup ∧ ∀ r, r ∈ w.loop.ready ↔ (w.coroutines.get r).stage = .runnable
  /-- The sleepers are exactly the timers that have not ended, each once, -/
  sleepers : (w.loop.sleepers.map Prod.snd).Nodup ∧
    ∀ r, r ∈ w.loop.sleepers.map Prod.snd ↔ (w.coroutines.get r).stage = .suspendedTimer
  wakes : ∀ x ∈ w.loop.sleepers, (w.coroutines.get x.2).kind = .timer x.1
  /-- in the order in which they wake, and those that wake at once in the order they were started. -/
  sorted : w.loop.sleepers.Pairwise (Before w.loop.started)
  /-- Whoever waits for another one waits for one that is not done, and is on its list once and on
  no other. -/
  waits : ∀ r, (w.coroutines.get r).stage = .suspendedAwait →
    ∃ t, (w.coroutines.get r).awaiting = some t ∧ (w.coroutines.get t).isDone = false ∧
      (w.coroutines.get t).waiters.count r = 1 ∧
      ∀ u, u ≠ t → r ∉ (w.coroutines.get u).waiters
  /-- A gather task has as many outcomes pending as slots are empty, and some are; the child of each
  is not done and has the task and the slot among its parents once. -/
  gathers : ∀ r, (w.coroutines.get r).stage = .gatherWait →
    ∃ g, (w.coroutines.get r).kind = .gather g ∧ g.pending = g.slots.countP (·.isNone) ∧
      0 < g.pending ∧ ∀ i : Nat, g.slots[i]? = some none → ∃ child, g.children[i]? = some child ∧
        (w.coroutines.get child).isDone = false ∧
        (w.coroutines.get child).parents.count (r, i) = 1
  /-- Nobody is linked to a coroutine that is done, and it has nothing to go on with. -/
  done : ∀ r, (w.coroutines.get r).isDone = true → (w.coroutines.get r).Bare
  idle : ∀ r, (w.coroutines.get r).stage ≠ .running

end World

theorem Coroutine.Regular.gather {c : Coroutine} (h : c.Regular) (hs : c.stage = .gatherWait) :
    ∃ g, c.kind = .gather g := by
  have hf := h.fits
  unfold Coroutine.Fits at hf
  cases hk : c.kind with
  | gather g => exact ⟨g, rfl⟩
  | _ =>
    rw [hk] at hf
    simp [hs] at hf

namespace World

variable {past : Heap → Prop} {w : World}

/-- Whoever is waited for is not done, and has joined the loop. -/
theorem Queued.alive {a : Option (Ref .coroutine)} (h : w.Queued a [])
    (ha : w.Accounts past .nobody []) {r t : Ref .coroutine}
    (hr : (w.coroutines.get r).Waits t) :
    (w.coroutines.get t).isDone = false ∧ (w.coroutines.get t).stage ≠ .new := by
  have hcount := h.waited hr
  refine ⟨Bool.eq_false_iff.2 fun hd => ?_, fun hn => ?_⟩
  · rw [((ha.regular t).bare hd).waiters] at hcount
    contradiction
  · rw [(ha.regular t).waiters hn] at hcount
    contradiction

/-- The child of an empty slot is not done, has joined the loop, and knows of the slot. -/
theorem Accounts.alive (h : w.Accounts past .nobody []) {r child : Ref .coroutine}
    {g : GatherState} (hk : (w.coroutines.get r).kind = .gather g)
    (hs : (w.coroutines.get r).stage = .gatherWait) {i : Nat} (hc : g.children[i]? = some child)
    (hi : g.slots[i]? = some none) :
    (w.coroutines.get child).isDone = false ∧ (w.coroutines.get child).stage ≠ .new ∧
      (w.coroutines.get child).parents.count (r, i) = 1 := by
  have honce := h.once (d := ⟨r, i, child⟩) ⟨g, hk, hs, hc, hi⟩
  rw [List.count_nil, Nat.zero_add] at honce
  refine ⟨h.isDone_of_empty hk hs hc hi, ?_, honce⟩
  refine (h.begun fun hp => ?_).resolve_right (by simp)
  rw [show (w.coroutines.get child).parents = [] from hp] at honce
  contradiction

theorem scheduled (h : w.Queued none []) (ha : w.Accounts past .nobody []) : w.Scheduled := by
  refine ⟨⟨h.nodup, fun r => ?_⟩, ⟨?_, fun r => ?_⟩, fun x hx => (h.sleeping.1 hx).2.1, h.sorted,
    fun r hs => ?_, fun r hs => ?_, fun r hd => (ha.regular r).bare hd,
    fun r hs => absurd (h.running hs) (by simp)⟩
  · rw [h.ready]
    exact and_iff_left (by simp)
  · refine List.pairwise_map.2 (h.sorted.imp_of_mem fun {x y} hx hy hb he => ?_)
    -- a timer wakes at one time only, and is started once
    have hk := (h.sleeping.1 (show (x.1, x.2) ∈ w.loop.sleepers from hx)).2.1
    have hk' := (h.sleeping.1 (show (y.1, y.2) ∈ w.loop.sleepers from hy)).2.1
    rw [he, hk'] at hk
    obtain hlt | ⟨-, hsub⟩ := hb
    · rw [CoroutineKind.timer.inj hk] at hlt
      exact Nat.lt_irrefl _ hlt
    · rw [he] at hsub
      have hnodup := h.once.sublist hsub
      simp at hnodup
  · constructor
    · intro hm
      obtain ⟨x, hx, rfl⟩ := List.mem_map.1 hm
      exact (h.sleeping.1 (show (x.1, x.2) ∈ w.loop.sleepers from hx)).1
    · intro hs
      obtain ⟨wake, hk⟩ := (ha.regular r).timer hs
      exact List.mem_map.2 ⟨(wake, r), h.sleeping.2 ⟨hs, hk, by simp⟩, rfl⟩
  · obtain ⟨t, ht⟩ := h.awaits hs
    refine ⟨t, ht, (h.alive ha ⟨hs, ht⟩).1, h.waited ⟨hs, ht⟩, fun u hu hm => hu ?_⟩
    exact Option.some.inj ((h.waiting hm).2.symm.trans ht)
  · obtain ⟨g, hk⟩ := (ha.regular r).gather hs
    have hpending := (ha.regular r).pending hk
    refine ⟨g, hk, hpending, ?_, fun i hi => ?_⟩
    · rw [hpending]
      exact List.countP_pos_iff.2 ⟨none, ha.rest hk hs (by simp), rfl⟩
    · have hlt : i < g.children.length := by
        rw [← (ha.regular r).length hk]
        exact (List.getElem?_eq_some_iff.1 hi).1
      have hc : g.children[i]? = some g.children[i] := List.getElem?_eq_getElem hlt
      obtain ⟨hd, -, hcount⟩ := ha.alive hk hs hc hi
      exact ⟨_, hc, hd, hcount⟩

end World

section Loop

variable {env : Environment} {fuel : Nat} {m m' : Machine} {root : Ref .coroutine}

/-- Between two turns of a loop that starts with nobody left over, the lists are in order. -/
theorem queued_between_turns (reachable : Reachable env (m.situation .idle))
    (weaving : m.weaving = true) (has : m.world.Has root)
    (new : (m.world.coroutines.get root).stage = .new)
    (uncancelled : (m.world.coroutines.get root).isCancelled = false) (vacant : m.world.Vacant)
    (rounds : Rounds (jobs fuel) (opened m root) m') :
    m'.world.Queued none [] ∧ Reachable env (m'.situation .looping) := by
  have opens : Step (m.situation .idle) ((opened m root).situation .looping) :=
    .opening root has new uncancelled
  have reached : Reachable env ((opened m root).situation .looping) := .tail reachable opens
  obtain ⟨within, -⟩ := rounds.within (works_jobs fuel) reached.sound weaving
  refine ⟨?_, Relation.ReflTransGen.trans reached within.steps⟩
  exact (Within.queued reachable vacant has new uncancelled within).resolve_left (by simp)

/-- In every state between two turns of a loop that starts with nobody left over, the records of all
coroutines and the lists of the loop fit together. -/
theorem scheduled_between_turns (reachable : Reachable env (m.situation .idle))
    (weaving : m.weaving = true) (has : m.world.Has root)
    (new : (m.world.coroutines.get root).stage = .new)
    (uncancelled : (m.world.coroutines.get root).isCancelled = false) (vacant : m.world.Vacant)
    (rounds : Rounds (jobs fuel) (opened m root) m') : m'.world.Scheduled := by
  obtain ⟨queued, reached⟩ :=
    queued_between_turns reachable weaving has new uncancelled vacant rounds
  exact scheduled queued reached.accounts

end Loop

/-- A new coroutine is left over from no loop. -/
theorem World.Vacant.push {w : World} (h : w.Vacant) {x : Coroutine} (hx : x.stage = .new) :
    Vacant { w with coroutines := w.coroutines.push x } := by
  intro r
  obtain he | ⟨he, -⟩ := get_pushed w x r
  · rw [show (World.coroutines { w with coroutines := w.coroutines.push x }).get r =
      w.coroutines.get r from he]
    exact h r
  · rw [show (World.coroutines { w with coroutines := w.coroutines.push x }).get r = x from he]
    exact .inl hx

theorem vacant_patientWorld : patientWorld.Vacant := fun r => by
  have none : patientWorld.coroutines.get r = default := by
    simp [patientWorld, Machine.new, Arena.get, Arena.get?]
  rw [none]
  exact .inl rfl

/-- The program before its loop is opened. -/
def patientMachine : Machine :=
  let f : Coroutine := { serial := 1, name := "f", kind := .script ⟨0⟩ none, scope := some ⟨1⟩ }
  let t : Coroutine := { serial := 2, name := "t", kind := .timer 5 }
  { world := { patientWorld with coroutines := (patientWorld.coroutines.push f).push t },
    weaving := true }

theorem reachable_patientMachine : Reachable {} (patientMachine.situation .idle) :=
  .tail (.tail reachable_patientWorld
    (.create 1 "f" (.script ⟨0⟩ none) (some ⟨1⟩) (by simp [Control.GoesOn]) (admits_script _ _ _)))
    (.create 2 "t" (.timer 5) none (by simp [Control.GoesOn]) (admits_timer _ _))

theorem scheduled_of_patientMachine :
    (polled (rested patientTurn 5)).world.loop.ready = [⟨0⟩] ∧
      (polled (rested patientTurn 5)).world.Scheduled := by
  obtain ⟨rest, hready, hturn, -⟩ := suspends_patientLoop
  have sleeping : patientTurn.world.loop.ready = [] ∧
      patientTurn.world.loop.sleepers = [(5, ⟨1⟩)] := by decide +kernel
  have rounds : Rounds (jobs 10) (opened patientMachine ⟨0⟩) (polled (rested patientTurn 5)) :=
    .tail (.tail (.single (.turn hready hturn)) (.rest sleeping.1 sleeping.2)) .poll
  have has : patientMachine.world.Has ⟨0⟩ := rfl
  exact ⟨by decide +kernel, scheduled_between_turns reachable_patientMachine rfl has rfl rfl
    ((vacant_patientWorld.push rfl).push rfl) rounds⟩

/-! ### Coroutines that wait for each other -/

namespace World

/-- Of two coroutines that are not done the one waits for the other. -/
def WaitsOn (w : World) (r s : Ref .coroutine) : Prop :=
  (w.coroutines.get r).isDone = false ∧ (w.coroutines.get s).isDone = false ∧
    ((w.coroutines.get r).awaiting = some s ∨ s ∈ (w.coroutines.get r).children)

/-- The coroutine waits, at some remove, for one that waits for itself. -/
def Knotted (w : World) (root : Ref .coroutine) : Prop :=
  ∃ r, Relation.ReflTransGen w.WaitsOn root r ∧ Relation.TransGen w.WaitsOn r r

/-- The coroutine has joined the loop and is not done. -/
def Pending (w : World) (r : Ref .coroutine) : Prop :=
  (w.coroutines.get r).stage ≠ .new ∧ (w.coroutines.get r).isDone = false

theorem Pending.has {w : World} {r : Ref .coroutine} (h : w.Pending r) : w.Has r :=
  get?_of_stage h.1

variable {past : Heap → Prop} {w : World}

/-- When nothing is left to do, everyone who is pending waits for someone who is. -/
theorem Queued.exists_waitsOn (h : w.Queued none []) (ha : w.Accounts past .nobody [])
    (hready : w.loop.ready = []) (hsleepers : w.loop.sleepers = []) {r : Ref .coroutine}
    (hr : w.Pending r) : ∃ s, w.Pending s ∧ w.WaitsOn r s := by
  obtain ⟨hn, hd⟩ := hr
  cases hs : (w.coroutines.get r).stage with
  | new => exact absurd hs hn
  | runnable =>
    have hm := h.ready.2 ⟨hs, by simp⟩
    rw [hready] at hm
    contradiction
  | running => exact absurd (h.running hs) (by simp)
  | suspendedAwait =>
    obtain ⟨t, ht⟩ := h.awaits hs
    obtain ⟨htd, htn⟩ := h.alive ha ⟨hs, ht⟩
    exact ⟨t, ⟨htn, htd⟩, hd, htd, .inl ht⟩
  | suspendedTimer =>
    obtain ⟨wake, hk⟩ := (ha.regular r).timer hs
    have hm := h.sleeping.2 ⟨hs, hk, by simp⟩
    rw [hsleepers] at hm
    contradiction
  | gatherWait =>
    obtain ⟨g, hk⟩ := (ha.regular r).gather hs
    -- a group that still waits has a slot that is not filled, whose child is still to end
    obtain ⟨i, hi⟩ := List.mem_iff_getElem?.1 (ha.rest hk hs (by simp))
    have hlt : i < g.children.length := by
      rw [← (ha.regular r).length hk]
      exact (List.getElem?_eq_some_iff.1 hi).1
    obtain ⟨hcd, hcn, -⟩ := ha.alive hk hs (List.getElem?_eq_getElem hlt) hi
    have hm : g.children[i] ∈ (w.coroutines.get r).children := by
      rw [Coroutine.children, hk]
      exact List.getElem_mem hlt
    exact ⟨_, ⟨hcn, hcd⟩, hd, hcd, .inr hm⟩
  | done =>
    rw [isDone, hs] at hd
    contradiction

/-- There are only so many coroutines, so whoever always leads to another one comes to a circle. -/
theorem knotted_of_exists {root : Ref .coroutine} (hroot : w.Pending root)
    (h : ∀ r, w.Pending r → ∃ s, w.Pending s ∧ w.WaitsOn r s) : w.Knotted root := by
  choose next pending waits using h
  let step (r : { r // w.Pending r }) : { r // w.Pending r } := ⟨next r.1 r.2, pending r.1 r.2⟩
  let path (n : Nat) : { r // w.Pending r } := step^[n] ⟨root, hroot⟩
  have path_succ (n : Nat) : w.WaitsOn (path n).1 (path (n + 1)).1 := by
    have hs : path (n + 1) = step (path n) := Function.iterate_succ_apply' step n _
    rw [hs]
    exact waits _ (path n).2
  have from_root (n : Nat) : Relation.ReflTransGen w.WaitsOn root (path n).1 := by
    induction n with
    | zero => exact .refl
    | succ n ih => exact ih.tail (path_succ n)
  have onwards (n k : Nat) : Relation.TransGen w.WaitsOn (path n).1 (path (n + k + 1)).1 := by
    induction k with
    | zero => exact .single (path_succ n)
    | succ k ih => exact ih.tail (path_succ (n + k + 1))
  -- two places of the path are the same
  let place (n : Nat) : Fin w.coroutines.size :=
    ⟨(path n).1.index, has_iff.1 (path n).2.has⟩
  obtain ⟨i, j, hne, hij⟩ := Finite.exists_ne_map_eq_of_infinite place
  have same : (path i).1 = (path j).1 := by
    have hindex : (path i).1.index = (path j).1.index := congrArg Fin.val hij
    cases hi : (path i).1
    cases hj : (path j).1
    rw [hi, hj] at hindex
    exact congrArg Ref.mk hindex
  obtain hlt | hlt := Nat.lt_or_gt_of_ne hne
  · obtain ⟨k, rfl⟩ := Nat.exists_eq_add_of_lt hlt
    exact ⟨_, from_root i, same ▸ onwards i k⟩
  · obtain ⟨k, rfl⟩ := Nat.exists_eq_add_of_lt hlt
    exact ⟨_, from_root j, same ▸ onwards j k⟩

end World

section Deadlock

variable {env : Environment} {fuel n : Nat} {m m' : Machine} {root : Ref .coroutine}

/-- A loop that starts with nobody left over comes to rest with its root done, unless the root waits,
at some remove, for coroutines that wait for each other in a circle; and that is the only way to a
deadlock. -/
theorem deadlock_of_knot (reachable : Reachable env (m.situation .idle))
    (weaving : m.weaving = true) (has : m.world.Has root)
    (new : (m.world.coroutines.get root).stage = .new)
    (uncancelled : (m.world.coroutines.get root).isCancelled = false) (vacant : m.world.Vacant) :
    (∀ name stage, runLoop (jobs fuel) n root m = .error (.failure (.deadlock name stage)) m' →
      (m'.world.coroutines.get root).isDone = false ∧ m'.world.Knotted root) ∧
    (drive (jobs fuel) n (opened m root) = .ok () m' → ¬ m'.world.Knotted root →
      (m'.world.coroutines.get root).isDone = true) := by
  have opens : Step (m.situation .idle) ((opened m root).situation .looping) :=
    .opening root has new uncancelled
  have reached : Reachable env ((opened m root).situation .looping) := .tail reachable opens
  have knotted {m' : Machine} (hdrive : drive (jobs fuel) n (opened m root) = .ok () m')
      (hd : (m'.world.coroutines.get root).isDone = false) : m'.world.Knotted root := by
    obtain ⟨rounds, hready, hsleepers⟩ := rounds_drive hdrive
    obtain ⟨queued, reached'⟩ :=
      queued_between_turns reachable weaving has new uncancelled vacant rounds
    obtain ⟨within, -⟩ := rounds.within (works_jobs fuel) reached.sound weaving
    have started : ((opened m root).world.coroutines.get root).stage ≠ .new :=
      stage_start_ne_new m.world.openLoop has
    have hroot : m'.world.Pending root :=
      ⟨(within.steps.later reached.coherent (get?_of_stage started)).joined started, hd⟩
    exact knotted_of_exists hroot fun r hr =>
      queued.exists_waitsOn reached'.accounts hready hsleepers hr
  refine ⟨fun name stage hrun => ?_, fun hdrive hnot => ?_⟩
  · rw [runLoop_run] at hrun
    cases hdrive : drive (jobs fuel) n (opened m root) with
    | ok u m₁ =>
      simp only [hdrive] at hrun
      by_cases hd : (m₁.world.coroutines.get root).isDone = true
      · rw [if_pos hd] at hrun
        cases hrun
      · rw [if_neg hd] at hrun
        cases hrun
        have hd := Bool.eq_false_iff.2 hd
        exact ⟨hd, knotted hdrive hd⟩
    | error e m₁ =>
      -- within the rounds nobody finds a deadlock
      have looped := looped_drive (works_jobs fuel) n reached.sound (m := opened m root) weaving
      rw [hdrive] at looped
      simp only [hdrive] at hrun
      cases hrun
      obtain hf | ⟨r, name, hf, -⟩ | ⟨hf, -⟩ := looped.2.2
      · exact absurd hf (by simp [Fault.Arises])
      · cases hf
      · cases hf
  · exact Classical.byContradiction fun hd => hnot (knotted hdrive (Bool.eq_false_iff.2 hd))

end Deadlock

/-- A program with a coroutine that waits for a gather task of which it is the only child. -/
def knottedMachine : Machine :=
  let f : Coroutine := { serial := 1, name := "f", kind := .script ⟨0⟩ none, scope := some ⟨1⟩ }
  let t : Coroutine :=
    { serial := 2, name := "gather_task", kind := .gather (.ofChildren [⟨0⟩] false) }
  { world := { patientWorld with coroutines := (patientWorld.coroutines.push f).push t },
    weaving := true }

theorem reachable_knottedMachine : Reachable {} (knottedMachine.situation .idle) := by
  refine .tail (.tail reachable_patientWorld
    (.create 1 "f" (.script ⟨0⟩ none) (some ⟨1⟩) (by simp [Control.GoesOn]) (admits_script _ _ _)))
    (.create 2 "gather_task" (.gather (.ofChildren [⟨0⟩] false)) none (by simp [Control.GoesOn]) ?_)
  rintro g ⟨⟩
  refine ⟨_, _, rfl, fun child hm => ?_⟩
  obtain rfl : child = ⟨0⟩ := by simpa using hm
  rfl

theorem stuck_knottedMachine :
    (match runLoop (jobs 10) 5 ⟨0⟩ knottedMachine with
      | .error (.failure (.deadlock _ _)) _ => true
      | _ => false) = true := by
  decide +kernel

theorem deadlock_of_knottedMachine :
    ∃ name stage m', runLoop (jobs 10) 5 ⟨0⟩ knottedMachine =
      .error (.failure (.deadlock name stage)) m' ∧
      (m'.world.coroutines.get ⟨0⟩).isDone = false ∧ m'.world.Knotted ⟨0⟩ := by
  have stuck := stuck_knottedMachine
  have has : knottedMachine.world.Has ⟨0⟩ := rfl
  have vacant : knottedMachine.world.Vacant := (vacant_patientWorld.push rfl).push rfl
  cases hrun : runLoop (jobs 10) 5 ⟨0⟩ knottedMachine with
  | ok u m' =>
    rw [hrun] at stuck
    contradiction
  | error e m' =>
    rw [hrun] at stuck
    cases e with
    | exhausted => contradiction
    | failure f =>
      cases f with
      | deadlock name stage =>
        exact ⟨name, stage, m', rfl,
          (deadlock_of_knot reachable_knottedMachine rfl has rfl rfl vacant).1 name stage hrun⟩
      | _ => contradiction

end Rewind
