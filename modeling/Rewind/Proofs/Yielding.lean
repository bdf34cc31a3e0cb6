/-
Giving way to the queue.

A coroutine that awaits a new timer whose time has come is put off to the next poll: the timer sleeps
before all that wake later, the poll ends it, and whoever waits for it goes to the end of the queue.
What is in the queue by then takes its turn first, each once, whatever it does meanwhile, since in a
turn nobody leaves the queue and nobody is put in front of another.

* `World.Appends` — a transition puts coroutines at the end of the queue at most;
* `Step.ready`, `Step.now_le` — in a turn nobody leaves the queue, and the clock never goes back;
* `World.Attends`, `World.Yielded` — a coroutine waits for another one or is in the queue, and it waits
  for a timer that is due;
* `Dequeues` — what a loop takes off its queue; `dequeues_notes` — as the notes of a loop say;
* `round_robin` — a coroutine that has given way is taken behind all that were in the queue.
-/
import Rewind.Proofs.Notes
import Rewind.Proofs.Rounds

namespace Rewind

open Coroutine World Eval

namespace World

/-! ### Transitions and the queue -/

/-- The queue may have got longer, and the clock stands where it was. -/
structure Appends (w w' : World) : Prop where
  ready : w.loop.ready <+: w'.loop.ready
  now : w'.loop.now = w.loop.now

namespace Appends

variable {u v w w' : World}

theorem of_loop (h : w'.loop = w.loop) : Appends w w' := ⟨h ▸ List.prefix_rfl, h ▸ rfl⟩

theorem refl (w : World) : Appends w w := of_loop rfl

theorem trans (h : Appends u v) (h' : Appends v w) : Appends u w :=
  ⟨h.ready.trans h'.ready, h'.now.trans h.now⟩

/-- The same after a change of the sleepers. -/
theorem sleepers {l : List (Nat × Ref .coroutine)}
    (h : Appends { v with loop := { v.loop with sleepers := l } } w) : Appends v w := ⟨h.ready, h.now⟩

/-- A change before it that the loop does not show. -/
theorem after (h : Appends v w) (hl : v.loop = u.loop) : Appends u w := (of_loop hl).trans h

theorem foldl {α : Type} {f : World → α → World} (h : ∀ w a, Appends w (f w a)) (w : World)
    (l : List α) : Appends w (l.foldl f w) := by
  induction l generalizing w with
  | nil => exact refl w
  | cons a l ih => exact (h w a).trans (ih (f w a))

end Appends

theorem appends_enqueue (w : World) (r : Ref .coroutine) : Appends w (w.enqueue r) :=
  ⟨List.prefix_append _ _, rfl⟩

theorem appends_wake (w : World) (r : Ref .coroutine) (outcome : Outcome) :
    Appends w (w.wake r outcome) := by
  unfold wake
  split
  · exact (appends_enqueue _ r).after rfl
  · exact .refl w

theorem appends_settle (w : World) (r : Ref .coroutine) (outcome : Outcome) :
    Appends w (w.settle r outcome) := by
  refine Appends.after (.foldl (fun v s => ?_) _ _) (loop_complete w r outcome)
  exact (appends_wake (v.copyOutcome outcome).2 s _).after rfl

theorem appends_finishWithin (depth : Nat) (w : World) (r : Ref .coroutine) (outcome : Outcome) :
    Appends w (finishWithin depth w r outcome) := by
  induction depth generalizing w r outcome with
  | zero => exact .refl w
  | succ depth ih =>
    simp only [finishWithin]
    split
    · exact .refl w
    · refine (appends_settle w r _).trans (.foldl (fun v x => ?_) _ _)
      have reported : Appends v (v.report (finalOutcome (w.coroutines.get r) outcome) x.1 x.2) :=
        .of_loop rfl
      split
      · exact reported.trans ((ih _ _ _).after rfl)
      · exact reported

theorem appends_finish (w : World) (r : Ref .coroutine) (outcome : Outcome) :
    Appends w (w.finish r outcome) := appends_finishWithin _ w r outcome

theorem appends_finishIfComplete (w : World) (r : Ref .coroutine) :
    Appends w (w.finishIfComplete r) := by
  unfold finishIfComplete
  split
  · exact (appends_finish _ r _).after rfl
  · exact .refl w

theorem appends_startWithin (depth : Nat) (w : World) (r : Ref .coroutine) :
    Appends w (startWithin depth w r) := by
  induction depth generalizing w r with
  | zero => exact .refl w
  | succ depth ih =>
    have enrolled (stage : Stage) : Appends w (w.enroll r stage) := ⟨List.prefix_rfl, rfl⟩
    simp only [startWithin]
    split
    · exact .refl w
    · split
      · exact (enrolled .runnable).trans (appends_enqueue _ r)
      · exact ⟨List.prefix_rfl, rfl⟩
      · refine ((enrolled .gatherWait).trans (.foldl (fun v x => ?_) _ _)).trans
          (appends_finishIfComplete _ r)
        simp only [enlist]
        split
        · exact .of_loop rfl
        · exact (ih _ x.1).after rfl

theorem appends_start (w : World) (r : Ref .coroutine) : Appends w (w.start r) :=
  appends_startWithin _ w r

theorem appends_flagCancelled (w : World) (r : Ref .coroutine) :
    Appends w (w.flagCancelled r).2 :=
  flagWithin_keeps (P := Appends w) (fun _ _ h _ _ => h.trans (.of_loop rfl)) _ r (.refl w)

theorem appends_deliverCancellation (w : World) (r : Ref .coroutine) :
    Appends w (w.deliverCancellation r) := by
  cases hs : (w.coroutines.get r).stage with
  | suspendedAwait =>
    simp only [deliverCancellation, hs]
    refine Appends.trans (.of_loop ?_) (appends_wake _ r _)
    unfold forgo
    split <;> rfl
  | suspendedTimer =>
    simp only [deliverCancellation, hs]
    exact (appends_finish { w with
      loop := { w.loop with sleepers := w.loop.sleepers.filter (·.2 != r) } } r _).sleepers
  | _ =>
    simp only [deliverCancellation, hs]
    exact .refl w

theorem appends_cancel (w : World) (r : Ref .coroutine) : Appends w (w.cancel r).2 :=
  cancel_keeps (P := Appends w) (fun _ _ h _ _ => h.trans (.of_loop rfl))
    (fun v r h _ => h.trans (appends_deliverCancellation v r)) r (.refl w)

theorem appends_pollSleepers (w : World) : Appends w w.pollSleepers := by
  simp only [pollSleepers]
  have finished (v : World) (x : Nat × Ref .coroutine) : Appends v (v.finish x.2 (.ok .null)) :=
    appends_finish v x.2 _
  exact (Appends.foldl finished _ _).sleepers

theorem appends_releaseLinks (w : World) (r : Ref .coroutine) : Appends w (w.releaseLinks r) := by
  refine .of_loop ?_
  simp only [releaseLinks]
  split <;> rfl

end World

/-! ### Steps and the queue -/

/-- As long as a turn is not over, nobody leaves the queue. -/
theorem Step.ready {s s' : Situation} (h : Step s s') (hs : s.control.holder ≠ none)
    (hs' : s'.control.holder = s.control.holder) :
    s.world.loop.ready <+: s'.world.loop.ready := by
  cases h with
  | compute _ _ hl =>
    dsimp only
    rw [hl]
  | create | tick | notice | wait => exact List.prefix_rfl
  | start target => exact (appends_start _ target).ready
  | flag target => exact (appends_flagCancelled _ target).ready
  | cancel target => exact (appends_cancel _ target).ready
  | opening | poll | pass | drop | lose | resume => exact absurd rfl hs
  | keep | finish => contradiction
  | close => exact absurd hs'.symm hs

theorem Uninterrupted.ready {s s' : Situation} (h : Uninterrupted s s') :
    s.world.loop.ready <+: s'.world.loop.ready := by
  induction h with
  | refl => exact List.prefix_rfl
  | tail _ hstep ih => exact ih.trans (hstep.1.ready hstep.2.1 hstep.2.2)

/-- The clock never goes back. -/
theorem Step.now_le {s s' : Situation} (h : Step s s') :
    s.world.loop.now ≤ s'.world.loop.now := by
  cases h with
  | compute _ _ hl =>
    dsimp only
    rw [hl]
  | create | notice | wait | pass | lose | resume => exact Nat.le_refl _
  | tick _ hle => exact hle
  | start target => exact (appends_start _ target).now.ge
  | flag target => exact (appends_flagCancelled _ target).now.ge
  | cancel target => exact (appends_cancel _ target).now.ge
  | @opening w root => exact (appends_start w.openLoop root).now.ge
  | poll => exact (appends_pollSleepers _).now.ge
  | @drop w r rest =>
    exact (appends_finish { w with loop := { w.loop with ready := rest } } r _).now.ge
  | keep t =>
    simp only [keepTurn]
    split <;> exact Nat.le_refl _
  | @finish w r scope outcome => exact (appends_finish (w.clearScope scope) r outcome).now.ge
  | close => exact (Appends.foldl appends_releaseLinks _ _).now.ge

theorem Steps.now_le {s s' : Situation} (h : Steps s s') :
    s.world.loop.now ≤ s'.world.loop.now := by
  induction h with
  | refl => exact Nat.le_refl _
  | tail _ hstep ih => exact ih.trans hstep.now_le

theorem World.kind_modify {w : World} {r : Ref .coroutine} {kind : CoroutineKind}
    (hk : (w.coroutines.get r).kind = kind) (s : Ref .coroutine) (f : Coroutine → Coroutine)
    (hf : ∀ c, (f c).kind = c.kind) : ((w.modifyCoroutine s f).coroutines.get r).kind = kind :=
  (field_modifyCoroutine w s f Coroutine.kind hf r).trans hk

/-- A turn in which a coroutine has begun to wait ends with what it goes on with being kept. -/
theorem Step.keeps {r : Ref .coroutine} {w w' : World} (h : Step ⟨.waiting r, w⟩ ⟨.looping, w'⟩) :
    ∃ t, w' = keepTurn r t w := by
  cases h with
  | keep t => exact ⟨t, rfl⟩

/-- A timer stays one, and wakes when it was to wake. -/
theorem Step.timer {s s' : Situation} (h : Step s s') {r : Ref .coroutine} {wake : Nat}
    (hk : (s.world.coroutines.get r).kind = .timer wake) (hr : s.world.Has r) :
    (s'.world.coroutines.get r).kind = .timer wake := by
  obtain ⟨c, w⟩ := s
  obtain ⟨c', w'⟩ := s'
  dsimp only at hk hr ⊢
  have evolves {w' : World} (he : Evolves w w') : (w'.coroutines.get r).kind = .timer wake := by
    obtain ⟨d, hd, hcd⟩ := he.changes hr
    rw [get_of_get? hd, hcd.kind fun g hg => by rw [hk] at hg; contradiction, hk]
  -- no step changes the kind of a coroutine that is no group
  obtain ⟨he, -⟩ | ⟨hc, -⟩ | ⟨x, -, -, -, -, -, -, -, -, rfl⟩ | ⟨s, -, -, -, rfl⟩ |
    ⟨s, t, -, -, -, -, rfl⟩ | ⟨s, rest, scope, f, owner, -, -, -, -, -, -, rfl⟩ |
    ⟨s, body, t, -, -, -, -, rfl⟩ | ⟨-, rfl⟩ := h.cases
  · exact evolves (he none (.inl rfl) (active_none w)).evolves
  · rw [hc]
    exact hk
  · exact (congrArg Coroutine.kind (get_push hr x)).trans hk
  · exact kind_modify hk s _ fun _ => rfl
  · have waits := kind_modify hk s
      (fun c => { c with stage := .suspendedAwait, awaiting := some t }) fun _ => rfl
    exact kind_modify waits t (fun c => { c with waiters := c.waiters ++ [s] }) fun _ => rfl
  · exact kind_modify (w := { w with loop := { w.loop with ready := rest } }) hk s _ fun _ => rfl
  · have kept := kind_modify hk s
      (fun c => { c with scope := some t.scope, frames := t.parked, tape := t.tape }) fun _ => rfl
    simp only [keepTurn]
    split
    · exact kind_modify kept s (fun c => { c with stage := .runnable }) fun _ => rfl
    · exact kept
  · exact evolves (evolves_teardown w)

theorem Steps.timer {s s' : Situation} (h : Steps s s') {r : Ref .coroutine} {wake : Nat}
    (hk : (s.world.coroutines.get r).kind = .timer wake) (hr : s.world.Has r) :
    (s'.world.coroutines.get r).kind = .timer wake := by
  induction h with
  | refl => exact hk
  | tail hsteps hstep ih => exact hstep.timer ih (Steps.has hsteps hr)

/-! ### Waiting for a timer that is due -/

namespace World

variable {w w' : World} {r t : Ref .coroutine}

/-- The coroutine `r`, which runs a body, is suspended and on the list of `t`, or it is in the queue. -/
structure Attends (w : World) (r t : Ref .coroutine) : Prop where
  body : (w.coroutines.get r).HasBody
  place : r ∈ w.loop.ready ∨
    (w.coroutines.get r).stage = .suspendedAwait ∧ r ∈ (w.coroutines.get t).waiters

namespace Attends

theorem has (h : w.Attends r t) : w.Has r := by
  obtain ⟨f, owner, hk⟩ := h.body
  exact Eval.World.get?_of_script hk

theorem evolves (h : w.Attends r t) (he : Evolves w w')
    (place : r ∈ w'.loop.ready ∨
      (w'.coroutines.get r).stage = .suspendedAwait ∧ r ∈ (w'.coroutines.get t).waiters) :
    w'.Attends r t := by
  obtain ⟨f, owner, hk⟩ := h.body
  obtain ⟨c, hc, hcc⟩ := he.changes h.has
  exact ⟨⟨f, owner, by rw [get_of_get? hc, hcc.script hk]⟩, place⟩

/-- Another coroutine changes in a way that neither its stage nor its list of waiters shows. -/
theorem modify (h : w.Attends r t) (s : Ref .coroutine) (f : Coroutine → Coroutine)
    (hf : ∀ c, (f c).stage = c.stage ∧ (f c).waiters = c.waiters)
    (he : Evolves w (w.modifyCoroutine s f)) : (w.modifyCoroutine s f).Attends r t := by
  refine h.evolves he ?_
  rw [field_modifyCoroutine w s f Coroutine.stage (fun c => (hf c).1) r,
    field_modifyCoroutine w s f Coroutine.waiters (fun c => (hf c).2) t]
  exact h.place

theorem settle (h : w.Attends r t) {s : Ref .coroutine} (outcome : Outcome) (hne : r ≠ s)
    (hd : (w.coroutines.get s).isDone = false) : (w.settle s outcome).Attends r t := by
  refine h.evolves (evolves_settle w s outcome hd) ?_
  obtain hr | ⟨hst, hm⟩ := h.place
  · exact .inl ((appends_settle w s outcome).ready.subset hr)
  · have hst' : ((w.complete s outcome).coroutines.get r).stage = .suspendedAwait := by
      rw [get_complete_of_ne w outcome hne]
      exact hst
    obtain ⟨hr, hn⟩ | ⟨hs, -, -⟩ := get_settle_of_ne w outcome hne
    · -- it is not on the list of `s`, so `t` is another one
      have hts : t ≠ s := by
        rintro rfl
        exact hn hm hst
      refine .inr ⟨by rw [hr]; exact hst, ?_⟩
      obtain ⟨ht, -⟩ | ⟨-, -, heap, ht⟩ := get_settle_of_ne w outcome hts
      · rwa [ht]
      · rw [ht]
        exact hm
    · exact .inl (mem_ready_wakes outcome _ _ (.inr ⟨hs, hst'⟩))

theorem report (h : w.Attends r t) (outcome : Outcome) (s : Ref .coroutine) (slot : Nat) :
    (w.report outcome s slot).Attends r t := by
  have copied : (w.copyOutcome outcome).2.Attends r t := ⟨h.body, h.place⟩
  refine copied.modify s _ (fun c => ?_) (evolves_fillSlot _ s slot _)
  split
  · split <;> exact ⟨rfl, rfl⟩
  · exact ⟨rfl, rfl⟩

theorem finishWithin (h : w.Attends r t) (depth : Nat) {s : Ref .coroutine} (outcome : Outcome)
    (hs : ¬ (w.coroutines.get s).HasBody) : (finishWithin depth w s outcome).Attends r t := by
  induction depth generalizing w s outcome with
  | zero => exact h
  | succ depth ih =>
    simp only [World.finishWithin]
    split
    · exact h
    · rename_i hd
      have hne : r ≠ s := by
        rintro rfl
        exact hs h.body
      have settled := h.settle (finalOutcome (w.coroutines.get s) outcome) hne
        (Bool.eq_false_iff.2 hd)
      generalize w.settle s (finalOutcome (w.coroutines.get s) outcome) = v at settled
      -- the groups that wait for it, one after another, each of which may be complete by that
      induction (w.coroutines.get s).parents generalizing v with
      | nil => exact settled
      | cons x l ihl =>
        refine ihl _ ?_
        have reported := settled.report (finalOutcome (w.coroutines.get s) outcome) x.1 x.2
        dsimp only
        split
        · rename_i g hg
          have total : Attends ((v.report (finalOutcome (w.coroutines.get s) outcome) x.1 x.2).onHeap
              g.outcome).2 r t := ⟨reported.body, reported.place⟩
          refine ih total _ ?_
          rintro ⟨f, owner, hk⟩
          exact kind_of_completeGather? hg f owner hk
        · exact reported

/-- Timers come to their end. -/
theorem finishes (h : w.Attends r t) (l : List (Nat × Ref .coroutine))
    (hl : ∀ x ∈ l, w.Has x.2 ∧ ∃ wake, (w.coroutines.get x.2).kind = .timer wake) :
    let w' := l.foldl (fun w x => w.finish x.2 (.ok .null)) w
    w'.Attends r t ∧ Evolves w w' ∧ ∀ x ∈ l, (w'.coroutines.get x.2).isDone = true := by
  induction l generalizing w with
  | nil => exact ⟨h, .refl w, by simp⟩
  | cons x l ih =>
    obtain ⟨hx, wake, hk⟩ := hl x List.mem_cons_self
    have evolves : Evolves w (w.finish x.2 (.ok .null)) :=
      (events_finish (a := none) w x.2 _ (active_none w) (by simp)).evolves
    have finished : (w.finish x.2 (.ok .null)).Attends r t := h.finishWithin _ _ fun ⟨f, owner, hf⟩ => by
      rw [hk] at hf
      contradiction
    obtain ⟨attends, evolves', done⟩ := ih finished fun y hy => by
      obtain ⟨hy, wake', hk'⟩ := hl y (List.mem_cons_of_mem x hy)
      refine ⟨hy.evolves evolves, wake', ?_⟩
      obtain ⟨c, hc, hcc⟩ := evolves.changes hy
      rw [get_of_get? hc, hcc.kind fun g hg => by rw [hk'] at hg; contradiction, hk']
    refine ⟨attends, evolves.trans evolves', fun y hy => ?_⟩
    obtain rfl | hy := List.mem_cons.1 hy
    · exact evolves'.isDone (isDone_finish _ hx)
    · exact done y hy

end Attends

/-- The coroutine `r` waits for the timer `t`, which ends at the next poll. -/
structure Yielded (w : World) (r t : Ref .coroutine) : Prop where
  attends : w.Attends r t
  due : ∃ before wake behind, w.loop.sleepers = before ++ (wake, t) :: behind ∧
    (∀ x ∈ before, x.1 ≤ w.loop.now) ∧ wake ≤ w.loop.now

namespace Yielded

theorem mem_due (h : w.Yielded r t) :
    ∃ wake, (wake, t) ∈ w.loop.sleepers.takeWhile (·.1 ≤ w.loop.now) := by
  obtain ⟨before, wake, behind, hl, early, hw⟩ := h.due
  refine ⟨wake, ?_⟩
  rw [hl, List.takeWhile_append_of_pos fun x hx => decide_eq_true (early x hx)]
  simp [hw]

/-- The next poll puts it into the queue. -/
theorem mem_ready {past : Heap → Prop} (h : w.Yielded r t) (ha : w.Accounts past .nobody []) :
    r ∈ w.pollSleepers.loop.ready := by
  have due : ∀ x ∈ w.loop.sleepers.takeWhile (·.1 ≤ w.loop.now), x ∈ w.loop.sleepers :=
    fun x hx => (List.takeWhile_prefix _).subset hx
  have taken : Attends { w with
      loop := { w.loop with sleepers := w.loop.sleepers.dropWhile (·.1 ≤ w.loop.now) } } r t :=
    ⟨h.attends.body, h.attends.place⟩
  obtain ⟨attends, -, done⟩ := taken.finishes _ fun x hx => ha.sleepers x (due x hx)
  obtain ⟨wake, hm⟩ := h.mem_due
  -- a timer that has ended has nobody on its list
  have bare := (ha.pollSleepers.regular t).bare (done _ hm)
  refine attends.place.resolve_right fun ⟨_, hw⟩ => ?_
  have hw : r ∈ (w.pollSleepers.coroutines.get t).waiters := hw
  rw [bare.waiters] at hw
  contradiction

/-- It is so as well when the coroutine has kept what it goes on with. -/
theorem keepTurn (h : w.Yielded r t) (hs : (w.coroutines.get r).stage = .suspendedAwait)
    (thread : Thread) : Yielded (Eval.keepTurn r thread w) r t ∧
      ((Eval.keepTurn r thread w).coroutines.get r).stage = .suspendedAwait ∧
      (Eval.keepTurn r thread w).loop = w.loop := by
  rw [get_keepTurn thread hs]
  let f (c : Coroutine) : Coroutine :=
    { c with scope := some thread.scope, frames := thread.parked, tape := thread.tape }
  have stage := field_modifyCoroutine w r f Coroutine.stage (fun _ => rfl) r
  have waiters := field_modifyCoroutine w r f Coroutine.waiters (fun _ => rfl) t
  obtain ⟨b, owner, hk⟩ := h.attends.body
  refine ⟨⟨⟨⟨b, owner, kind_modify hk r f fun _ => rfl⟩, ?_⟩, h.due⟩, stage.trans hs, rfl⟩
  refine h.attends.place.imp_right fun ⟨hst, hm⟩ => ⟨stage.trans hst, ?_⟩
  rw [show ((w.modifyCoroutine r f).coroutines.get t).waiters = _ from waiters]
  exact hm

theorem tick (h : w.Yielded r t) {now : Nat} (hn : w.loop.now ≤ now) :
    Yielded { w with loop := { w.loop with now } } r t := by
  obtain ⟨before, wake, behind, hl, early, hw⟩ := h.due
  exact ⟨⟨h.attends.body, h.attends.place⟩, before, wake, behind, hl,
    fun x hx => (early x hx).trans hn, hw.trans hn⟩

end Yielded

end World

/-! ### The call and the wait -/

/-- The timer is due at the time at which it is made. -/
theorem yieldNow_run {args : List Value} {site : Token} {h : Held} {m m' : Machine}
    (run : yieldNow args site m = .ok h m') : ∃ t, h = .fresh (.coroutine t) ∧
      m'.world.Has t ∧ (m'.world.coroutines.get t).kind = .timer m'.world.loop.now := by
  obtain ⟨_, m₁, -, run⟩ := ok_of_bind run
  cases run
  refine ⟨_, rfl, has_iff.2 (by simp [Arena.push, Arena.size, Arena.next]), ?_⟩
  simp [Arena.push, Arena.get, Arena.get?, Arena.next]

section Wait

variable {m m₁ : Machine} {r t : Ref .coroutine} {wake : Nat}

theorem start_of_timer {w : World} (hk : (w.coroutines.get t).kind = .timer wake)
    (hn : (w.coroutines.get t).stage = .new) : w.start t = w.sleep t wake := by
  simp only [start, startWithin, hn, hk, ne_eq, not_true_eq_false, if_false]
  rfl

theorem mem_waiters_suspendOn {w : World} (ht : w.Has t) (hne : r ≠ t) :
    r ∈ ((w.suspendOn r t).coroutines.get t).waiters := by
  let w₁ := w.modifyCoroutine r fun c => { c with stage := .suspendedAwait, awaiting := some t }
  have same : w₁.coroutines.get? t = some (w.coroutines.get t) := by
    simp only [w₁, modifyCoroutine, Arena.get?_modify]
    rw [if_neg (Ne.symm hne)]
    exact ht
  have get := get_modifyCoroutine w₁ t (fun c => { c with waiters := c.waiters ++ [r] }) same
  rw [show (w.suspendOn r t).coroutines.get t = _ from get]
  exact List.mem_append_right _ (List.mem_singleton_self r)

/-- A coroutine that suspends on a new timer whose time has come has given way. -/
theorem yielded_of_waitFor {keyword : Token} (hr : Running (some r) m.world)
    (ht : m.thread.task = some r) (hd : m.thread.driven = true) (hh : m.world.Has t)
    (hk : (m.world.coroutines.get t).kind = .timer wake)
    (hn : (m.world.coroutines.get t).stage = .new) (hw : wake ≤ m.world.loop.now)
    (run : waitFor keyword (.coroutine t) m = .error .suspended m₁) :
    Steps (m.situation (.turn r)) (m₁.situation (.waiting r)) ∧ m₁.world.Yielded r t ∧
      (m₁.world.coroutines.get r).stage = .suspendedAwait ∧
      m₁.world.loop.ready = m.world.loop.ready := by
  obtain ⟨running, body⟩ := hr r rfl
  have hne : r ≠ t := by
    rintro rfl
    rw [running] at hn
    contradiction
  have fresh : (m.world.coroutines.get t).isDone = false := by simp [isDone, hn]
  -- the timer is new: it begins to sleep, and nobody is woken by that
  have asleep : launched m t = { m with world := m.world.sleep t wake } := by
    rw [launched, fresh, start_of_timer hk hn]
    rfl
  let w := m.world.sleep t wake
  have self : w.coroutines.get t = { m.world.coroutines.get t with stage := .suspendedTimer } :=
    get_modifyCoroutine m.world t _ hh
  have other : w.coroutines.get r = m.world.coroutines.get r :=
    get_modifyCoroutine_of_ne m.world t _ hne
  rw [waitFor_run keyword _ ht hd, show m.world.coroutine? (.coroutine t) = some t from
    Option.filter_eq_some_iff.2 ⟨rfl, decide_eq_true (has_iff.1 hh)⟩] at run
  simp only [if_neg hne, asleep] at run
  rw [if_neg (by rw [show (m.world.sleep t wake).coroutines.get t = _ from self]; simp [isDone])]
    at run
  cases run
  -- the coroutine is entered among those who wait for the timer
  have has : w.Has t := get?_of_stage (by rw [self]; simp)
  have hasr : w.Has r := get?_of_stage (by rw [other, running]; simp)
  obtain ⟨waiters, -, get⟩ := get_suspendOn hasr hne r
  rw [if_pos rfl, other] at get
  have stage : ((w.suspendOn r t).coroutines.get r).stage = .suspendedAwait := by rw [get]
  refine ⟨?_, ⟨⟨?_, .inr ⟨stage, mem_waiters_suspendOn has hne⟩⟩, ?_⟩, stage, rfl⟩
  · have starts : Step ⟨.turn r, m.world⟩ ⟨.turn r, m.world.start t⟩ := .start t hh
    rw [start_of_timer hk hn] at starts
    exact .tail (.single starts) (.wait t hne (by rw [self]; rfl) (by rw [self]; simp))
  · rw [show (World.coroutines _).get r = _ from get]
    exact body
  · exact ⟨_, wake, _, rfl, fun x hx => (le_of_mem_takeWhile hx).trans hw, hw⟩

end Wait

/-! ### What a loop takes off its queue -/

/-- A loop that goes on from here takes these coroutines off its queue, one after the other; the last
one may still have its turn.  The clock may go on before any poll. -/
inductive Dequeues (j : Jobs) : Machine → List (Ref .coroutine) → Prop
  | nil (m : Machine) : Dequeues j m []
  | tick {m : Machine} {taken : List (Ref .coroutine)} (now : Nat) : m.world.loop.now ≤ now →
      Dequeues j (clocked m now) taken → Dequeues j m taken
  | rest {m : Machine} {taken : List (Ref .coroutine)} {wake : Nat} {t : Ref .coroutine}
      {sleepers : List (Nat × Ref .coroutine)} : (polled m).world.loop.ready = [] →
      (polled m).world.loop.sleepers = (wake, t) :: sleepers →
      Dequeues j (rested (polled m) wake) taken → Dequeues j m taken
  | last {m : Machine} {r : Ref .coroutine} {queue : List (Ref .coroutine)} :
      (polled m).world.loop.ready = r :: queue → Dequeues j m [r]
  | turn {m m' : Machine} {r : Ref .coroutine} {queue taken : List (Ref .coroutine)} :
      (polled m).world.loop.ready = r :: queue →
      runTurn j r (dequeued (polled m) queue) = .ok () m' → Dequeues j m' taken →
      Dequeues j m (r :: taken)

/-- A loop, with a note of every coroutine that it takes off its queue. -/
def notedDrive (j : Jobs) : Nat → Noted (Ref .coroutine) Unit
  | 0 => liftM (exhausted : Eval Unit)
  | n + 1 => do
    let _ ← liftM (readClock : Eval Nat)
    liftM (modifyWorld (·.pollSleepers) : Eval Unit)
    match ← liftM (liftM dequeue : Eval (Option (Ref .coroutine))) with
    | some r =>
      Noted.note fun _ => r
      liftM (liftM (runTurn j r) : Eval Unit)
      notedDrive j n
    | none =>
      match ← liftM (ask fun w => w.loop.sleepers : Eval (List (Nat × Ref .coroutine))) with
      | [] => return
      | (wake, _) :: _ =>
        liftM (modifyWorld fun w => { w with loop := { w.loop with now := max w.loop.now wake } }
          : Eval Unit)
        notedDrive j n

/-- One round of a loop with its note. -/
theorem notedDrive_run (j : Jobs) (n : Nat) (m : Machine) :
    notedDrive j (n + 1) m = match (polled m).world.loop.ready with
      | r :: queue =>
        match runTurn j r (dequeued (polled m) queue) with
        | .ok _ m' => ((notedDrive j n m').1, r :: (notedDrive j n m').2)
        | .error f m' => (.error (.fault f) m', [r])
      | [] =>
        match (polled m).world.loop.sleepers with
        | [] => (.ok () (polled m), [])
        | (wake, _) :: _ => notedDrive j n (rested (polled m) wake) := by
  have reads : (readClock : Eval Nat) m = .ok (looked m).world.loop.now (looked m) := rfl
  have polls : (modifyWorld (·.pollSleepers) : Eval Unit) (looked m) = .ok () (polled m) := rfl
  rw [notedDrive, Noted.lift_bind reads, Noted.lift_bind polls]
  -- whom the queue names first is noted, and only then has its turn
  cases hq : (polled m).world.loop.ready with
  | nil =>
    have hd : (liftM dequeue : Eval (Option (Ref .coroutine))) (polled m) =
        .ok none (polled m) := by
      rw [Quiet.run_lift]
      simp only [dequeue, bind, EStateM.bind, ask, hq]
      rfl
    have asked : (ask fun w => w.loop.sleepers : Eval (List (Nat × Ref .coroutine))) (polled m) =
        .ok (polled m).world.loop.sleepers (polled m) := rfl
    rw [Noted.lift_bind hd]
    dsimp only
    rw [Noted.lift_bind asked]
    cases (polled m).world.loop.sleepers with
    | nil => rfl
    | cons x l => rfl
  | cons r queue =>
    have hd : (liftM dequeue : Eval (Option (Ref .coroutine))) (polled m) =
        .ok (some r) (dequeued (polled m) queue) := by
      rw [Quiet.run_lift]
      simp only [dequeue, bind, EStateM.bind, ask, hq]
      rfl
    have noted : (Noted.note fun _ => r) (dequeued (polled m) queue) =
        (.ok () (dequeued (polled m) queue), [r]) := rfl
    rw [Noted.lift_bind hd]
    dsimp only
    rw [Noted.bind_of_ok noted]
    cases hrun : runTurn j r (dequeued (polled m) queue) with
    | ok u m' =>
      have run : (liftM (runTurn j r) : Eval Unit) (dequeued (polled m) queue) = .ok u m' := by
        rw [Quiet.run_lift, hrun]
      rw [Noted.lift_bind run]
      rfl
    | error f m' =>
      have run : (liftM (runTurn j r) : Eval Unit) (dequeued (polled m) queue) =
          .error (.fault f) m' := by
        rw [Quiet.run_lift, hrun]
      rw [Noted.lift_bind_of_error run]
      rfl

/-- Without its notes it is the loop. -/
theorem result_notedDrive (j : Jobs) (n : Nat) :
    (notedDrive j n).result = (liftM (drive j n) : Eval Unit) := by
  funext m
  induction n generalizing m with
  | zero => rfl
  | succ n ih =>
    -- the notes aside, the rest of the loop is the rest of the loop
    have behind (m : Machine) : (notedDrive j n m).1 = (liftM (drive j n) : Eval Unit) m := ih m
    rw [Noted.result, notedDrive_run, Quiet.run_lift, drive_run]
    cases hq : (polled m).world.loop.ready with
    | nil =>
      dsimp only
      cases hs : (polled m).world.loop.sleepers with
      | nil => rfl
      | cons x l => exact behind _
    | cons r queue =>
      dsimp only
      cases hrun : runTurn j r (dequeued (polled m) queue) with
      | ok u m' =>
        rw [bind_of_ok hrun]
        exact behind m'
      | error f m' =>
        have run : (runTurn j r >>= fun _ => drive j n) (dequeued (polled m) queue) =
            .error f m' := by
          show EStateM.bind (runTurn j r) _ _ = _
          unfold EStateM.bind
          rw [hrun]
        rw [run]

/-- The notes say what the loop takes off its queue. -/
theorem dequeues_notes (j : Jobs) (n : Nat) (m : Machine) :
    Dequeues j m ((notedDrive j n).notes m) := by
  induction n generalizing m with
  | zero => exact .nil m
  | succ n ih =>
    rw [Noted.notes, notedDrive_run]
    cases hq : (polled m).world.loop.ready with
    | nil =>
      dsimp only
      cases hs : (polled m).world.loop.sleepers with
      | nil => exact .nil m
      | cons x l => exact .rest hq hs (ih _)
    | cons r queue =>
      dsimp only
      cases hrun : runTurn j r (dequeued (polled m) queue) with
      | ok u m' => exact .turn hq hrun (ih m')
      | error f m' => exact .last hq

/-! ### One after the other -/

/-- In a turn nobody leaves the queue. -/
theorem ready_runTurn {j : Jobs} (hj : Works j) {m m' : Machine} (hw : m.world.Sound)
    (hv : m.weaving = true) {r : Ref .coroutine} {queue : List (Ref .coroutine)}
    (hr : m.world.loop.ready = r :: queue) (run : runTurn j r (dequeued m queue) = .ok () m') :
    queue <+: m'.world.loop.ready := by
  rw [runTurn_run] at run
  split at run
  · cases run
    exact List.prefix_rfl
  · rename_i hd
    split at run
    · rename_i f owner hk
      split at run
      · cases run
        exact (appends_finish (dequeued m queue).world r _).ready
      · rename_i hx
        split at run
        · contradiction
        · rename_i scope hs
          split at run
          · contradiction
          · rename_i body hf
            split at run
            · contradiction
            · rename_i cursor hc
              have hx : (m.world.coroutines.get r).isCancelled = true →
                  (m.world.coroutines.get r).frames ≠ [] := fun hc hf => hx (by simp [hc, hf])
              obtain ⟨-, ready, resumable, -⟩ :=
                turn_begins hw hv hr (Bool.eq_false_iff.2 hd) hk hs hx hf hc
              have h := hj.body (A := fun _ => True) (body.column + 4) (.turn r) _ ready resumable
                trivial
              cases hb : j.body (body.column + 4) (bodyMachine m r queue f owner scope cursor) with
              | error fault m₁ =>
                rw [hb] at run
                contradiction
              | ok status m₁ =>
                rw [hb] at run h
                cases run
                -- an ending only puts others at the end of the queue
                have ended {outcome : Outcome} {scope : Ref .scope}
                    (hp : queue <+: m₁.world.loop.ready) :
                    queue <+: ((m₁.world.clearScope scope).finish r outcome).loop.ready :=
                  hp.trans (appends_finish (m₁.world.clearScope scope) r outcome).ready
                cases status with
                | yielded =>
                  obtain ⟨⟨s, frames, hs, -, hp⟩, -⟩ := h
                  obtain rfl : r = s := by simpa using hs
                  have kept := (hp.uninterrupted (by simp [Control.holder])
                    (by simp [Control.holder])).ready
                  refine List.IsPrefix.trans kept ?_
                  simp only [endTurn, keepTurn]
                  split
                  · exact List.prefix_append _ _
                  · exact List.prefix_rfl
                | normal | leaving =>
                  exact ended (h.2.uninterrupted (by simp [Control.holder])
                    (by simp [Control.holder])).ready
    · cases run
      exact List.prefix_rfl

section Loop

variable {env : Environment} {fuel : Nat} {m : Machine} {taken : List (Ref .coroutine)}

/-- Between two turns of a loop. -/
structure Looping (env : Environment) (m : Machine) : Prop where
  reachable : Reachable env (m.situation .looping)
  weaving : m.weaving = true

namespace Looping

theorem polled (h : Looping env m) : Looping env (Eval.polled m) :=
  ⟨Relation.ReflTransGen.trans h.reachable (proceeds_polled m).steps, h.weaving⟩

theorem clocked (h : Looping env m) {now : Nat} (hn : m.world.loop.now ≤ now) :
    Looping env (Rewind.clocked m now) :=
  ⟨.tail h.reachable (.tick (by simp [Control.GoesOn]) hn), h.weaving⟩

theorem turn (h : Looping env m) {r : Ref .coroutine} {queue : List (Ref .coroutine)}
    (hr : m.world.loop.ready = r :: queue) {m' : Machine}
    (run : runTurn (jobs fuel) r (dequeued m queue) = .ok () m') : Looping env m' := by
  have looped := looped_turn (works_jobs fuel) h.reachable.sound h.weaving hr
  rw [run] at looped
  exact ⟨Relation.ReflTransGen.trans h.reachable looped.2.steps, looped.1.weaving.trans h.weaving⟩

end Looping

/-- A poll puts nobody in front of those who are in the queue. -/
theorem ready_polled (m : Machine) : m.world.loop.ready <+: (polled m).world.loop.ready :=
  (appends_pollSleepers (looked m).world).ready

/-- Whoever is in the queue is taken off it before all that come later, in the order of the queue. -/
theorem taken_of_queue (looping : Looping env m) (takes : Dequeues (jobs fuel) m taken)
    {queue : List (Ref .coroutine)} (hq : queue <+: m.world.loop.ready) :
    taken <+: queue ∨ queue <+: taken := by
  induction takes generalizing queue with
  | nil => exact .inl (List.nil_prefix)
  | tick now hn _ ih => exact ih (looping.clocked hn) hq
  | @rest m taken wake t sleepers hr =>
    have polled := hq.trans (ready_polled m)
    rw [hr] at polled
    rw [List.prefix_nil.1 polled]
    exact .inr List.nil_prefix
  | @last m r rest hr =>
    have polled := hq.trans (ready_polled m)
    rw [hr] at polled
    exact (List.prefix_or_prefix_of_prefix polled
      (⟨rest, rfl⟩ : [r] <+: r :: rest)).symm
  | @turn m m' r rest taken hr run _ ih =>
    have polled := hq.trans (ready_polled m)
    rw [hr] at polled
    cases queue with
    | nil => exact .inr List.nil_prefix
    | cons s queue =>
      obtain ⟨rfl, inside⟩ := List.cons_prefix_cons.1 polled
      have later := looping.polled.turn hr run
      -- the others that were in the queue are still there, in their order, when the turn is over
      have behind : queue <+: m'.world.loop.ready := inside.trans
        (ready_runTurn (works_jobs fuel) looping.polled.reachable.sound looping.weaving hr run)
      simp only [List.cons_prefix_cons, true_and]
      exact ih later behind

/-- A coroutine that has given way is behind all that are in the queue by the next poll. -/
theorem taken_of_yielded (looping : Looping env m) (takes : Dequeues (jobs fuel) m taken)
    {r t : Ref .coroutine} (yielded : m.world.Yielded r t)
    (suspended : (m.world.coroutines.get r).stage = .suspendedAwait) :
    ∃ woken, (m.world.loop.ready ++ woken ++ [r]).Nodup ∧
      (taken <+: m.world.loop.ready ++ woken ++ [r] ∨
        m.world.loop.ready ++ woken ++ [r] <+: taken) := by
  -- what the queue holds after a poll
  have polls {m : Machine} (looping : Looping env m) (yielded : m.world.Yielded r t)
      (suspended : (m.world.coroutines.get r).stage = .suspendedAwait) :
      ∃ woken, (m.world.loop.ready ++ woken ++ [r]).Nodup ∧
        m.world.loop.ready ++ woken ++ [r] <+: (polled m).world.loop.ready := by
    have coherent : m.world.Coherent := looping.reachable.coherent.world
    have away : r ∉ m.world.loop.ready :=
      coherent.not_mem (by simp [suspended]) (by simp [suspended])
    obtain ⟨woken, hready⟩ := ready_polled m
    have clocked := looping.clocked (Nat.le_add_right _ (m.environment.lapse m.looks))
    have mem : r ∈ (polled m).world.loop.ready :=
      (yielded.tick (Nat.le_add_right _ _)).mem_ready clocked.reachable.accounts
    rw [← hready] at mem
    obtain ⟨before, behind, hw⟩ := List.append_of_mem ((List.mem_append.1 mem).resolve_left away)
    have prefixed : m.world.loop.ready ++ before ++ [r] <+: (polled m).world.loop.ready :=
      ⟨behind, by simp [← hready, hw]⟩
    exact ⟨before, looping.polled.reachable.coherent.world.nodup.sublist prefixed.sublist, prefixed⟩
  induction takes with
  | nil m =>
    obtain ⟨woken, nodup, -⟩ := polls looping yielded suspended
    exact ⟨woken, nodup, .inl List.nil_prefix⟩
  | tick now hn _ ih => exact ih (looping.clocked hn) (yielded.tick hn) suspended
  | rest hr =>
    obtain ⟨woken, -, prefixed⟩ := polls looping yielded suspended
    rw [hr, List.prefix_nil] at prefixed
    simp at prefixed
  | last hr =>
    obtain ⟨woken, nodup, prefixed⟩ := polls looping yielded suspended
    rw [hr] at prefixed
    exact ⟨woken, nodup, (List.prefix_or_prefix_of_prefix prefixed ⟨_, rfl⟩).symm⟩
  | @turn m m' s rest taken hr run takes =>
    obtain ⟨woken, nodup, prefixed⟩ := polls looping yielded suspended
    refine ⟨woken, nodup, ?_⟩
    rw [hr] at prefixed
    generalize m.world.loop.ready ++ woken ++ [r] = queue at prefixed
    cases queue with
    | nil => exact .inr List.nil_prefix
    | cons s queue =>
      obtain ⟨rfl, inside⟩ := List.cons_prefix_cons.1 prefixed
      have later := looping.polled.turn hr run
      have behind : queue <+: m'.world.loop.ready := inside.trans
        (ready_runTurn (works_jobs fuel) looping.polled.reachable.sound looping.weaving hr run)
      simp only [List.cons_prefix_cons, true_and]
      exact taken_of_queue later takes behind

end Loop

/-- A coroutine that suspends on a new timer of `yield_now`, whatever has happened since the timer was
made, and however the clock goes on.  The loop takes first what is in the queue, in that order, then
whoever else has been woken by the next poll, and then the coroutine, each of them once. -/
theorem round_robin {env : Environment} {fuel : Nat} {c : Control} {made m suspended m' : Machine}
    {r t : Ref .coroutine} {site keyword : Token} {args : List Value}
    {taken : List (Ref .coroutine)} {before : Machine}
    (makes : yieldNow args site before = .ok (.fresh (.coroutine t)) made)
    (reachable : Reachable env (made.situation c))
    (later : Steps (made.situation c) (m.situation (.turn r)))
    (acts : m.thread.task = some r) (driven : m.thread.driven = true)
    (new : (m.world.coroutines.get t).stage = .new)
    (waits : waitFor keyword (.coroutine t) m = .error .suspended suspended)
    (ends : Step (suspended.situation (.waiting r)) (m'.situation .looping))
    (weaving : m'.weaving = true) (takes : Dequeues (jobs fuel) m' taken) :
    ∃ woken, (m.world.loop.ready ++ woken ++ [r]).Nodup ∧
      (taken <+: m.world.loop.ready ++ woken ++ [r] ∨
        m.world.loop.ready ++ woken ++ [r] <+: taken) := by
  obtain ⟨t', ht, has, kind⟩ := yieldNow_run makes
  obtain rfl : t = t' := by simpa using ht
  have turn : Reachable env (m.situation (.turn r)) := Relation.ReflTransGen.trans reachable later
  obtain ⟨steps, yielded, stage, queue⟩ := yielded_of_waitFor turn.coherent.active acts driven
    (Steps.has later has) (later.timer kind has) new later.now_le waits
  have looping : Looping env m' :=
    ⟨.tail (Relation.ReflTransGen.trans turn steps) ends, weaving⟩
  obtain ⟨thread, kept⟩ := ends.keeps
  -- what the turn keeps for the coroutine changes nothing of its waiting
  obtain ⟨yielded, stage, loop⟩ := yielded.keepTurn stage thread
  rw [← kept] at yielded stage loop
  rw [← queue, ← loop]
  exact taken_of_yielded looping takes yielded stage

/-! ### A coroutine that gives way to another one -/

/-- A loop with the first of two coroutines at its root. -/
def politeLoop : Machine :=
  let f : Coroutine := { serial := 1, name := "f", kind := .script ⟨0⟩ none, scope := some ⟨1⟩ }
  let g : Coroutine := { serial := 2, name := "g", kind := .script ⟨0⟩ none, scope := some ⟨1⟩ }
  let w := { patientWorld with coroutines := (patientWorld.coroutines.push f).push g }
  { world := w.openLoop.start ⟨0⟩, weaving := true }

/-- The turn of the first coroutine, which has started the second one. -/
def politeTurn : Machine :=
  { politeLoop with
    world := (inTurn (dequeued politeLoop []).world ⟨0⟩).start ⟨1⟩
    thread := { politeLoop.thread with task := some ⟨0⟩, driven := true } }

/-- The same once it has made a timer. -/
def politeCall : Machine :=
  match yieldNow [] default politeTurn with
  | .ok _ m => m
  | .error _ m => m

/-- The same once it waits for the timer. -/
def politeWait : Machine :=
  match waitFor default (.coroutine ⟨2⟩) politeCall with
  | .ok _ m => m
  | .error _ m => m

/-- The loop after that turn. -/
def politeKept : Machine :=
  { politeWait with
    world := keepTurn ⟨0⟩ { politeWait.thread with
      scope := ⟨1⟩, parked := [⟨patientBody.entry, .simple⟩] } politeWait.world }

/-- The loop after the turn of the second coroutine. -/
def politeNext : Machine :=
  match runTurn (jobs 10) ⟨1⟩ (dequeued (polled politeKept) [⟨0⟩]) with
  | .ok _ m => m
  | .error _ m => m

theorem reachable_politeCall : Reachable {} (politeCall.situation (.turn ⟨0⟩)) := by
  have goes (c : Control) (h : c = .idle ∨ c = .turn ⟨0⟩) : c.GoesOn := by
    rcases h with rfl | rfl <;> simp [Control.GoesOn]
  have loop : Reachable {} (politeLoop.situation .looping) :=
    .tail (.tail (.tail reachable_patientWorld
      (.create 1 "f" (.script ⟨0⟩ none) (some ⟨1⟩) (goes _ (.inl rfl)) (admits_script _ _ _)))
      (.create 2 "g" (.script ⟨0⟩ none) (some ⟨1⟩) (goes _ (.inl rfl)) (admits_script _ _ _)))
      (.opening ⟨0⟩ rfl rfl rfl)
  have scope : (politeLoop.world.coroutines.get ⟨0⟩).scope = some ⟨1⟩ := rfl
  have turn : Step (politeLoop.situation .looping)
      ⟨.turn ⟨0⟩, inTurn (dequeued politeLoop []).world ⟨0⟩⟩ :=
    .resume rfl rfl rfl scope (by decide)
  have started : Reachable {} (politeTurn.situation (.turn ⟨0⟩)) :=
    .tail (.tail loop turn) (.start ⟨1⟩ rfl)
  exact .tail (.tail started (.tick (goes _ (.inr rfl)) (Nat.le_succ _)))
    (.create 1 "weaver.yield_now" (.timer 1) none (goes _ (.inr rfl)) (admits_timer _ _))

theorem step_politeKept : Step (politeWait.situation (.waiting ⟨0⟩))
    (politeKept.situation .looping) := by
  have starts : patientBody.source.Starts patientBody.entry := by
    have h : (Cursor.ofSource patientBody.source).toOption.map
        (fun c => (c.capture, c.current.kind)) = some (patientBody.entry, .kwIf) := by
      decide +kernel
    cases hc : Cursor.ofSource patientBody.source with
    | error fault =>
      rw [hc] at h
      contradiction
    | ok c =>
      obtain ⟨sound, source⟩ := Cursor.sound_ofSource hc
      simp only [hc, Except.toOption, Option.map_some, Option.some.injEq, Prod.mk.injEq] at h
      rw [← source, ← h.1]
      exact ⟨_, _, sound, rfl, by rw [h.2]; simp, by rw [h.2]; simp⟩
  have runs : politeWait.world.Runs ⟨0⟩ patientBody := ⟨_, ⟨0⟩, none, rfl, rfl, rfl⟩
  exact .keep _ runs (.simple starts)

theorem round_robin_of_politeCall :
    politeCall.world.loop.ready = [⟨1⟩] ∧ Dequeues (jobs 10) politeKept [⟨1⟩, ⟨0⟩] ∧
      ∃ woken, ([⟨1⟩] ++ woken ++ [⟨0⟩] : List (Ref .coroutine)).Nodup ∧
        ([⟨1⟩, ⟨0⟩] <+: [⟨1⟩] ++ woken ++ [⟨0⟩] ∨ [⟨1⟩] ++ woken ++ [⟨0⟩] <+: [⟨1⟩, ⟨0⟩]) := by
  have makes : yieldNow [] default politeTurn = .ok (.fresh (.coroutine ⟨2⟩)) politeCall := rfl
  have waits : waitFor default (.coroutine ⟨2⟩) politeCall = .error .suspended politeWait := rfl
  have first : (polled politeKept).world.loop.ready = [⟨1⟩, ⟨0⟩] := by decide +kernel
  have second : (polled politeNext).world.loop.ready = [⟨0⟩] := by decide +kernel
  have turn : runTurn (jobs 10) ⟨1⟩ (dequeued (polled politeKept) [⟨0⟩]) = .ok () politeNext := by
    have h : (match runTurn (jobs 10) ⟨1⟩ (dequeued (polled politeKept) [⟨0⟩]) with
      | .ok _ _ => true | .error _ _ => false) = true := by decide +kernel
    unfold politeNext
    cases hr : runTurn (jobs 10) ⟨1⟩ (dequeued (polled politeKept) [⟨0⟩]) with
    | ok u m => rfl
    | error e m => simp [hr] at h
  have takes : Dequeues (jobs 10) politeKept [⟨1⟩, ⟨0⟩] := .turn first turn (.last second)
  exact ⟨rfl, takes, round_robin makes reachable_politeCall .refl rfl rfl rfl waits step_politeKept
    rfl takes⟩

end Rewind
