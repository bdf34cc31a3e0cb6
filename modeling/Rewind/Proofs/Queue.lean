/-
The lists of a running loop.

While a loop runs, its queue holds the coroutines that can go on, its sleepers are the timers that
have not ended, in the order in which they wake, and a coroutine that waits for another one is on the
list of that one and on no other.  Nobody is lost: whoever ends wakes all that wait for it.  In the
midst of a transition some coroutines have been taken off the lists and have not ended yet.

* `World.Before`, `World.Queued` — the order of the sleepers; the lists agree with the stages;
* `Queued.settle`, `Queued.join`, `Queued.deliver`, `Queued.suspendOn` — each change keeps them so;
* `Queued.move` — what is common to those in which one coroutine goes on to another stage;
* `queued_kept`, `Step.queued` — and so does everything that follows from an end or a start, and each
  step of a loop;
* `Within.queued` — from a loop that starts with nobody left over to every situation in it.
-/
import Rewind.Proofs.Tally

namespace Rewind

open Coroutine World

namespace World

/-- One timer is before another: it wakes earlier, or at the same time and has been started earlier.
The coroutines a loop has started are listed with the last one first. -/
def Before (started : List (Ref .coroutine)) (x y : Nat × Ref .coroutine) : Prop :=
  x.1 < y.1 ∨ x.1 = y.1 ∧ [y.2, x.2].Sublist started

/-- The lists of a loop agree with the stages of the coroutines; `a` has the turn, and those in `out`
have been taken off the lists before they end. -/
structure Queued (a : Option (Ref .coroutine)) (out : List (Ref .coroutine)) (w : World) : Prop where
  nodup : w.loop.ready.Nodup
  ready {r : Ref .coroutine} :
    r ∈ w.loop.ready ↔ (w.coroutines.get r).stage = .runnable ∧ r ∉ out
  sleeping {wake : Nat} {r : Ref .coroutine} : (wake, r) ∈ w.loop.sleepers ↔
    (w.coroutines.get r).stage = .suspendedTimer ∧ (w.coroutines.get r).kind = .timer wake ∧ r ∉ out
  sorted : w.loop.sleepers.Pairwise (Before w.loop.started)
  once : w.loop.started.Nodup
  joined {r : Ref .coroutine} : r ∈ w.loop.started → (w.coroutines.get r).stage ≠ .new
  listed {r : Ref .coroutine} : (w.coroutines.get r).stage ≠ .new →
    (w.coroutines.get r).isDone = false → r ∈ w.loop.started
  awaits {r : Ref .coroutine} : (w.coroutines.get r).stage = .suspendedAwait →
    ∃ t, (w.coroutines.get r).awaiting = some t
  waited {r t : Ref .coroutine} : (w.coroutines.get r).Waits t →
    (w.coroutines.get t).waiters.count r = 1
  waiting {r t : Ref .coroutine} : r ∈ (w.coroutines.get t).waiters → (w.coroutines.get r).Waits t
  running {r : Ref .coroutine} : (w.coroutines.get r).stage = .running → a = some r
  away {r : Ref .coroutine} : r ∈ out →
    (w.coroutines.get r).stage ≠ .new ∧ (w.coroutines.get r).stage ≠ .suspendedAwait

end World

/-! ### Changes that the lists do not show -/

/-- The lists of a loop say the same of both. -/
structure Coroutine.InStep (c c' : Coroutine) : Prop where
  stage : c'.stage = c.stage
  waiters : c'.waiters = c.waiters
  awaiting : c'.awaiting = c.awaiting
  timer {wake : Nat} : c.stage = .suspendedTimer → (c'.kind = .timer wake ↔ c.kind = .timer wake)

theorem Coroutine.InStep.refl (c : Coroutine) : c.InStep c := ⟨rfl, rfl, rfl, fun _ => Iff.rfl⟩

namespace World

variable {a : Option (Ref .coroutine)} {out : List (Ref .coroutine)} {w w' : World}
  {r : Ref .coroutine}

namespace Queued

theorem transfer (h : w.Queued a out) (hready : w'.loop.ready = w.loop.ready)
    (hsleepers : w'.loop.sleepers = w.loop.sleepers) (hstarted : w'.loop.started = w.loop.started)
    (hc : ∀ r, (w.coroutines.get r).InStep (w'.coroutines.get r)) : w'.Queued a out := by
  have done (r : Ref .coroutine) :
      (w'.coroutines.get r).isDone = (w.coroutines.get r).isDone := by
    rw [isDone, isDone, (hc r).stage]
  have waits (r t : Ref .coroutine) :
      (w'.coroutines.get r).Waits t ↔ (w.coroutines.get r).Waits t := by
    rw [Waits, Waits, (hc r).stage, (hc r).awaiting]
  -- every entry is about stages, lists of waiters and the loop, in which the two worlds agree
  refine ⟨hready ▸ h.nodup, fun {s} => ?_, fun {wake s} => ?_, ?_, hstarted ▸ h.once, fun {s} hs => ?_,
    fun {s} hn hd => ?_, fun {s} hs => ?_, fun {s t} hs => ?_, fun {s t} hs => ?_, fun {s} hs => ?_,
    fun {s} hs => ?_⟩
  · rw [hready, (hc s).stage]
    exact h.ready
  · rw [hsleepers, (hc s).stage, h.sleeping]
    exact and_congr_right fun hs => and_congr_left fun _ => ((hc s).timer hs).symm
  · rw [hsleepers, hstarted]
    exact h.sorted
  · rw [hstarted] at hs
    rw [(hc s).stage]
    exact h.joined hs
  · rw [hstarted]
    exact h.listed ((hc s).stage ▸ hn) (done s ▸ hd)
  · rw [(hc s).awaiting]
    exact h.awaits ((hc s).stage ▸ hs)
  · rw [(hc t).waiters]
    exact h.waited ((waits s t).1 hs)
  · rw [(hc t).waiters] at hs
    exact (waits s t).2 (h.waiting hs)
  · exact h.running ((hc s).stage ▸ hs)
  · rw [(hc s).stage]
    exact h.away hs

theorem congr (h : w.Queued a out) (hc : w'.coroutines = w.coroutines) (hl : w'.loop = w.loop) :
    w'.Queued a out := by
  refine h.transfer (by rw [hl]) (by rw [hl]) (by rw [hl]) fun r => ?_
  rw [hc]
  exact .refl _

/-- One record changes in a way the lists do not show. -/
theorem modify (h : w.Queued a out) (r : Ref .coroutine) (f : Coroutine → Coroutine)
    (hf : (w.coroutines.get r).InStep (f (w.coroutines.get r))) :
    (w.modifyCoroutine r f).Queued a out := by
  refine h.transfer rfl rfl rfl fun s => ?_
  obtain he | ⟨rfl, -, he⟩ := get_modified w r f s
  · rw [he]
    exact .refl _
  · rwa [he]

theorem fillSlot (h : w.Queued a out) (r : Ref .coroutine) (slot : Nat) (outcome : Outcome) :
    (w.fillSlot r slot outcome).Queued a out := by
  refine h.modify r _ ?_
  split
  · rename_i g hk
    split
    · exact .refl _
    · exact ⟨rfl, rfl, rfl, fun _ => by simp [hk]⟩
  · exact .refl _

/-- Those that have ended need not be kept apart any more. -/
theorem home (h : w.Queued a out) (hd : ∀ r ∈ out, (w.coroutines.get r).isDone = true) :
    w.Queued a [] := by
  have ended {r : Ref .coroutine} (hr : r ∈ out) : (w.coroutines.get r).stage = .done :=
    beq_iff_eq.1 (hd r hr)
  refine { h with ready := fun {r} => ?_, sleeping := fun {wake r} => ?_, away := (by simp) }
  · rw [h.ready]
    refine and_congr_right fun hs => ⟨fun _ => by simp, fun _ hr => ?_⟩
    rw [ended hr] at hs
    contradiction
  · rw [h.sleeping]
    refine and_congr_right fun hs => and_congr_right fun _ => ⟨fun _ => by simp, fun _ hr => ?_⟩
    rw [ended hr] at hs
    contradiction

/-- The turn of a coroutine is over when it is not running any more. -/
theorem retire (h : w.Queued (some r) out) (hr : (w.coroutines.get r).stage ≠ .running) :
    w.Queued none out := by
  refine { h with running := fun {s} hs => ?_ }
  obtain rfl := Option.some.inj (h.running hs)
  exact absurd hs hr

end Queued

/-! ### Ends -/

/-- Whoever is suspended wakes. -/
theorem mem_ready_wakes (outcome : Outcome) (w : World) (l : List (Ref .coroutine))
    {s : Ref .coroutine}
    (h : s ∈ w.loop.ready ∨ s ∈ l ∧ (w.coroutines.get s).stage = .suspendedAwait) :
    s ∈ (l.foldl (wakeWithCopy outcome) w).loop.ready := by
  induction l generalizing w with
  | nil => exact h.resolve_right fun hn => by simp at hn
  | cons r l ih =>
    refine ih _ ?_
    by_cases hst : (w.coroutines.get r).stage = .suspendedAwait
    · rw [ready_wakeWithCopy outcome hst]
      obtain hs | ⟨hs, hs'⟩ := h
      · exact .inl (List.mem_append_left _ hs)
      · by_cases hsr : s = r
        · exact .inl (List.mem_append_right _ (List.mem_singleton.2 hsr))
        · rw [get_wakeWithCopy_of_ne outcome hsr]
          exact .inr ⟨(List.mem_cons.1 hs).resolve_left hsr, hs'⟩
    · rw [ready_wakeWithCopy_of_ne outcome hst, coroutines_wakeWithCopy outcome hst]
      refine h.imp_right fun ⟨hs, hs'⟩ => ⟨(List.mem_cons.1 hs).resolve_left ?_, hs'⟩
      rintro rfl
      exact hst hs'

/-- A coroutine that is on none of the lists of the loop can end. -/
def Free (w : World) (out : List (Ref .coroutine)) (r : Ref .coroutine) : Prop :=
  (w.coroutines.get r).stage ≠ .suspendedAwait ∧
    (r ∈ out ∨ (w.coroutines.get r).stage ≠ .runnable ∧
      (w.coroutines.get r).stage ≠ .suspendedTimer)

namespace Queued

/-- When a coroutine ends, nobody else changes but the ones that wait for it. -/
theorem woken_settle (h : w.Queued a out) {outcome : Outcome} {s : Ref .coroutine} (hs : s ≠ r) :
    ((w.settle r outcome).coroutines.get s = w.coroutines.get s ∧
      s ∉ (w.coroutines.get r).waiters) ∨
    (s ∈ (w.coroutines.get r).waiters ∧ ∃ heap : Heap,
      (w.settle r outcome).coroutines.get s =
        (w.coroutines.get s).woken (Heap.duplicateOutcome outcome heap).1) := by
  obtain ⟨he, hn⟩ | ⟨hm, -, hw⟩ := get_settle_of_ne w outcome hs
  · exact .inl ⟨he, fun hm => hn hm (h.waiting hm).1⟩
  · exact .inr ⟨hm, hw⟩

/-- When a coroutine ends, the queue has the ones that waited for it besides those it had, each
once. -/
theorem ready_settle (h : w.Queued a out) (outcome : Outcome) (hr : w.Has r)
    (hn : (w.coroutines.get r).stage ≠ .suspendedAwait) :
    (w.settle r outcome).loop.ready.Nodup ∧ ∀ s, s ∈ (w.settle r outcome).loop.ready ↔
      s ∈ w.loop.ready ∨ s ∈ (w.coroutines.get r).waiters := by
  have hnodup : (w.complete r outcome).loop.ready.Nodup := by
    rw [loop_complete]
    exact h.nodup
  have hsame {s : Ref .coroutine} (hs : s ≠ r) :
      (w.complete r outcome).coroutines.get s = w.coroutines.get s :=
    get_complete_of_ne w outcome hs
  obtain ⟨-, -, -, hdone, -⟩ := bare_complete w outcome hr
  obtain ⟨hn', hm⟩ := ready_wakes outcome (w.complete r outcome) (w.coroutines.get r).waiters hnodup
    fun s hs hst => by
      rw [loop_complete] at hs
      by_cases hsr : s = r
      · rw [hsr, hdone] at hst
        contradiction
      · rw [hsame hsr, (h.ready.1 hs).1] at hst
        contradiction
  refine ⟨hn', fun s => ⟨fun hs => ?_, fun hs => mem_ready_wakes outcome _ _ ?_⟩⟩
  · have hs := hm s hs
    rw [loop_complete] at hs
    exact hs.imp_right And.left
  · rw [loop_complete]
    refine hs.imp_right fun hs => ⟨hs, ?_⟩
    have hne : s ≠ r := by
      rintro rfl
      exact hn (h.waiting hs).1
    rw [hsame hne]
    exact (h.waiting hs).1

/-- A coroutine ends, and all that have waited for it are in the queue. -/
theorem settle (h : w.Queued a out) {outcome : Outcome} (hr : w.Has r)
    (hd : (w.coroutines.get r).isDone = false) (hf : w.Free out r) :
    (w.settle r outcome).Queued a out := by
  have he := evolves_settle w r outcome hd
  obtain ⟨ready, hloop⟩ := loop_settle w r outcome
  obtain ⟨-, -, -, hself, hbare⟩ := bare_settle w outcome hr
  have other {s : Ref .coroutine} (hs : s ≠ r) :
      ((w.settle r outcome).coroutines.get s = w.coroutines.get s ∧
        s ∉ (w.coroutines.get r).waiters) ∨
      (s ∈ (w.coroutines.get r).waiters ∧ ∃ heap : Heap,
        (w.settle r outcome).coroutines.get s =
          (w.coroutines.get s).woken (Heap.duplicateOutcome outcome heap).1) := h.woken_settle hs
  -- who still waits for something afterwards has been left alone
  have stays {s : Ref .coroutine}
      (hs : ((w.settle r outcome).coroutines.get s).stage ≠ .done)
      (hs' : ((w.settle r outcome).coroutines.get s).stage ≠ .runnable) :
      s ≠ r ∧ (w.settle r outcome).coroutines.get s = w.coroutines.get s ∧
        s ∉ (w.coroutines.get r).waiters := by
    have hne : s ≠ r := by
      rintro rfl
      exact hs hself
    obtain hsame | ⟨-, heap, hw⟩ := other hne
    · exact ⟨hne, hsame⟩
    · rw [hw] at hs'
      exact absurd rfl hs'
  have waiters {t : Ref .coroutine} (ht : t ≠ r) :
      ((w.settle r outcome).coroutines.get t).waiters = (w.coroutines.get t).waiters := by
    obtain ⟨hsame, -⟩ | ⟨-, heap, hw⟩ := other ht
    · rw [hsame]
    · rw [hw]
      rfl
  have hqueue := h.ready_settle outcome hr hf.1
  refine ⟨hqueue.1, fun {s} => ?_, fun {wake s} => ?_, ?_, ?_, fun {s} hs => ?_, fun {s} hn hd' => ?_,
    fun {s} hs => ?_, fun {s t} hs => ?_, fun {s t} hs => ?_, fun {s} hs => ?_, fun {s} hs => ?_⟩
  · -- the one that is done is not in the queue, and who waited for it is
    rw [hqueue.2, h.ready]
    by_cases hs : s = r
    · subst hs
      rw [hself]
      refine ⟨fun hs => ?_, fun hs => by simp at hs⟩
      obtain ⟨hs, ho⟩ | hm := hs
      · exact absurd hs (hf.2.resolve_left ho).1
      · exact absurd (h.waiting hm).1 hf.1
    · obtain ⟨hsame, hn⟩ | ⟨hm, heap, hw⟩ := other hs
      · rw [hsame]
        exact or_iff_left hn
      · have hout : s ∉ out := fun ho => (h.away ho).2 (h.waiting hm).1
        rw [hw]
        exact ⟨fun _ => ⟨rfl, hout⟩, fun _ => .inr hm⟩
  · -- nobody who waited for another one sleeps
    rw [hloop, h.sleeping]
    by_cases hs : s = r
    · subst hs
      rw [hself]
      refine ⟨fun hs => absurd hs.1 (hf.2.resolve_left hs.2.2).2, fun hs => by simp at hs⟩
    · obtain ⟨hsame, -⟩ | ⟨hm, heap, hw⟩ := other hs
      · rw [hsame]
      · rw [hw, (h.waiting hm).1]
        simp [woken]
  · rw [hloop]
    exact h.sorted
  · rw [hloop]
    exact h.once
  · rw [hloop] at hs
    exact he.not_new (h.joined hs)
  · -- only who has joined the loop can be done or woken here
    rw [hloop]
    have hne : s ≠ r := by
      rintro rfl
      rw [isDone, hself] at hd'
      contradiction
    obtain ⟨hsame, -⟩ | ⟨hm, -⟩ := other hne
    · rw [hsame] at hn hd'
      exact h.listed hn hd'
    · have hs := (h.waiting hm).1
      exact h.listed (by rw [hs]; simp) (by rw [isDone, hs]; rfl)
  · obtain ⟨-, hsame, -⟩ := stays (s := s) (by rw [hs]; simp) (by rw [hs]; simp)
    rw [hsame] at hs ⊢
    exact h.awaits hs
  · -- a coroutine is on the list of whom it waits for, which is not the list that was dropped
    obtain ⟨hne, hsame, hn⟩ := stays (s := s) (by rw [hs.1]; simp) (by rw [hs.1]; simp)
    rw [hsame] at hs
    have hcount := h.waited hs
    have ht : t ≠ r := by
      rintro rfl
      rw [List.count_eq_zero.2 hn] at hcount
      contradiction
    rw [waiters ht]
    exact hcount
  · -- and who is left on a list is not one of those that were on the list of `r`
    have ht : t ≠ r := by
      rintro rfl
      rw [hbare.waiters] at hs
      contradiction
    rw [waiters ht] at hs
    have hs' := h.waiting hs
    have hne : s ≠ r := by
      rintro rfl
      exact hf.1 hs'.1
    obtain ⟨hsame, -⟩ | ⟨hm, -⟩ := other hne
    · rwa [hsame]
    · exact absurd (Option.some.inj (hs'.2.symm.trans (h.waiting hm).2)) ht
  · obtain ⟨-, hsame, -⟩ := stays (s := s) (by rw [hs]; simp) (by rw [hs]; simp)
    rw [hsame] at hs
    exact h.running hs
  · -- nobody who is away waited for `r`
    by_cases hne : s = r
    · rw [hne, hself]
      exact ⟨by simp, by simp⟩
    · obtain ⟨hsame, -⟩ | ⟨hm, -⟩ := other hne
      · rw [hsame]
        exact h.away hs
      · exact absurd (h.waiting hm).1 (h.away hs).2

end Queued

/-! ### Starts -/

theorem Before.cons {started : List (Ref .coroutine)} {x y : Nat × Ref .coroutine}
    (h : Before started x y) (r : Ref .coroutine) : Before (r :: started) x y :=
  h.imp_right fun ⟨he, hs⟩ => ⟨he, hs.trans (List.sublist_cons_self r started)⟩

theorem Before.le {started : List (Ref .coroutine)} {x y : Nat × Ref .coroutine}
    (h : Before started x y) : x.1 ≤ y.1 := h.elim Nat.le_of_lt fun ⟨he, _⟩ => Nat.le_of_eq he

/-- Of two entries of a list without repetitions one comes first. -/
theorem not_sublist_swap {α : Type} {l : List α} (hn : l.Nodup) {a b : α}
    (h : [a, b].Sublist l) : ¬ [b, a].Sublist l := by
  induction l with
  | nil => cases h
  | cons c l ih =>
    obtain ⟨hc, hn⟩ := List.nodup_cons.1 hn
    intro h'
    cases h with
    | cons _ h =>
      cases h' with
      | cons _ h' => exact ih hn h h'
      | cons_cons _ h' => exact hc (h.subset (by simp))
    | cons_cons _ h =>
      cases h' with
      | cons _ h' => exact hc (h'.subset (by simp))
      | cons_cons _ h' => exact hc (h.subset (by simp))

theorem Before.asymm {started : List (Ref .coroutine)} {x y : Nat × Ref .coroutine}
    (h : Before started x y) (hn : started.Nodup) : ¬ Before started y x := by
  rintro (hlt | ⟨heq, hs⟩)
  · exact absurd h.le (Nat.not_le_of_lt hlt)
  · obtain hlt | ⟨-, hs'⟩ := h
    · exact absurd heq (Nat.ne_of_gt hlt)
    · exact not_sublist_swap hn hs hs'

/-- The sleepers that are left when those are gone that wake by a certain time wake later. -/
theorem lt_of_mem_dropWhile {started : List (Ref .coroutine)} {l : List (Nat × Ref .coroutine)}
    {now : Nat} (h : l.Pairwise (Before started)) {x : Nat × Ref .coroutine}
    (hx : x ∈ l.dropWhile (·.1 ≤ now)) : now < x.1 := by
  induction l with
  | nil => contradiction
  | cons y l ih =>
    obtain ⟨hy, hl⟩ := List.pairwise_cons.1 h
    by_cases hn : y.1 ≤ now
    · rw [List.dropWhile_cons_of_pos (by simpa using hn)] at hx
      exact ih hl hx
    · rw [List.dropWhile_cons_of_neg (by simpa using hn)] at hx
      have hlt := Nat.lt_of_not_le hn
      obtain rfl | hx := List.mem_cons.1 hx
      · exact hlt
      · exact Nat.lt_of_lt_of_le hlt (hy x hx).le

theorem le_of_mem_takeWhile {l : List (Nat × Ref .coroutine)} {now : Nat}
    {x : Nat × Ref .coroutine} (hx : x ∈ l.takeWhile (·.1 ≤ now)) : x.1 ≤ now := by
  have h := List.all_eq_true.1 List.all_takeWhile x hx
  simpa using h

/-- A timer that is started last goes behind those that wake no later, and that is where it belongs. -/
theorem sorted_insertSleeper {started : List (Ref .coroutine)} {l : List (Nat × Ref .coroutine)}
    (h : l.Pairwise (Before started)) (hl : ∀ x ∈ l, x.2 ∈ started) (wake : Nat)
    (r : Ref .coroutine) : (insertSleeper l wake r).Pairwise (Before (r :: started)) := by
  have h' : l.Pairwise (Before (r :: started)) := h.imp fun hb => hb.cons r
  refine List.pairwise_append.2 ⟨h'.sublist (List.takeWhile_sublist _),
    List.pairwise_cons.2 ⟨fun y hy => ?_, h'.sublist (List.dropWhile_sublist _)⟩, fun x hx y hy => ?_⟩
  · exact .inl (lt_of_mem_dropWhile h hy)
  · have hle := le_of_mem_takeWhile hx
    obtain rfl | hy := List.mem_cons.1 hy
    · obtain hlt | heq := Nat.lt_or_eq_of_le hle
      · exact .inl hlt
      · have hm := hl x ((List.takeWhile_sublist _).subset hx)
        exact .inr ⟨heq, (List.singleton_sublist.2 hm).cons_cons r⟩
    · exact .inl (Nat.lt_of_le_of_lt hle (lt_of_mem_dropWhile h hy))

namespace Queued

/-- A new coroutine joins the loop, and the list its stage belongs to. -/
theorem join (h : w.Queued a out) {stage : Stage} (hr : w.Has r)
    (hn : (w.coroutines.get r).stage = .new)
    (hstage : stage = .runnable ∨ stage = .suspendedTimer ∨ stage = .gatherWait)
    (hc : w'.coroutines = (w.enroll r stage).coroutines)
    (hstarted : w'.loop.started = r :: w.loop.started) (hnodup : w'.loop.ready.Nodup)
    (hready : ∀ s, s ∈ w'.loop.ready ↔ s ∈ w.loop.ready ∨ s = r ∧ stage = .runnable)
    (hsorted : w'.loop.sleepers.Pairwise (Before (r :: w.loop.started)))
    (hsleepers : ∀ wake s, (wake, s) ∈ w'.loop.sleepers ↔ (wake, s) ∈ w.loop.sleepers ∨
      s = r ∧ stage = .suspendedTimer ∧ (w.coroutines.get r).kind = .timer wake) :
    w'.Queued a out := by
  have self : w'.coroutines.get r = { w.coroutines.get r with stage } := by
    rw [hc]
    exact get_modifyCoroutine w r _ hr
  have other {s : Ref .coroutine} (hs : s ≠ r) :
      w'.coroutines.get s = w.coroutines.get s := by
    rw [hc]
    exact get_enroll_of_ne w r stage hs
  have waiters (t : Ref .coroutine) :
      (w'.coroutines.get t).waiters = (w.coroutines.get t).waiters := by
    by_cases ht : t = r
    · rw [ht, self]
    · rw [other ht]
  have hout : r ∉ out := fun ho => (h.away ho).1 hn
  -- the stages that others wait in are no stages of the new one
  have hother {s : Ref .coroutine} (hs : (w'.coroutines.get s).stage = .suspendedAwait ∨
      (w'.coroutines.get s).stage = .running) : s ≠ r := by
    rintro rfl
    rw [self] at hs
    obtain rfl | rfl | rfl := hstage <;> simp at hs
  refine ⟨hnodup, fun {s} => ?_, fun {wake s} => ?_, hstarted ▸ hsorted, ?_, fun {s} hs => ?_,
    fun {s} hs hd => ?_, fun {s} hs => ?_, fun {s t} hs => ?_, fun {s t} hs => ?_, fun {s} hs => ?_,
    fun {s} hs => ?_⟩
  · -- the new one is queued if it is a script
    rw [hready, h.ready]
    by_cases hs : s = r
    · subst hs
      rw [self, hn]
      simp [hout]
    · rw [other hs]
      simp [hs]
  · -- and it sleeps if it is a timer
    rw [hsleepers, h.sleeping]
    by_cases hs : s = r
    · subst hs
      rw [self, hn]
      simp [hout]
    · rw [other hs]
      simp [hs]
  · rw [hstarted]
    exact List.nodup_cons.2 ⟨fun hm => h.joined hm hn, h.once⟩
  · rw [hstarted] at hs
    by_cases hsr : s = r
    · rw [hsr, self]
      obtain rfl | rfl | rfl := hstage <;> simp
    · rw [other hsr]
      exact h.joined ((List.mem_cons.1 hs).resolve_left hsr)
  · rw [hstarted]
    by_cases hsr : s = r
    · exact hsr ▸ List.mem_cons_self
    · rw [other hsr] at hs hd
      exact List.mem_cons_of_mem r (h.listed hs hd)
  · have hne := hother (.inl hs)
    rw [other hne] at hs ⊢
    exact h.awaits hs
  · -- nobody waits for it yet, since no list of waiters has changed
    rw [waiters]
    rw [other (hother (.inl hs.1))] at hs
    exact h.waited hs
  · rw [waiters] at hs
    have hs' := h.waiting hs
    have hne : s ≠ r := by
      rintro rfl
      rw [hs'.1] at hn
      contradiction
    rwa [other hne]
  · rw [other (hother (.inr hs))] at hs
    exact h.running hs
  · have hne : s ≠ r := fun he => hout (he ▸ hs)
    rw [other hne]
    exact h.away hs

theorem line (h : w.Queued a out) (hr : w.Has r) (hn : (w.coroutines.get r).stage = .new) :
    ((w.enroll r .runnable).enqueue r).Queued a out := by
  have hnot : r ∉ w.loop.ready := fun hm => by
    rw [(h.ready.1 hm).1] at hn
    contradiction
  refine h.join hr hn (.inl rfl) rfl rfl ?_ (fun s => ?_) (h.sorted.imp fun hb => hb.cons r)
    fun wake s => ?_
  · refine List.nodup_append.2 ⟨h.nodup, List.nodup_singleton r, fun x hx y hy he => ?_⟩
    rw [he, List.mem_singleton.1 hy] at hx
    exact hnot hx
  · simp [World.enroll, World.enqueue, noteStarted, modifyCoroutine]
  · simp [World.enroll, World.enqueue, noteStarted, modifyCoroutine]

theorem sleep (h : w.Queued a out) {wake : Nat} (hr : w.Has r)
    (hn : (w.coroutines.get r).stage = .new) (hk : (w.coroutines.get r).kind = .timer wake) :
    (w.sleep r wake).Queued a out := by
  refine h.join hr hn (.inr (.inl rfl)) rfl rfl h.nodup (fun s => by simp [World.sleep,
    World.enroll, noteStarted, modifyCoroutine]) ?_ fun wake' s => ?_
  · refine sorted_insertSleeper h.sorted (fun x hx => ?_) wake r
    have hs := (h.sleeping.1 hx).1
    exact h.listed (by rw [hs]; simp) (by rw [isDone, hs]; rfl)
  · rw [show (w.sleep r wake).loop.sleepers = insertSleeper w.loop.sleepers wake r from rfl,
      Accounts.mem_insertSleeper, hk]
    simp only [Prod.mk.injEq, CoroutineKind.timer.injEq, true_and]
    exact or_comm.trans (or_congr_right (and_comm.trans (and_congr_right fun _ => eq_comm)))

theorem gather (h : w.Queued a out) (hr : w.Has r) (hn : (w.coroutines.get r).stage = .new) :
    (w.enroll r .gatherWait).Queued a out := by
  refine h.join hr hn (.inr (.inr rfl)) rfl rfl h.nodup (fun s => ?_)
    (h.sorted.imp fun hb => hb.cons r) fun wake s => ?_
  · simp [World.enroll, noteStarted, modifyCoroutine]
  · simp [World.enroll, noteStarted, modifyCoroutine]

end Queued

/-- The lists agree with the stages through everything that follows from an end or a start. -/
theorem queued_kept (past : Heap → Prop) (a : Option (Ref .coroutine))
    (out : List (Ref .coroutine)) :
    Kept fun f dues w => w.Accounts past f dues ∧ w.Queued a out := by
  have books := accounts_kept past
  refine ⟨fun h => books.fresh h.1, fun h => books.has h.1, fun f h => ⟨books.attend f h.1, h.2⟩,
    fun h hs => ⟨books.begun h.1 hs, h.2⟩, fun h hr => ⟨books.rest h.1 hr, h.2⟩,
    fun {dues w r g} h hg => ⟨books.conclude h.1 hg, ?_⟩,
    fun {dues w d outcome} h hd ho => ⟨books.report h.1 hd ho, ?_⟩,
    fun {dues w d} h hd => ⟨books.link h.1 hd, ?_⟩,
    fun h hr hn hk => ⟨books.line h.1 hr hn hk, h.2.line hr hn⟩,
    fun h hr hn hk => ⟨books.sleep h.1 hr hn hk, h.2.sleep hr hn hk⟩,
    fun h hr hn hk => ⟨books.join h.1 hr hn hk, h.2.gather hr hn⟩⟩
  · obtain ⟨hk, hd, -⟩ := completeGather?_eq_some.1 hg
    have hfits := (h.1.regular r).fits
    unfold Coroutine.Fits at hfits
    rw [hk] at hfits
    refine Queued.settle (w := (w.onHeap g.outcome).2) (h.2.congr rfl rfl) (has_of_gather hk) hd
      ⟨fun hs => ?_, .inr ⟨fun hs => ?_, fun hs => ?_⟩⟩
    all_goals
      rw [show (w.coroutines.get r).stage = _ from hs] at hfits
      simp at hfits
  · exact Queued.fillSlot (w := (w.copyOutcome outcome).2) (h.2.congr rfl rfl) d.task d.slot _
  · exact h.2.modify d.child _ ⟨rfl, rfl, rfl, fun _ => Iff.rfl⟩

/-! ### Off the lists -/

end World

theorem Coroutine.Regular.timer {c : Coroutine} (h : c.Regular) (hs : c.stage = .suspendedTimer) :
    ∃ wake, c.kind = .timer wake := by
  have hf := h.fits
  unfold Coroutine.Fits at hf
  cases hk : c.kind with
  | timer wake => exact ⟨wake, rfl⟩
  | _ =>
    rw [hk] at hf
    simp [hs] at hf

namespace World

variable {a : Option (Ref .coroutine)} {out : List (Ref .coroutine)} {w w' : World}
  {r : Ref .coroutine}

namespace Queued

/-- Coroutines are taken off the lists they are on. -/
theorem takeOff (h : w.Queued a []) {loop : EventLoop} (hstarted : loop.started = w.loop.started)
    (hsub : loop.ready.Sublist w.loop.ready) (hsub' : loop.sleepers.Sublist w.loop.sleepers)
    (hready : ∀ s ∈ w.loop.ready, s ∈ loop.ready ↔ s ∉ out)
    (hsleepers : ∀ x ∈ w.loop.sleepers, x ∈ loop.sleepers ↔ x.2 ∉ out)
    (hout : ∀ s ∈ out, s ∈ w.loop.ready ∨ ∃ wake, (wake, s) ∈ w.loop.sleepers) :
    Queued a out { w with loop } := by
  refine ⟨h.nodup.sublist hsub, fun {s} => ?_, fun {wake s} => ?_, ?_, ?_, fun {s} hs => ?_,
    fun {s} hn hd => ?_, h.awaits, h.waited, h.waiting, h.running, fun {s} hs => ?_⟩
  · -- who is taken off is runnable still, but away
    constructor
    · intro hs
      have hs' := hsub.subset hs
      exact ⟨(h.ready.1 hs').1, (hready s hs').1 hs⟩
    · rintro ⟨hs, hn⟩
      exact (hready s (h.ready.2 ⟨hs, by simp⟩)).2 hn
  · constructor
    · intro hs
      have hs' := hsub'.subset hs
      obtain ⟨hst, hk, -⟩ := h.sleeping.1 hs'
      exact ⟨hst, hk, (hsleepers _ hs').1 hs⟩
    · rintro ⟨hst, hk, hn⟩
      exact (hsleepers (wake, s) (h.sleeping.2 ⟨hst, hk, by simp⟩)).2 hn
  · show loop.sleepers.Pairwise (Before loop.started)
    rw [hstarted]
    exact h.sorted.sublist hsub'
  · exact hstarted ▸ h.once
  · exact h.joined (hstarted ▸ hs)
  · exact hstarted ▸ h.listed hn hd
  · -- who is away was queued or slept, so it has joined and waits for nobody
    obtain hs | ⟨wake, hs⟩ := hout s hs
    · rw [show ({ w with loop } : World).coroutines = w.coroutines from rfl, (h.ready.1 hs).1]
      exact ⟨by simp, by simp⟩
    · rw [show ({ w with loop } : World).coroutines = w.coroutines from rfl, (h.sleeping.1 hs).1]
      exact ⟨by simp, by simp⟩

/-- The head of the queue is taken. -/
theorem dequeue (h : w.Queued a []) {rest : List (Ref .coroutine)} (hr : w.loop.ready = r :: rest) :
    Queued a [r] { w with loop := { w.loop with ready := rest } } := by
  have hn : r ∉ rest := (List.nodup_cons.1 (hr ▸ h.nodup)).1
  have hhead : r ∈ w.loop.ready := hr ▸ List.mem_cons_self
  refine h.takeOff rfl (hr ▸ List.sublist_cons_self r rest) (.refl _) (fun s hs => ?_)
    (fun x hx => ?_) fun s hs => .inl (List.mem_singleton.1 hs ▸ hhead)
  · rw [hr] at hs
    constructor
    · intro hm hs
      exact hn (List.mem_singleton.1 hs ▸ hm)
    · intro hne
      exact (List.mem_cons.1 hs).resolve_left fun he => hne (List.mem_singleton.2 he)
  · refine iff_of_true hx fun hm => ?_
    have hst := (h.sleeping.1 (show (x.1, x.2) ∈ w.loop.sleepers from hx)).1
    rw [List.mem_singleton.1 hm, (h.ready.1 hhead).1] at hst
    contradiction

/-- A timer that is cancelled is no sleeper any more. -/
theorem rouse (h : w.Queued a []) (hr : (w.coroutines.get r).stage = .suspendedTimer)
    (hk : ∃ wake, (w.coroutines.get r).kind = .timer wake) :
    Queued a [r] { w with
      loop := { w.loop with sleepers := w.loop.sleepers.filter (·.2 != r) } } := by
  obtain ⟨wake, hk⟩ := hk
  refine h.takeOff rfl (.refl _) List.filter_sublist (fun s hs => ?_) (fun x hx => ?_)
    fun s hs => .inr ⟨wake, ?_⟩
  · refine iff_of_true hs fun hm => ?_
    have hst := (h.ready.1 hs).1
    rw [List.mem_singleton.1 hm, hr] at hst
    contradiction
  · simp [List.mem_filter, hx]
  · rw [List.mem_singleton.1 hs]
    exact h.sleeping.2 ⟨hr, hk, by simp⟩

/-- The timers that are due are sleepers no more. -/
theorem due (h : w.Queued a []) :
    Queued a ((w.loop.sleepers.takeWhile (·.1 ≤ w.loop.now)).map Prod.snd) { w with
      loop := { w.loop with sleepers := w.loop.sleepers.dropWhile (·.1 ≤ w.loop.now) } } := by
  have early {x : Nat × Ref .coroutine}
      (hx : x ∈ w.loop.sleepers.takeWhile (·.1 ≤ w.loop.now)) : x ∈ w.loop.sleepers :=
    (List.takeWhile_sublist _).subset hx
  refine h.takeOff rfl (.refl _) (List.dropWhile_sublist _) (fun s hs => ?_) (fun x hx => ?_)
    fun s hs => ?_
  · refine iff_of_true hs fun hm => ?_
    obtain ⟨x, hx, rfl⟩ := List.mem_map.1 hm
    have hst := (h.sleeping.1 (early hx)).1
    rw [(h.ready.1 hs).1] at hst
    contradiction
  · constructor
    · intro hlate hm
      obtain ⟨y, hy, he⟩ := List.mem_map.1 hm
      -- both are entries of the same timer
      have hk := (h.sleeping.1 (early hy)).2.1
      have hk' := (h.sleeping.1 (show (x.1, x.2) ∈ w.loop.sleepers from hx)).2.1
      rw [he, hk'] at hk
      have hlt := lt_of_mem_dropWhile h.sorted hlate
      rw [CoroutineKind.timer.inj hk] at hlt
      exact absurd (le_of_mem_takeWhile hy) (Nat.not_le_of_lt hlt)
    · intro hn
      have hsplit := List.takeWhile_append_dropWhile (p := (·.1 ≤ w.loop.now))
        (l := w.loop.sleepers)
      rw [← hsplit] at hx
      exact (List.mem_append.1 hx).resolve_left fun hm => hn (List.mem_map_of_mem hm)
  · obtain ⟨x, hx, rfl⟩ := List.mem_map.1 hs
    exact .inr ⟨x.1, early hx⟩

end Queued

/-! ### Transitions -/

/-- The books, the links and the lists are in order. -/
structure Tidy (past : Heap → Prop) (a : Option (Ref .coroutine)) (out : List (Ref .coroutine))
    (w : World) : Prop where
  accounts : w.Accounts past .nobody []
  coherent : w.Coherent
  queued : w.Queued a out

namespace Tidy

variable {past : Heap → Prop}

/-- A coroutine that is on no list comes to its end. -/
theorem finish (h : w.Tidy past a out) (outcome : Outcome) (hr : w.Has r)
    (hk : ∀ g, (w.coroutines.get r).kind ≠ .gather g) (hf : w.Free out r) :
    (w.finish r outcome).Tidy past a out ∧ Evolves w (w.finish r outcome) ∧
      ((w.finish r outcome).coroutines.get r).isDone = true := by
  have hev : Events none w (w.finish r outcome) := events_finish w r outcome (active_none w) (by simp)
  refine ⟨⟨h.accounts.finish outcome hr hk, hev.coherent h.coherent, ?_⟩, hev.evolves,
    isDone_finish outcome hr⟩
  by_cases hd : (w.coroutines.get r).isDone = true
  · rw [World.finish, finishWithin, if_pos hd]
    exact h.queued
  · have hd := Bool.eq_false_iff.2 hd
    exact ((queued_kept past a out).finish hr hd (h.coherent.fresh hd)
      ⟨h.accounts.settle _ hr hd (fun g hg => absurd hg (hk g)) fun g hg => absurd hg (hk g),
        h.queued.settle hr hd hf⟩).2

/-- The same for those that have been taken off the lists. -/
theorem finishes (h : w.Tidy past a out) (l : List (Nat × Ref .coroutine))
    (hl : ∀ x ∈ l, x.2 ∈ out ∧ w.Has x.2 ∧ ∃ wake, (w.coroutines.get x.2).kind = .timer wake) :
    let w' := l.foldl (fun w x => w.finish x.2 (.ok .null)) w
    w'.Tidy past a out ∧ Evolves w w' ∧ ∀ x ∈ l, (w'.coroutines.get x.2).isDone = true := by
  induction l generalizing w with
  | nil => exact ⟨h, .refl w, by simp⟩
  | cons x l ih =>
    obtain ⟨ho, hx, wake, hk⟩ := hl x List.mem_cons_self
    obtain ⟨h₁, he, hd⟩ := h.finish (.ok .null) hx
      (fun g hg => by rw [hk] at hg; contradiction) ⟨(h.queued.away ho).2, .inl ho⟩
    obtain ⟨h₂, he', hd'⟩ := ih h₁ fun y hy => by
      obtain ⟨ho, hy, wake', hk'⟩ := hl y (List.mem_cons_of_mem x hy)
      obtain ⟨c, hc, hcc⟩ := he.changes hy
      refine ⟨ho, hy.evolves he, wake', ?_⟩
      rw [get_of_get? hc, hcc.kind fun g hg => by rw [hk'] at hg; contradiction, hk']
    refine ⟨h₂, he.trans he', fun y hy => ?_⟩
    obtain rfl | hy := List.mem_cons.1 hy
    · exact he'.isDone hd
    · exact hd' y hy

theorem start (h : w.Tidy past a out) (hr : w.Has r) : (w.start r).Tidy past a out := by
  obtain ⟨hacc, hq⟩ := (queued_kept past a out).start hr ⟨h.accounts, h.queued⟩
  exact ⟨hacc, (events_start w r (active_none w)).coherent h.coherent, hq⟩

theorem pollSleepers (h : w.Tidy past a []) : w.pollSleepers.Tidy past a [] := by
  have taken : Tidy past a ((w.loop.sleepers.takeWhile (·.1 ≤ w.loop.now)).map Prod.snd) { w with
      loop := { w.loop with sleepers := w.loop.sleepers.dropWhile (·.1 ≤ w.loop.now) } } :=
    ⟨h.accounts.loop _ fun x hx => (List.dropWhile_suffix _).subset hx,
      h.coherent.congr rfl rfl, h.queued.due⟩
  obtain ⟨ht, -, hd⟩ := taken.finishes (w.loop.sleepers.takeWhile (·.1 ≤ w.loop.now))
    fun x hx => ⟨List.mem_map_of_mem hx, h.accounts.sleepers x ((List.takeWhile_prefix _).subset hx)⟩
  refine ⟨ht.accounts, ht.coherent, ht.queued.home fun r hr => ?_⟩
  obtain ⟨x, hx, rfl⟩ := List.mem_map.1 hr
  exact hd x hx

end Tidy

/-- A cancellation that reaches a suspended coroutine does nothing to the loop but to queue that one. -/
theorem loop_deliverCancellation (hs : (w.coroutines.get r).stage = .suspendedAwait) :
    ∃ ready, (w.deliverCancellation r).loop = { w.loop with ready } := by
  let w₁ := w.modifyCoroutine r fun c => { c with cancelDelivered := true, awaiting := none }
  have hforgo : (w₁.forgo r (w.coroutines.get r).awaiting).loop = w.loop := by
    unfold World.forgo
    split <;> rfl
  obtain ⟨ready, hwake⟩ := loop_wake (w₁.forgo r (w.coroutines.get r).awaiting) r
    (.error (cancellation 0 0))
  rw [hforgo] at hwake
  simp only [deliverCancellation, hs]
  exact ⟨ready, hwake⟩

/-- Whoever is not the one that the cancellation has reached is on the lists of waiters as before. -/
theorem count_deliverCancellation (hs : (w.coroutines.get r).stage = .suspendedAwait)
    {s : Ref .coroutine} (hne : s ≠ r) (t : Ref .coroutine) :
    ((w.deliverCancellation r).coroutines.get t).waiters.count s =
      (w.coroutines.get t).waiters.count s := by
  have kept (v : World) (outcome : Outcome) :
      ((v.wake r outcome).coroutines.get t).waiters = (v.coroutines.get t).waiters := by
    unfold wake
    split
    · exact field_modifyCoroutine v r (fun c => c.woken outcome) Coroutine.waiters (fun _ => rfl) t
    · rfl
  have forgone (v : World) (awaited : Option (Ref .coroutine)) :
      ((v.forgo r awaited).coroutines.get t).waiters.count s =
        (v.coroutines.get t).waiters.count s := by
    cases awaited with
    | none => rfl
    | some u =>
      obtain he | ⟨-, -, he⟩ := get_modified v u
        (fun c => { c with waiters := c.waiters.filter (· != r) }) t
      · exact congrArg (fun c => c.waiters.count s) he
      · refine (congrArg (fun c => c.waiters.count s) he).trans ?_
        exact List.count_filter (by simpa using hne)
  simp only [deliverCancellation, hs]
  rw [kept, forgone]
  exact congrArg (List.count s) (field_modifyCoroutine w r
    (fun c => { c with cancelDelivered := true, awaiting := none }) Coroutine.waiters
    (fun _ => rfl) t)

namespace Queued

/-- A coroutine that has joined the loop goes on to another stage and does not sleep before or after.
Of all others only the lists of waiters may change. -/
theorem move {a' : Option (Ref .coroutine)} {out' : List (Ref .coroutine)} (h : w.Queued a out)
    (other : ∀ {s}, s ≠ r → ∃ waiters, w'.coroutines.get s = { w.coroutines.get s with waiters })
    (loop : ∃ ready, w'.loop = { w.loop with ready })
    (joined : r ∈ w.loop.started) (awake : (w.coroutines.get r).stage ≠ .suspendedTimer)
    (stage : (w'.coroutines.get r).stage ≠ .new ∧ (w'.coroutines.get r).stage ≠ .suspendedTimer)
    (home : r ∉ out') (away : ∀ {s}, s ≠ r → (s ∈ out' ↔ s ∈ out)) (nodup : w'.loop.ready.Nodup)
    (ready : ∀ {s}, s ≠ r → (s ∈ w'.loop.ready ↔ s ∈ w.loop.ready))
    (queued : r ∈ w'.loop.ready ↔ (w'.coroutines.get r).stage = .runnable)
    (awaits : (w'.coroutines.get r).stage = .suspendedAwait →
      ∃ t, (w'.coroutines.get r).awaiting = some t)
    (waited : ∀ {s t}, (w'.coroutines.get s).Waits t → (w'.coroutines.get t).waiters.count s = 1)
    (waiting : ∀ {s t}, s ∈ (w'.coroutines.get t).waiters → (w'.coroutines.get s).Waits t)
    (running : ∀ {s}, (w'.coroutines.get s).stage = .running → a' = some s) :
    w'.Queued a' out' := by
  obtain ⟨_, loop⟩ := loop
  refine ⟨nodup, fun {s} => ?_, fun {wake s} => ?_, ?_, ?_, fun {s} hs => ?_, fun {s} hn hd => ?_,
    fun {s} hs => ?_, waited, waiting, running, fun {s} hs => ?_⟩
  · by_cases hsr : s = r
    · rw [hsr, queued]
      exact (and_iff_left home).symm
    · obtain ⟨_, he⟩ := other hsr
      rw [ready hsr, h.ready, he, away hsr]
  · -- it is no sleeper before and none after
    rw [loop, h.sleeping]
    by_cases hsr : s = r
    · rw [hsr]
      exact iff_of_false (fun hs => awake hs.1) fun hs => stage.2 hs.1
    · obtain ⟨_, he⟩ := other hsr
      rw [he, away hsr]
  · rw [loop]
    exact h.sorted
  · rw [loop]
    exact h.once
  · rw [loop] at hs
    by_cases hsr : s = r
    · rw [hsr]
      exact stage.1
    · obtain ⟨_, he⟩ := other hsr
      rw [he]
      exact h.joined hs
  · rw [loop]
    by_cases hsr : s = r
    · rw [hsr]
      exact joined
    · obtain ⟨_, he⟩ := other hsr
      rw [he] at hn hd
      exact h.listed hn hd
  · by_cases hsr : s = r
    · rw [hsr] at hs ⊢
      exact awaits hs
    · obtain ⟨_, he⟩ := other hsr
      rw [he] at hs ⊢
      exact h.awaits hs
  · have hsr : s ≠ r := fun he => home (he ▸ hs)
    obtain ⟨_, he⟩ := other hsr
    rw [he]
    exact h.away ((away hsr).1 hs)

/-- A coroutine that waits is reached by its cancellation: it is on no list of waiters any more, and
in the queue. -/
theorem deliver (h : w.Queued a out) (hs : (w.coroutines.get r).stage = .suspendedAwait) :
    (w.deliverCancellation r).Queued a out := by
  have hready := ready_deliverCancellation hs
  have hq : r ∉ w.loop.ready := fun hm => by
    rw [(h.ready.1 hm).1] at hs
    contradiction
  obtain ⟨own, -, -, self⟩ := get_deliverCancellation hs r
  rw [if_pos rfl] at self
  -- of all others only the list of waiters may be shorter
  have other {s : Ref .coroutine} (hne : s ≠ r) : ∃ waiters,
      (w.deliverCancellation r).coroutines.get s = { w.coroutines.get s with waiters } := by
    obtain ⟨waiters, -, -, he⟩ := get_deliverCancellation hs s
    rw [if_neg hne] at he
    exact ⟨waiters, he⟩
  have hother {s : Ref .coroutine}
      (hn : ((w.deliverCancellation r).coroutines.get s).stage ≠ .runnable) : s ≠ r := by
    rintro rfl
    rw [self] at hn
    exact hn rfl
  refine h.move other (loop_deliverCancellation hs)
    (h.listed (by rw [hs]; simp) (by rw [isDone, hs]; rfl)) (by rw [hs]; simp)
    (by rw [self]; exact ⟨by simp, by simp⟩) (fun ho => (h.away ho).2 hs) (fun _ => Iff.rfl) ?_
    (fun {s} hne => ?_) ?_ (fun hst => ?_) (fun {s t} hst => ?_) (fun {s t} hst => ?_)
    fun {s} hst => ?_
  · rw [hready]
    refine List.nodup_append.2 ⟨h.nodup, List.nodup_singleton r, fun x hx y hy he => ?_⟩
    rw [he, List.mem_singleton.1 hy] at hx
    exact hq hx
  · rw [hready, List.mem_append, List.mem_singleton]
    exact or_iff_left hne
  · -- the one that was reached goes to the end of the queue
    rw [hready, self]
    exact iff_of_true (List.mem_append_right _ (List.mem_singleton_self r)) rfl
  · exact absurd rfl (hother (by rw [hst]; simp))
  · -- on the list of whom it waits for everybody else is as often as before
    have hne := hother (by rw [hst.1]; simp)
    obtain ⟨_, he⟩ := other hne
    rw [he] at hst
    rw [count_deliverCancellation hs hne]
    exact h.waited hst
  · -- whoever is left on a list still waits, and the one that was reached is on none
    obtain ⟨waiters, hsub, hnot, he⟩ := get_deliverCancellation hs t
    have hw : ((w.deliverCancellation r).coroutines.get t).waiters = waiters := by
      rw [he]
      split <;> rfl
    rw [hw] at hst
    have hwait := h.waiting (hsub hst)
    have hne : s ≠ r := by
      rintro rfl
      exact hnot hwait.2 hst
    obtain ⟨_, he⟩ := other hne
    rwa [he]
  · obtain ⟨_, he⟩ := other (hother (by rw [hst]; simp))
    rw [he] at hst
    exact h.running hst

/-- Whoever begins to wait goes to the end of the list of the one it waits for. -/
theorem waiters_suspendOn {target : Ref .coroutine} (ht : w.Has target) (t : Ref .coroutine) :
    ((w.suspendOn r target).coroutines.get t).waiters =
      if t = target then (w.coroutines.get t).waiters ++ [r] else (w.coroutines.get t).waiters := by
  let begins (c : Coroutine) : Coroutine :=
    { c with stage := .suspendedAwait, awaiting := some target }
  let w₁ := w.modifyCoroutine r begins
  have before (s : Ref .coroutine) : (w₁.coroutines.get s).waiters = (w.coroutines.get s).waiters :=
    field_modifyCoroutine w r begins Coroutine.waiters (fun _ => rfl) s
  have ht₁ : w₁.Has target := by
    rw [has_iff] at ht ⊢
    exact Nat.lt_of_lt_of_eq ht (Arena.size_modify _ _ _).symm
  by_cases htt : t = target
  · rw [if_pos htt, htt, ← before]
    exact congrArg Coroutine.waiters (get_modifyCoroutine w₁ target _ ht₁)
  · rw [if_neg htt, ← before]
    exact congrArg Coroutine.waiters (get_modifyCoroutine_of_ne w₁ target _ htt)

/-- The running coroutine begins to wait for one that has joined the loop and is not done. -/
theorem suspendOn (h : w.Queued (some r) []) {target : Ref .coroutine}
    (hr : (w.coroutines.get r).stage = .running) (hne : r ≠ target)
    (ht : (w.coroutines.get target).stage ≠ .new) : (w.suspendOn r target).Queued none [] := by
  have hg : w.Has r := get?_of_stage (by rw [hr]; simp)
  obtain ⟨_, -, self⟩ := get_suspendOn hg hne r
  rw [if_pos rfl] at self
  -- of all but the running one, only a list of waiters may have changed
  have same {s : Ref .coroutine} (hs : s ≠ r) : ∃ waiters,
      (w.suspendOn r target).coroutines.get s = { w.coroutines.get s with waiters } := by
    obtain ⟨waiters, -, he⟩ := get_suspendOn hg hne s
    rw [if_neg hs] at he
    exact ⟨waiters, he⟩
  have waiters := waiters_suspendOn (r := r) (get?_of_stage ht)
  -- the running one is on no list
  have hnot (t : Ref .coroutine) : r ∉ (w.coroutines.get t).waiters := fun hm => by
    rw [(h.waiting hm).1] at hr
    contradiction
  have hq : r ∉ w.loop.ready := fun hm => by
    rw [(h.ready.1 hm).1] at hr
    contradiction
  refine h.move same ⟨_, rfl⟩ (h.listed (by rw [hr]; simp) (by rw [isDone, hr]; rfl))
    (by rw [hr]; simp) (by rw [self]; exact ⟨by simp, by simp⟩) (by simp) (fun _ => Iff.rfl) h.nodup
    (fun _ => Iff.rfl) (iff_of_false hq (by rw [self]; simp)) (fun _ => ?_) (fun {s t} hs => ?_)
    (fun {s t} hs => ?_) fun {s} hs => ?_
  · rw [self]
    exact ⟨target, rfl⟩
  · -- it is on the list of the target now, once, and on no other
    rw [waiters]
    by_cases hsr : s = r
    · subst hsr
      rw [self] at hs
      obtain rfl := Option.some.inj hs.2
      rw [if_pos rfl, List.count_append, List.count_eq_zero.2 (hnot target)]
      simp
    · obtain ⟨_, he⟩ := same hsr
      rw [he] at hs
      have hcount := h.waited hs
      split
      · rw [List.count_append, hcount, List.count_singleton, if_neg]
        simpa using Ne.symm hsr
      · exact hcount
  · -- and who is on a list waits for the one whose list it is
    rw [waiters] at hs
    have waits {s t : Ref .coroutine} (hs : s ∈ (w.coroutines.get t).waiters) :
        ((w.suspendOn r target).coroutines.get s).Waits t := by
      have hsr : s ≠ r := fun he => hnot t (he ▸ hs)
      obtain ⟨_, he⟩ := same hsr
      rw [he]
      exact h.waiting hs
    by_cases ht : t = target
    · rw [if_pos ht] at hs
      obtain hs | hs := List.mem_append.1 hs
      · exact waits hs
      · rw [List.mem_singleton.1 hs, self, ht]
        exact ⟨rfl, rfl⟩
    · rw [if_neg ht] at hs
      exact waits hs
  · -- nobody runs any more
    by_cases hsr : s = r
    · rw [hsr, self] at hs
      contradiction
    · obtain ⟨_, he⟩ := same hsr
      rw [he] at hs
      exact absurd (Option.some.inj (h.running hs)).symm hsr

/-- A coroutine that has been taken from the queue takes its turn. -/
theorem run (h : w.Queued none [r]) (hr : (w.coroutines.get r).stage = .runnable)
    (f : Coroutine → Coroutine)
    (hf : ∀ c, (f c).stage = .running ∧ (f c).waiters = c.waiters) :
    (w.modifyCoroutine r f).Queued (some r) [] := by
  have hg : w.Has r := get?_of_stage (by rw [hr]; simp)
  have self : (w.modifyCoroutine r f).coroutines.get r = f (w.coroutines.get r) :=
    get_modifyCoroutine w r f hg
  obtain ⟨hstage, hwaiters⟩ := hf (w.coroutines.get r)
  have other {s : Ref .coroutine} (hs : s ≠ r) :
      (w.modifyCoroutine r f).coroutines.get s = w.coroutines.get s :=
    get_modifyCoroutine_of_ne w r f hs
  have waiters (t : Ref .coroutine) : ((w.modifyCoroutine r f).coroutines.get t).waiters =
      (w.coroutines.get t).waiters :=
    field_modifyCoroutine w r f Coroutine.waiters (fun c => (hf c).2) t
  have hq : r ∉ w.loop.ready := fun hm => (h.ready.1 hm).2 (List.mem_singleton_self r)
  refine h.move (fun hs => ⟨_, other hs⟩) ⟨_, rfl⟩
    (h.listed (by rw [hr]; simp) (by rw [isDone, hr]; rfl)) (by rw [hr]; simp)
    (by rw [self, hstage]; exact ⟨by simp, by simp⟩) (by simp) (fun hs => by simp [hs]) h.nodup
    (fun _ => Iff.rfl) (iff_of_false hq (by rw [self, hstage]; simp)) (fun hs => ?_)
    (fun {s t} hs => ?_) (fun {s t} hs => ?_) fun {s} hs => ?_
  · -- who waits for somebody does not run
    rw [self, hstage] at hs
    contradiction
  · have hsr : s ≠ r := by
      rintro rfl
      rw [self, Waits, hstage] at hs
      exact absurd hs.1 (by simp)
    rw [waiters]
    rw [other hsr] at hs
    exact h.waited hs
  · -- nobody is waited for by the one that runs
    rw [waiters] at hs
    have hs' := h.waiting hs
    have hsr : s ≠ r := by
      rintro rfl
      rw [hs'.1] at hr
      contradiction
    rwa [other hsr]
  · by_cases hsr : s = r
    · rw [hsr]
    · rw [other hsr] at hs
      exact absurd (h.running hs) (by simp)

end Queued

namespace Tidy

variable {past : Heap → Prop}

theorem flag (h : w.Tidy past a []) (r : Ref .coroutine) :
    (w.modifyCoroutine r fun c => { c with isCancelled := true }).Tidy past a [] :=
  ⟨h.accounts.flag r, h.coherent.aside r _ fun _ => ⟨rfl, rfl, rfl, rfl, rfl⟩,
    h.queued.modify r _ ⟨rfl, rfl, rfl, fun _ => Iff.rfl⟩⟩

theorem deliverCancellation (h : w.Tidy past a []) (r : Ref .coroutine) :
    (w.deliverCancellation r).Tidy past a [] := by
  cases hs : (w.coroutines.get r).stage with
  | suspendedAwait =>
    exact ⟨h.accounts.deliverCancellation r, h.coherent.deliver hs, h.queued.deliver hs⟩
  | suspendedTimer =>
    obtain ⟨wake, hk⟩ := (h.accounts.regular r).timer hs
    have roused : Tidy past a [r] { w with
        loop := { w.loop with sleepers := w.loop.sleepers.filter (·.2 != r) } } :=
      ⟨h.accounts.loop _ fun x hx => List.mem_of_mem_filter hx, h.coherent.congr rfl rfl,
        h.queued.rouse hs ⟨wake, hk⟩⟩
    obtain ⟨ht, -, hd⟩ := roused.finish (.ok .null) (get?_of_stage (by rw [hs]; simp))
      (fun g hg => absurd (hk.symm.trans hg) (by simp))
      ⟨fun hs' => absurd (hs.symm.trans hs') (by simp), .inl (List.mem_singleton_self r)⟩
    simp only [World.deliverCancellation, hs]
    refine ⟨ht.accounts, ht.coherent, ht.queued.home fun s hs => ?_⟩
    rwa [List.mem_singleton.1 hs]
  | _ =>
    simp only [World.deliverCancellation, hs]
    exact h

theorem flagCancelled (h : w.Tidy past a []) (r : Ref .coroutine) :
    (w.flagCancelled r).2.Tidy past a [] :=
  flagWithin_keeps (P := fun w => w.Tidy past a []) (fun _ r h _ _ => h.flag r) _ r h

theorem cancel (h : w.Tidy past a []) (r : Ref .coroutine) : (w.cancel r).2.Tidy past a [] :=
  cancel_keeps (P := fun w => w.Tidy past a []) (fun _ r h _ _ => h.flag r)
    (fun _ r h _ => h.deliverCancellation r) r h

end Tidy

/-! ### Loops -/

/-- Nobody is left over from a loop: whoever has joined one is done. -/
def Vacant (w : World) : Prop :=
  ∀ r, (w.coroutines.get r).stage = .new ∨ (w.coroutines.get r).isDone = true

/-- A loop starts with empty lists, and nobody belongs to them. -/
theorem Vacant.queued {past : Heap → Prop} (h : w.Vacant) (ha : w.Accounts past .nobody []) :
    w.openLoop.Queued none [] := by
  have resting {r : Ref .coroutine} {stage : Stage} (hs : (w.coroutines.get r).stage = stage)
      (hn : stage ≠ .new) (hd : stage ≠ .done) : False :=
    (h r).elim (fun h => hn (hs.symm.trans h)) fun h => hd (hs.symm.trans (beq_iff_eq.1 h))
  have nobody (r t : Ref .coroutine) : r ∉ (w.coroutines.get t).waiters := by
    obtain hn | hd := h t
    · rw [(ha.regular t).waiters hn]
      simp
    · rw [((ha.regular t).bare hd).waiters]
      simp
  exact ⟨List.nodup_nil,
    fun {r} => iff_of_false List.not_mem_nil fun hs => resting hs.1 (by simp) (by simp),
    fun {wake r} => iff_of_false List.not_mem_nil fun hs => resting hs.1 (by simp) (by simp),
    .nil, List.nodup_nil, fun {r} hm => absurd hm List.not_mem_nil,
    fun {r} hn hd => (resting rfl hn fun hs => beq_eq_false_iff_ne.1 hd hs).elim,
    fun {r} hs => (resting hs (by simp) (by simp)).elim,
    fun {r t} hs => (resting hs.1 (by simp) (by simp)).elim,
    fun {r t} hs => absurd hs (nobody r t), fun {r} hs => (resting hs (by simp) (by simp)).elim,
    fun {r} hm => absurd hm List.not_mem_nil⟩

end World

open World

/-- Each step of a loop keeps its lists, as long as the loop does not fail. -/
theorem Step.queued {past : Heap → Prop} {s s' : Situation} (h : Step s s') (hs : s.Coherent)
    (ha : s.world.Accounts past .nobody []) (hi : s.control ≠ .idle) (hi' : s'.control ≠ .idle)
    (hf : s'.control ≠ .failed) (hq : s.world.Queued s.control.actor []) :
    s'.world.Queued s'.control.actor [] := by
  have tidy : s.world.Tidy past s.control.actor [] := ⟨ha, hs.world, hq⟩
  cases h with
  | compute _ hc hl => exact hq.congr hc hl
  -- a new coroutine waits for nothing and is on no list
  | @create c w serial name kind scope =>
    refine hq.transfer rfl rfl rfl fun r => ?_
    dsimp only
    obtain he | ⟨he, hn⟩ := get_pushed w { serial, name, kind, scope } r
    · rw [he]
      exact .refl _
    · have hd : w.coroutines.get r = default :=
        Classical.byContradiction fun h => hn (get?_of_get_ne h)
      rw [he, hd]
      exact ⟨rfl, rfl, rfl, by simp⟩
  | tick => exact hq.transfer rfl rfl rfl fun r => .refl _
  | start target ht => exact (tidy.start ht).queued
  | flag target => exact (tidy.flagCancelled target).queued
  | cancel target => exact (tidy.cancel target).queued
  | @notice r w => exact hq.modify r _ ⟨rfl, rfl, rfl, fun _ => Iff.rfl⟩
  | wait target hne hd hn => exact Queued.suspendOn hq (hs.active _ rfl).1 hne hn
  | opening => exact absurd rfl hi
  | poll => exact tidy.pollSleepers.queued
  | @pass w r rest hr hn =>
    -- whoever is in the queue can go on
    have hrun := (hq.ready.1 (show r ∈ w.loop.ready from hr ▸ List.mem_cons_self)).1
    obtain hd | hk := hn
    · rw [isDone, hrun] at hd
      contradiction
    · obtain ⟨f, owner, hk'⟩ := (ha.regular r).script (.inr (.inr hrun))
      exact absurd hk' (hk f owner)
  | @drop w r rest hr hd hk =>
    -- it is done before it is missed in the queue
    obtain ⟨f, owner, hk⟩ := hk
    have hrun := (hq.ready.1 (show r ∈ w.loop.ready from hr ▸ List.mem_cons_self)).1
    have taken : World.Tidy past none [r] { w with loop := { w.loop with ready := rest } } :=
      ⟨ha.loop _ fun _ => id, hs.world.shorten rfl (hr ▸ List.sublist_cons_self r rest),
        Queued.dequeue hq hr⟩
    obtain ⟨ht, -, hd⟩ := taken.finish (.error (cancellation 0 0))
      (get?_of_stage (by rw [show (w.coroutines.get r).stage = _ from hrun]; simp))
      (fun g hg => absurd (hk.symm.trans hg) (by simp))
      ⟨fun hs' => absurd (hrun.symm.trans hs') (by simp), .inl (List.mem_singleton_self r)⟩
    refine ht.queued.home fun s hs => ?_
    rw [List.mem_singleton.1 hs]
    exact hd
  | lose => exact absurd rfl hf
  -- whoever is resumed is the head of the queue, which is taken off and runs
  | @resume w r rest scope f owner hr =>
    have hrun := (hq.ready.1 (show r ∈ w.loop.ready from hr ▸ List.mem_cons_self)).1
    exact (Queued.dequeue hq hr).run hrun _ fun _ => ⟨rfl, rfl⟩
  | @keep w r body t =>
    obtain ⟨target, hst, -⟩ := hs.waiting rfl
    dsimp only at hst ⊢
    rw [get_keepTurn t hst]
    exact hq.modify r _ ⟨rfl, rfl, rfl, fun _ => Iff.rfl⟩
  | @finish w r scope outcome =>
    -- the running one comes to its end and is not away but done
    obtain ⟨hst, f, owner, hk⟩ := hs.active r rfl
    have cleared : (w.clearScope scope).Tidy past (some r) [] :=
      ⟨ha.congr (.refl _) rfl fun _ => id, hs.world.congr rfl rfl, hq.congr rfl rfl⟩
    obtain ⟨ht, -, hd⟩ := cleared.finish outcome
      (get?_of_stage (by rw [show ((w.clearScope scope).coroutines.get r).stage = _ from hst]; simp))
      (fun g hg => absurd (hk.symm.trans hg) (by simp))
      ⟨fun hs' => absurd (hst.symm.trans hs') (by simp),
        .inr ⟨fun hs' => absurd (hst.symm.trans hs') (by simp),
          fun hs' => absurd (hst.symm.trans hs') (by simp)⟩⟩
    refine ht.queued.retire fun hrun => ?_
    rw [isDone, hrun] at hd
    contradiction
  | close => exact absurd rfl hi'

/-- In a loop that fails nobody has a turn any more. -/
theorem Step.failed {s s' : Situation} (h : Step s s') (hf : s.control = .failed)
    (hi : s'.control ≠ .idle) : s'.control = .failed := by
  cases h with
  | compute | create | tick | flag => exact hf
  | close => exact absurd rfl hi
  | _ => contradiction

/-- A loop that starts with nobody left over has its lists in order for as long as it runs. -/
theorem Within.queued {env : Environment} {w : World} {root : Ref .coroutine} {s : Situation}
    (hr : Reachable env ⟨.idle, w⟩) (hv : w.Vacant) (hroot : w.Has root)
    (hn : (w.coroutines.get root).stage = .new)
    (hc : (w.coroutines.get root).isCancelled = false)
    (h : Within ⟨.looping, w.openLoop.start root⟩ s) :
    s.control = .failed ∨ s.world.Queued s.control.actor [] := by
  have opens : Step ⟨.idle, w⟩ ⟨.looping, w.openLoop.start root⟩ := .opening root hroot hn hc
  induction h with
  | refl =>
    have opened : w.openLoop.Tidy (fun _ => True) none [] :=
      ⟨hr.accounts.openLoop, hr.coherent.world.shorten rfl (List.nil_sublist _),
        hv.queued hr.accounts⟩
    exact .inr (opened.start hroot).queued
  | @tail s s' hs hstep ih =>
    obtain ⟨hstep, hi⟩ := hstep
    have reached : Reachable env s :=
      Relation.ReflTransGen.trans (.tail hr opens) (Within.steps hs)
    obtain hf | hq := ih
    · exact .inl (hstep.failed hf hi)
    · refine or_iff_not_imp_left.2 fun hf => ?_
      exact hstep.queued reached.coherent reached.accounts (Within.running hs (by simp)) hi hf hq

end Rewind
