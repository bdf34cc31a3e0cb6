/-
Events of the loop.

A transition of the loop may touch many coroutines: one that ends wakes those that wait for it and
may complete gather tasks, which end in turn.  All of that is a sequence of events of a few kinds,
and what every event keeps is kept by every transition.  The coroutine that has the turn, if there is
one, does not end by an event.

* `Coroutine.woken` — a coroutine with the outcome it has waited for;
* `get_wakes`, `get_settle_of_ne` — what waking does to each coroutine;
* `World.Event`, `World.Events` — what happens at once, and a sequence of that;
* `events_start`, `events_finish`, `events_cancel`, … — each transition is a sequence of events.
-/
import Rewind.Proofs.Change

namespace Rewind

open Coroutine

namespace Coroutine

/-- The coroutine with the outcome it has waited for. -/
def woken (c : Coroutine) (outcome : Outcome) : Coroutine :=
  { c with tape := c.tape.inject outcome, awaiting := none, stage := .runnable }

@[simp] theorem stage_woken (c : Coroutine) (outcome : Outcome) :
    (c.woken outcome).stage = .runnable := rfl

/-- A coroutine that is no gather task keeps its kind. -/
theorem Changes.kind {c c' : Coroutine} (h : Changes c c') (hk : ∀ g, c.kind ≠ .gather g) :
    c'.kind = c.kind := by
  induction h with
  | refl => rfl
  | tail _ hc ih =>
    cases hc with
    | fill g _ _ hg => exact absurd (ih.symm.trans hg) (hk g)
    | _ => exact ih

theorem Changes.script {c c' : Coroutine} {f : Ref .function} {owner : Option (Ref .blueprint)}
    (h : Changes c c') (hk : c.kind = .script f owner) : c'.kind = .script f owner :=
  (h.kind fun g => by rw [hk]; simp).trans hk

end Coroutine

namespace World

/-! ### One coroutine of a world -/

section Modify

variable (w : World) (r : Ref .coroutine) (f : Coroutine → Coroutine)

theorem get_modifyCoroutine_of_ne {s : Ref .coroutine} (h : s ≠ r) :
    (w.modifyCoroutine r f).coroutines.get s = w.coroutines.get s := by
  simp [Arena.get, modifyCoroutine, Arena.get?_modify, h]

theorem get_modifyCoroutine {c : Coroutine} (h : w.coroutines.get? r = some c) :
    (w.modifyCoroutine r f).coroutines.get r = f c := by
  simp [Arena.get, modifyCoroutine, Arena.get?_modify, h]

/-- What an update of a coroutine leaves alone. -/
theorem field_modifyCoroutine {β : Type} (g : Coroutine → β) (h : ∀ c, g (f c) = g c)
    (s : Ref .coroutine) :
    g ((w.modifyCoroutine r f).coroutines.get s) = g (w.coroutines.get s) := by
  by_cases hs : s = r
  · subst hs
    cases hg : w.coroutines.get? s with
    | none => simp [Arena.get, modifyCoroutine, Arena.get?_modify, hg]
    | some c => rw [get_modifyCoroutine w s f hg, h, get_of_get? hg]
  · rw [get_modifyCoroutine_of_ne w r f hs]

end Modify

/-- A coroutine that is not as a new timer is there. -/
theorem get?_of_get_ne {w : World} {r : Ref .coroutine} (h : w.coroutines.get r ≠ default) :
    w.coroutines.get? r = some (w.coroutines.get r) := by
  cases hg : w.coroutines.get? r with
  | none => simp [Arena.get, hg] at h
  | some c => rw [get_of_get? hg]

theorem get?_of_stage {w : World} {r : Ref .coroutine} (h : (w.coroutines.get r).stage ≠ .new) :
    w.coroutines.get? r = some (w.coroutines.get r) := by
  refine get?_of_get_ne fun he => h ?_
  rw [he]
  rfl

/-- The reference leads to a coroutine. -/
def Has (w : World) (r : Ref .coroutine) : Prop := w.coroutines.get? r = some (w.coroutines.get r)

theorem has_iff {w : World} {r : Ref .coroutine} : w.Has r ↔ r.index < w.coroutines.size := by
  constructor
  · intro h
    exact (Array.getElem?_eq_some_iff.1 h).1
  · intro h
    have hg : w.coroutines.get? r = some w.coroutines.cells[r.index] := Array.getElem?_eq_getElem h
    rw [Has, get_of_get? hg, hg]

theorem Has.evolves {w w' : World} {r : Ref .coroutine} (h : w.Has r) (he : Evolves w w') :
    w'.Has r := by
  rw [has_iff] at h ⊢
  rw [he.size]
  exact h

theorem Evolves.done {w w' : World} (h : Evolves w w') {r : Ref .coroutine}
    (hd : (w.coroutines.get r).isDone = true) :
    (w'.coroutines.get r).isDone = true ∧
      (w'.coroutines.get r).outcome = (w.coroutines.get r).outcome := by
  have hg : w.Has r := get?_of_stage fun hs => by simp [isDone, hs] at hd
  obtain ⟨c', hc', hcc⟩ := h.changes hg
  rw [get_of_get? hc']
  exact hcc.done hd

/-- A coroutine that has joined a loop is never new again. -/
theorem Evolves.not_new {w w' : World} (h : Evolves w w') {r : Ref .coroutine}
    (hr : (w.coroutines.get r).stage ≠ .new) : (w'.coroutines.get r).stage ≠ .new := by
  obtain ⟨c', hc', hcc⟩ := h.changes (get?_of_stage hr)
  rw [get_of_get? hc']
  exact hcc.not_new hr

theorem has_of_coroutine? {w : World} {v : Value} {r : Ref .coroutine}
    (h : w.coroutine? v = some r) : w.Has r := by
  obtain ⟨-, hr⟩ := Option.filter_eq_some_iff.1 h
  exact has_iff.2 (of_decide_eq_true hr)

/-! ### Waking -/

theorem get_wake_of_ne (w : World) (r : Ref .coroutine) (outcome : Outcome) {s : Ref .coroutine}
    (h : s ≠ r) : (w.wake r outcome).coroutines.get s = w.coroutines.get s := by
  unfold wake
  split
  · exact get_modifyCoroutine_of_ne w r _ h
  · rfl

theorem get_wake {w : World} {r : Ref .coroutine} (outcome : Outcome)
    (h : (w.coroutines.get r).stage = .suspendedAwait) :
    (w.wake r outcome).coroutines.get r = (w.coroutines.get r).woken outcome := by
  unfold wake
  rw [if_pos h]
  exact get_modifyCoroutine w r _ (get?_of_stage (by simp [h]))

theorem wake_of_ne {w : World} {r : Ref .coroutine} (outcome : Outcome)
    (h : (w.coroutines.get r).stage ≠ .suspendedAwait) : w.wake r outcome = w := by
  unfold wake
  rw [if_neg h]

section WakeWithCopy

variable (outcome : Outcome) {w : World} {r : Ref .coroutine}

theorem get_wakeWithCopy_of_ne {s : Ref .coroutine} (h : s ≠ r) :
    (wakeWithCopy outcome w r).coroutines.get s = w.coroutines.get s :=
  get_wake_of_ne (w.copyOutcome outcome).2 r _ h

theorem get_wakeWithCopy (h : (w.coroutines.get r).stage = .suspendedAwait) :
    (wakeWithCopy outcome w r).coroutines.get r =
      (w.coroutines.get r).woken (Heap.duplicateOutcome outcome w.heap).1 :=
  get_wake (w := (w.copyOutcome outcome).2) _ h

theorem coroutines_wakeWithCopy (h : (w.coroutines.get r).stage ≠ .suspendedAwait) :
    (wakeWithCopy outcome w r).coroutines = w.coroutines := by
  have hw : wakeWithCopy outcome w r = (w.copyOutcome outcome).2 := wake_of_ne _ h
  rw [hw]
  rfl

theorem ready_wakeWithCopy (h : (w.coroutines.get r).stage = .suspendedAwait) :
    (wakeWithCopy outcome w r).loop.ready = w.loop.ready ++ [r] :=
  congrArg (·.loop.ready) (show (w.copyOutcome outcome).2.wake r _ = _ from if_pos h)

theorem ready_wakeWithCopy_of_ne (h : (w.coroutines.get r).stage ≠ .suspendedAwait) :
    (wakeWithCopy outcome w r).loop.ready = w.loop.ready :=
  congrArg (·.loop.ready) (wake_of_ne (w := (w.copyOutcome outcome).2) _ h)

/-- Waking suspends nobody. -/
theorem stage_of_wakeWithCopy {s : Ref .coroutine}
    (h : ((wakeWithCopy outcome w r).coroutines.get s).stage = .suspendedAwait) :
    (w.coroutines.get s).stage = .suspendedAwait := by
  by_cases hr : (w.coroutines.get r).stage = .suspendedAwait
  · by_cases hs : s = r
    · subst hs
      rw [get_wakeWithCopy outcome hr] at h
      contradiction
    · rwa [get_wakeWithCopy_of_ne outcome hs] at h
  · rwa [coroutines_wakeWithCopy outcome hr] at h

end WakeWithCopy

/-- What becomes of a coroutine when copies of an outcome are sent to the coroutines of a list: it
wakes if it is on the list and suspended. -/
theorem get_wakes (outcome : Outcome) (w : World) (l : List (Ref .coroutine))
    (s : Ref .coroutine) :
    let w' := l.foldl (wakeWithCopy outcome) w
    (w'.coroutines.get s = w.coroutines.get s ∧
        (s ∈ l → (w.coroutines.get s).stage ≠ .suspendedAwait)) ∨
      (s ∈ l ∧ (w.coroutines.get s).stage = .suspendedAwait ∧ ∃ heap : Heap,
        w'.coroutines.get s = (w.coroutines.get s).woken (Heap.duplicateOutcome outcome heap).1) := by
  induction l generalizing w with
  | nil => exact .inl ⟨rfl, by simp⟩
  | cons r l ih =>
    have h := ih (wakeWithCopy outcome w r)
    by_cases hs : s = r
    · subst hs
      by_cases hst : (w.coroutines.get s).stage = .suspendedAwait
      · -- it wakes here, and is not suspended any more when the list goes on
        rw [get_wakeWithCopy outcome hst] at h
        obtain ⟨he, -⟩ | ⟨-, hn, -⟩ := h
        · exact .inr ⟨by simp, hst, w.heap, he⟩
        · contradiction
      · rw [coroutines_wakeWithCopy outcome hst] at h
        obtain ⟨he, -⟩ | ⟨-, hn, -⟩ := h
        · exact .inl ⟨he, fun _ => hst⟩
        · contradiction
    · rw [get_wakeWithCopy_of_ne outcome hs] at h
      obtain ⟨he, hn⟩ | ⟨hl, hst, heap, he⟩ := h
      · exact .inl ⟨he, fun hl => hn ((List.mem_cons.1 hl).resolve_left hs)⟩
      · exact .inr ⟨by simp [hl], hst, heap, he⟩

/-- A queue that holds nothing suspended gets longer by the coroutines that wake. -/
theorem ready_wakes (outcome : Outcome) (w : World) (l : List (Ref .coroutine))
    (hn : w.loop.ready.Nodup)
    (hq : ∀ r ∈ w.loop.ready, (w.coroutines.get r).stage ≠ .suspendedAwait) :
    let w' := l.foldl (wakeWithCopy outcome) w
    w'.loop.ready.Nodup ∧ ∀ r ∈ w'.loop.ready, r ∈ w.loop.ready ∨
      r ∈ l ∧ (w.coroutines.get r).stage = .suspendedAwait := by
  induction l generalizing w with
  | nil => exact ⟨hn, fun r hr => .inl hr⟩
  | cons r l ih =>
    by_cases hst : (w.coroutines.get r).stage = .suspendedAwait
    · have hready := ready_wakeWithCopy outcome hst
      -- whoever waits is not in the queue, so it is put there once
      have hr : r ∉ w.loop.ready := fun h => hq r h hst
      obtain ⟨hn', hq'⟩ := ih (wakeWithCopy outcome w r)
        (by rw [hready]; exact List.nodup_append.2 ⟨hn, by simp, by grind⟩)
        (by
          intro s hs h
          rw [hready] at hs
          obtain hs | hs := List.mem_append.1 hs
          · exact hq s hs (stage_of_wakeWithCopy outcome h)
          · rw [List.mem_singleton.1 hs, get_wakeWithCopy outcome hst] at h
            contradiction)
      refine ⟨hn', fun s hs => ?_⟩
      obtain hs | ⟨hl, h⟩ := hq' s hs
      · rw [hready] at hs
        obtain hs | hs := List.mem_append.1 hs
        · exact .inl hs
        · obtain rfl := List.mem_singleton.1 hs
          exact .inr ⟨by simp, hst⟩
      · exact .inr ⟨by simp [hl], stage_of_wakeWithCopy outcome h⟩
    · have hready := ready_wakeWithCopy_of_ne outcome hst
      obtain ⟨hn', hq'⟩ := ih (wakeWithCopy outcome w r) (by rw [hready]; exact hn)
        (by rw [hready]; exact fun s hs h => hq s hs (stage_of_wakeWithCopy outcome h))
      refine ⟨hn', fun s hs => ?_⟩
      obtain hs | ⟨hl, h⟩ := hq' s hs
      · exact .inl (hready ▸ hs)
      · exact .inr ⟨by simp [hl], stage_of_wakeWithCopy outcome h⟩

/-! ### Completion -/

theorem get_releaseLinks_of_ne (w : World) {r s : Ref .coroutine} (h : s ≠ r) :
    (w.releaseLinks r).coroutines.get s = w.coroutines.get s := by
  simp only [releaseLinks]
  split <;> exact get_modifyCoroutine_of_ne w r _ h

theorem get_releaseLinks (w : World) {r : Ref .coroutine} {c : Coroutine}
    (h : w.coroutines.get? r = some c) :
    (w.releaseLinks r).coroutines.get r =
      { c with waiters := [], awaiting := none, scope := none, frames := [], tape := Tape.reset } := by
  simp only [releaseLinks]
  split <;> exact get_modifyCoroutine w r _ h

theorem get_complete_of_ne (w : World) {r s : Ref .coroutine} (outcome : Outcome) (h : s ≠ r) :
    (w.complete r outcome).coroutines.get s = w.coroutines.get s := by
  simp only [complete]
  rw [get_releaseLinks_of_ne _ h]
  exact get_modifyCoroutine_of_ne _ r _ h

/-- The coroutine that is done keeps a copy of the outcome and no links. -/
theorem get_complete (w : World) {r : Ref .coroutine} (outcome : Outcome) {c : Coroutine}
    (h : w.coroutines.get? r = some c) (he : c.exception = none) :
    let c' := (w.complete r outcome).coroutines.get r
    c'.stage = .done ∧ c'.scope = none ∧ c'.awaiting = none ∧ c'.waiters = [] ∧
      c'.outcome = (Heap.duplicateOutcome outcome w.heap).1 := by
  have hg (f : Coroutine → Coroutine) :
      ((w.copyOutcome outcome).2.modifyCoroutine r f).coroutines.get? r = some (f c) := by
    simp only [modifyCoroutine, Arena.get?_modify, if_true]
    exact congrArg (Option.map f) h
  simp only [complete]
  rw [get_releaseLinks _ (hg _)]
  have copied : (w.copyOutcome outcome).1 = (Heap.duplicateOutcome outcome w.heap).1 := rfl
  rw [← copied]
  cases (w.copyOutcome outcome).1 with
  | ok v => simp [Coroutine.outcome, he]
  | error e => simp [Coroutine.outcome]

theorem get_settle_of_ne (w : World) {r s : Ref .coroutine} (outcome : Outcome) (h : s ≠ r) :
    let w' := w.settle r outcome
    (w'.coroutines.get s = w.coroutines.get s ∧ (s ∈ (w.coroutines.get r).waiters →
        (w.coroutines.get s).stage ≠ .suspendedAwait)) ∨
      (s ∈ (w.coroutines.get r).waiters ∧ (w.coroutines.get s).stage = .suspendedAwait ∧
        ∃ heap : Heap, w'.coroutines.get s =
          (w.coroutines.get s).woken (Heap.duplicateOutcome outcome heap).1) := by
  have hw := get_wakes outcome (w.complete r outcome) (w.coroutines.get r).waiters s
  rwa [get_complete_of_ne w outcome h] at hw

/-- The coroutine that is done does not wake itself. -/
theorem get_settle (w : World) {r : Ref .coroutine} (outcome : Outcome)
    (h : ((w.complete r outcome).coroutines.get r).stage ≠ .suspendedAwait) :
    (w.settle r outcome).coroutines.get r = (w.complete r outcome).coroutines.get r := by
  obtain ⟨he, -⟩ | ⟨-, hs, -⟩ :=
    get_wakes outcome (w.complete r outcome) (w.coroutines.get r).waiters r
  · exact he
  · contradiction

/-! ### Events -/

/-- What happens at once in a transition of the loop while `a` has the turn, if anyone has. -/
inductive Event (a : Option (Ref .coroutine)) : World → World → Prop
  /-- Something that no coroutine and no place in the queue takes part in. -/
  | aside {w w' : World} : w'.functions = w.functions → w.heap.Extends w'.heap →
      w'.coroutines = w.coroutines → w'.loop.ready = w.loop.ready → Event a w w'
  /-- A coroutine is done, and those that waited for it wake. -/
  | settle {w : World} (r : Ref .coroutine) (outcome : Outcome) : a ≠ some r →
      (w.coroutines.get r).isDone = false →
      ((w.coroutines.get r).isCancelled = true → ∃ e, outcome = .error e) →
      Event a w (w.settle r outcome)
  /-- A child of a gather task reports. -/
  | fill {w : World} (r : Ref .coroutine) (slot : Nat) (outcome : Outcome) :
      Event a w (w.fillSlot r slot outcome)
  /-- A new coroutine gets its place in the queue. -/
  | line {w : World} (r : Ref .coroutine) : (w.coroutines.get r).stage = .new →
      w.coroutines.get? r = some (w.coroutines.get r) →
      Event a w ((w.enroll r .runnable).enqueue r)
  /-- A new timer or gather task joins the loop. -/
  | join {w : World} (r : Ref .coroutine) (stage : Stage) : (w.coroutines.get r).stage = .new →
      stage = .suspendedTimer ∨ stage = .gatherWait → Event a w (w.enroll r stage)
  /-- A gather task waits for a child. -/
  | parent {w : World} (child r : Ref .coroutine) (slot : Nat) :
      Event a w (w.modifyCoroutine child fun c => { c with parents := c.parents ++ [(r, slot)] })
  /-- A coroutine is flagged as cancelled. -/
  | flag {w : World} (r : Ref .coroutine) : (w.coroutines.get r).isDone = false →
      Event a w (w.modifyCoroutine r fun c => { c with isCancelled := true })
  /-- A cancelled coroutine that waits wakes with the cancellation. -/
  | deliver {w : World} (r : Ref .coroutine) : (w.coroutines.get r).stage = .suspendedAwait →
      (w.coroutines.get r).isCancelled = true → Event a w (w.deliverCancellation r)
  /-- The first in the queue leaves it. -/
  | dequeue {w : World} {r : Ref .coroutine} {rest : List (Ref .coroutine)} :
      w.loop.ready = r :: rest → Event a w { w with loop := { w.loop with ready := rest } }
  /-- A loop is emptied. -/
  | clear {w : World} : Event a w w.openLoop

/-- Several events. -/
def Events (a : Option (Ref .coroutine)) : World → World → Prop :=
  Relation.ReflTransGen (Event a)

variable {a : Option (Ref .coroutine)}

theorem Event.evolves {w w' : World} (h : Event a w w') : Evolves w w' := by
  cases h with
  | aside hf hh hc => exact .of_same hf hh hc
  | settle r outcome _ hd => exact evolves_settle w r outcome hd
  | fill r slot outcome => exact evolves_fillSlot w r slot outcome
  | line r hn =>
    exact (evolves_enroll w r .runnable hn (by decide) (by decide) (by decide)).trans
      (evolves_enqueue _ r)
  | join r stage hn hs =>
    obtain rfl | rfl := hs
    · exact evolves_enroll w r _ hn (by decide) (by decide) (by decide)
    · exact evolves_enroll w r _ hn (by decide) (by decide) (by decide)
  | parent child r slot => exact .of_modify fun c _ => .single (.parent c r slot)
  | flag r hd =>
    refine .of_modify fun c hc => .single (.flag c ?_)
    rw [← get_of_get? hc]
    exact hd
  | deliver r hs => exact evolves_deliverCancellation_of_waits w r hs
  | dequeue | clear => exact .of_same rfl (.refl _) rfl

theorem Events.evolves {w w' : World} (h : Events a w w') : Evolves w w' := by
  induction h with
  | refl => exact .refl w
  | tail _ he ih => exact ih.trans he.evolves

/-- A coroutine with a body has joined a loop and is not done. -/
def Acts (w : World) (r : Ref .coroutine) : Prop :=
  ((w.coroutines.get r).stage = .runnable ∨ (w.coroutines.get r).stage = .running ∨
    (w.coroutines.get r).stage = .suspendedAwait) ∧
      ∃ f owner, (w.coroutines.get r).kind = .script f owner

/-- A coroutine in a turn is in it still if only its turn is suspended or goes on. -/
theorem Acts.modify {w : World} {r s : Ref .coroutine} {f : Coroutine → Coroutine} (h : w.Acts r)
    (hf : ∀ c, (f c).kind = c.kind ∧
      ((f c).stage = c.stage ∨ (f c).stage = .runnable ∨ (f c).stage = .suspendedAwait)) :
    (w.modifyCoroutine s f).Acts r := by
  by_cases hs : r = s
  · subst hs
    obtain ⟨hst, hk⟩ := h
    have hg : w.coroutines.get? r = some (w.coroutines.get r) :=
      get?_of_stage (by obtain hst | hst | hst := hst <;> simp [hst])
    obtain ⟨hk', hst'⟩ := hf (w.coroutines.get r)
    rw [Acts, get_modifyCoroutine w r f hg, hk']
    refine ⟨?_, hk⟩
    obtain hst' | hst' | hst' := hst'
    · rwa [hst']
    · exact .inl hst'
    · exact .inr (.inr hst')
  · rw [Acts, get_modifyCoroutine_of_ne w s f hs]
    exact h

/-- A turn that is suspended is a turn still, and so is everyone else's. -/
theorem Acts.suspendOn {w : World} {r : Ref .coroutine} (h : w.Acts r) (s target : Ref .coroutine) :
    (w.suspendOn s target).Acts r := by
  have suspended := h.modify (s := s)
    (f := fun c => { c with stage := .suspendedAwait, awaiting := some target })
    fun _ => ⟨rfl, .inr (.inr rfl)⟩
  exact suspended.modify fun _ => ⟨rfl, .inl rfl⟩

theorem Acts.of_same {w w' : World} {r : Ref .coroutine} (h : w.Acts r)
    (hc : w'.coroutines = w.coroutines) : w'.Acts r := by
  rwa [Acts, hc]

theorem Acts.has {w : World} {r : Ref .coroutine} (h : w.Acts r) : w.Has r :=
  get?_of_stage (by obtain hs | hs | hs := h.1 <;> simp [hs])

/-- The coroutine that has the turn, if anyone has, is not done. -/
def Active (a : Option (Ref .coroutine)) (w : World) : Prop := ∀ r, a = some r → w.Acts r

/-- The coroutine that has the turn, if anyone has, runs a body and is marked so. -/
def Running (a : Option (Ref .coroutine)) (w : World) : Prop :=
  ∀ r, a = some r → (w.coroutines.get r).stage = .running ∧
    ∃ f owner, (w.coroutines.get r).kind = .script f owner

theorem Running.active {w : World} (h : Running a w) : Active a w :=
  fun r hr => ⟨.inr (.inl (h r hr).1), (h r hr).2⟩

theorem running_none (w : World) : Running none w := fun _ h => by contradiction

theorem active_none (w : World) : Active none w := fun _ h => by contradiction

theorem get_enroll_of_ne (w : World) (r : Ref .coroutine) (stage : Stage) {s : Ref .coroutine}
    (h : s ≠ r) : (w.enroll r stage).coroutines.get s = w.coroutines.get s :=
  get_modifyCoroutine_of_ne w r _ h

/-- Of the waiters of a coroutine, `r` is taken out if it was the one waited for. -/
theorem get_forgo (w : World) (r : Ref .coroutine) (awaited : Option (Ref .coroutine))
    (s : Ref .coroutine) : ∃ waiters, waiters ⊆ (w.coroutines.get s).waiters ∧
      (awaited = some s → r ∉ waiters) ∧
      (w.forgo r awaited).coroutines.get s = { w.coroutines.get s with waiters } := by
  cases awaited with
  | none => exact ⟨_, List.Subset.refl _, by simp, rfl⟩
  | some t =>
    by_cases hs : s = t
    · subst hs
      cases hg : w.coroutines.get? s with
      | none =>
        refine ⟨[], by simp, by simp, ?_⟩
        simp [forgo, Arena.get, modifyCoroutine, Arena.get?_modify, hg, default]
      | some c =>
        refine ⟨c.waiters.filter (· != r), ?_, by simp, ?_⟩
        · rw [get_of_get? hg]
          exact List.filter_sublist.subset
        · rw [forgo, get_modifyCoroutine w s _ hg, get_of_get? hg]
    · refine ⟨_, List.Subset.refl _, fun h => absurd (Option.some.inj h).symm hs, ?_⟩
      rw [forgo, get_modifyCoroutine_of_ne w t _ hs]

/-- A cancellation that reaches a suspended coroutine wakes it.  Of the others at most the waiters
change: the one it waited for forgets it. -/
theorem get_deliverCancellation {w : World} {r : Ref .coroutine}
    (h : (w.coroutines.get r).stage = .suspendedAwait) (s : Ref .coroutine) :
    ∃ waiters, waiters ⊆ (w.coroutines.get s).waiters ∧
      ((w.coroutines.get r).awaiting = some s → r ∉ waiters) ∧
      (w.deliverCancellation r).coroutines.get s =
        if s = r then { (w.coroutines.get r).woken (.error (cancellation 0 0)) with
          cancelDelivered := true, waiters }
        else { w.coroutines.get s with waiters } := by
  let w₁ := w.modifyCoroutine r fun c => { c with cancelDelivered := true, awaiting := none }
  have hself : w₁.coroutines.get r =
      { w.coroutines.get r with cancelDelivered := true, awaiting := none } :=
    get_modifyCoroutine w r _ (get?_of_stage (by simp [h]))
  have hrun : w.deliverCancellation r =
      (w₁.forgo r (w.coroutines.get r).awaiting).wake r (.error (cancellation 0 0)) := by
    simp only [deliverCancellation, h]
    rfl
  obtain ⟨waiters, hsub, hout, hget⟩ := get_forgo w₁ r (w.coroutines.get r).awaiting s
  rw [hrun]
  by_cases hs : s = r
  · subst hs
    rw [hself] at hsub hget
    refine ⟨waiters, hsub, hout, ?_⟩
    rw [get_wake _ (by rw [hget]; exact h), hget, if_pos rfl]
    rfl
  · -- for the others, whoever was waited for loses this one waiter
    have hother : w₁.coroutines.get s = w.coroutines.get s := get_modifyCoroutine_of_ne w r _ hs
    rw [hother] at hsub hget
    refine ⟨waiters, hsub, hout, ?_⟩
    rw [get_wake_of_ne _ r _ hs, hget, if_neg hs]

theorem ready_deliverCancellation {w : World} {r : Ref .coroutine}
    (h : (w.coroutines.get r).stage = .suspendedAwait) :
    (w.deliverCancellation r).loop.ready = w.loop.ready ++ [r] := by
  let w₁ := w.modifyCoroutine r fun c => { c with cancelDelivered := true, awaiting := none }
  have hself : w₁.coroutines.get r =
      { w.coroutines.get r with cancelDelivered := true, awaiting := none } :=
    get_modifyCoroutine w r _ (get?_of_stage (by simp [h]))
  obtain ⟨waiters, -, -, hget⟩ := get_forgo w₁ r (w.coroutines.get r).awaiting r
  have hstage : ((w₁.forgo r (w.coroutines.get r).awaiting).coroutines.get r).stage =
      .suspendedAwait := by
    rw [hget, hself]
    exact h
  have hloop : (w₁.forgo r (w.coroutines.get r).awaiting).loop = w.loop := by
    unfold forgo
    split <;> rfl
  have hrun : w.deliverCancellation r =
      (w₁.forgo r (w.coroutines.get r).awaiting).wake r (.error (cancellation 0 0)) := by
    simp only [deliverCancellation, h]
    rfl
  rw [hrun, wake, if_pos hstage]
  show (w₁.forgo r (w.coroutines.get r).awaiting).loop.ready ++ [r] = _
  rw [hloop]

/-- Whoever has the turn does not end by an event. -/
theorem Event.active {w w' : World} (h : Event a w w') (ha : Active a w) : Active a w' := by
  intro r hr
  obtain ⟨hstage, f, owner, hk⟩ := ha r hr
  have joined : (w.coroutines.get r).stage ≠ .new := by
    obtain hs | hs | hs := hstage <;> simp [hs]
  -- it stays in its stage, or what it waits for has come
  have changed : (w'.coroutines.get r).stage = (w.coroutines.get r).stage ∨
      (w'.coroutines.get r).stage = .runnable := by
    have keeps (s : Ref .coroutine) (g : Coroutine → Coroutine) (hg : ∀ c, (g c).stage = c.stage) :=
      field_modifyCoroutine w s g Coroutine.stage hg r
    have other {s : Ref .coroutine} (hs : (w.coroutines.get s).stage = .new) : r ≠ s := by
      rintro rfl
      exact joined hs
    cases h with
    | aside _ _ hc => exact .inl (by rw [hc])
    | settle s outcome hs _ =>
      have hne : r ≠ s := by
        rintro rfl
        exact hs hr
      obtain ⟨he, -⟩ | ⟨-, -, heap, he⟩ := get_settle_of_ne w outcome hne
      · exact .inl (by rw [he])
      · exact .inr (by rw [he]; rfl)
    | fill s slot outcome =>
      refine .inl (keeps s _ fun c => ?_)
      split
      · split <;> rfl
      · rfl
    | line s hs => exact .inl (congrArg stage (get_enroll_of_ne w s .runnable (other hs)))
    | join s stage hs => exact .inl (by rw [get_enroll_of_ne w s _ (other hs)])
    | parent child s slot => exact .inl (keeps child _ fun _ => rfl)
    | flag s => exact .inl (keeps s _ fun _ => rfl)
    | deliver s hs =>
      obtain ⟨waiters, -, -, hd⟩ := get_deliverCancellation hs r
      rw [hd]
      split
      · exact .inr rfl
      · exact .inl rfl
    | dequeue | clear => exact .inl rfl
  refine ⟨changed.elim (fun he => he ▸ hstage) .inl, f, owner, ?_⟩
  obtain ⟨c', hc', hcc'⟩ := h.evolves.changes (get?_of_stage joined)
  rw [get_of_get? hc']
  exact hcc'.script hk

theorem Events.active {w w' : World} (h : Events a w w') (ha : Active a w) : Active a w' := by
  induction h with
  | refl => exact ha
  | tail _ he ih => exact he.active ih

/-- A coroutine in a turn is in it through any events that leave the one in the turn alone. -/
theorem Acts.events {w w' : World} {r : Ref .coroutine} (h : w.Acts r)
    (he : Active (some r) w → Events (some r) w w') : w'.Acts r := by
  have active : Active (some r) w := fun _ hr => Option.some.inj hr ▸ h
  exact (he active).active active r rfl

/-- The stage of the coroutine that has the turn does not change. -/
theorem Event.running {w w' : World} (h : Event a w w') (ha : Running a w) :
    Running a w' := by
  intro r hr
  obtain ⟨hstage, f, owner, hk⟩ := ha r hr
  have hget := get?_of_stage (w := w) (r := r) (by simp [hstage])
  refine ⟨?_, f, owner, ?_⟩
  · -- what is changed of a coroutine here is not its stage
    have keeps (s : Ref .coroutine) (g : Coroutine → Coroutine) (hg : ∀ c, (g c).stage = c.stage) :
        ((w.modifyCoroutine s g).coroutines.get r).stage = .running := by
      rw [field_modifyCoroutine w s g Coroutine.stage hg, hstage]
    have other {s : Ref .coroutine} (hs : (w.coroutines.get s).stage ≠ .running) : r ≠ s := by
      rintro rfl
      exact hs hstage
    cases h with
    | aside _ _ hc => rw [hc, hstage]
    | settle s outcome hs _ =>
      have hne : r ≠ s := by
        rintro rfl
        exact hs hr
      obtain ⟨he, -⟩ | ⟨-, hn, -⟩ := get_settle_of_ne w outcome hne
      · rw [he, hstage]
      · rw [hstage] at hn
        contradiction
    | fill s slot outcome =>
      refine keeps s _ fun c => ?_
      split
      · split <;> rfl
      · rfl
    | line s hs =>
      have hne : r ≠ s := other (by simp [hs])
      show ((w.enroll s .runnable).coroutines.get r).stage = _
      rw [get_enroll_of_ne w s _ hne, hstage]
    | join s stage hs =>
      rw [get_enroll_of_ne w s _ (other (by simp [hs])), hstage]
    | parent child s slot => exact keeps child _ fun _ => rfl
    | flag s => exact keeps s _ fun _ => rfl
    | deliver s hs =>
      obtain ⟨waiters, -, -, hd⟩ := get_deliverCancellation hs r
      rw [hd, if_neg (other (by simp [hs]))]
      exact hstage
    | dequeue | clear => exact hstage
  · obtain ⟨c', hc', hcc'⟩ := h.evolves.changes hget
    rw [get_of_get? hc']
    exact hcc'.script hk

theorem Events.running {w w' : World} (h : Events a w w') (ha : Running a w) :
    Running a w' := by
  induction h with
  | refl => exact ha
  | tail _ he ih => exact he.running ih

/-! ### Transitions are events -/

theorem Events.trans {u v w : World} (h : Events a u v) (h' : Events a v w) :
    Events a u w := Relation.ReflTransGen.trans h h'

/-- A loop of transitions, each of which is made of events while the coroutine that has the turn is
active. -/
theorem Events.foldl {α : Type} {f : World → α → World}
    (h : ∀ w x, Active a w → Events a w (f w x)) (w : World) (l : List α)
    (hw : Active a w) : Events a w (l.foldl f w) := by
  induction l generalizing w with
  | nil => exact .refl
  | cons x l ih => exact (h w x hw).trans (ih (f w x) ((h w x hw).active hw))

theorem events_onHeap (w : World) {α : Type} {f : StateM Heap α}
    (hf : ∀ heap : Heap, heap.Extends (f heap).2) : Events a w (w.onHeap f).2 :=
  .single (.aside rfl (hf w.heap) rfl rfl)

theorem events_sleepers (w : World) (sleepers : List (Nat × Ref .coroutine)) :
    Events a w { w with loop := { w.loop with sleepers } } :=
  .single (.aside rfl (.refl _) rfl rfl)

theorem events_report (outcome : Outcome) (w : World) (r : Ref .coroutine) (slot : Nat) :
    Events a w (report outcome w r slot) :=
  .tail (events_onHeap w (Heap.extends_duplicateOutcome outcome)) (.fill r slot _)

theorem Active.ne_of_kind {w : World} (h : Active a w) {r : Ref .coroutine}
    (hk : ∀ f owner, (w.coroutines.get r).kind ≠ .script f owner) : a ≠ some r := by
  intro hr
  obtain ⟨-, f, owner, hs⟩ := h r hr
  exact hk f owner hs

theorem Active.ne_of_stage {w : World} (h : Active a w) {r : Ref .coroutine}
    (hs : (w.coroutines.get r).stage = .suspendedTimer) : a ≠ some r := by
  intro hr
  obtain hn | hn | hn := (h r hr).1 <;> simp [hs] at hn

theorem kind_of_completeGather? {w : World} {r : Ref .coroutine} {g : GatherState}
    (h : w.completeGather? r = some g) (f : Ref .function) (owner : Option (Ref .blueprint)) :
    (w.coroutines.get r).kind ≠ .script f owner := by
  intro hk
  simp [completeGather?, hk] at h

/-- A cancelled coroutine does not end with a value. -/
theorem finalOutcome_of_cancelled {c : Coroutine} (h : c.isCancelled = true) (outcome : Outcome) :
    ∃ e, finalOutcome c outcome = .error e := by
  cases outcome with
  | ok v => exact ⟨_, if_pos h⟩
  | error e => exact ⟨e, rfl⟩

theorem events_finishWithin (depth : Nat) (w : World) (r : Ref .coroutine) (outcome : Outcome)
    (hw : Active a w) (hr : a ≠ some r) :
    Events a w (finishWithin depth w r outcome) := by
  induction depth generalizing w r outcome with
  | zero => exact .refl
  | succ depth ih =>
    simp only [finishWithin]
    split
    · exact .refl
    · rename_i hd
      have settled : Event a w (w.settle r (finalOutcome (w.coroutines.get r) outcome)) :=
        .settle r _ hr (Bool.eq_false_iff.2 hd) fun hc => finalOutcome_of_cancelled hc outcome
      refine .trans (.single settled) (.foldl (fun v x hv => ?_) _ _ (settled.active hw))
      -- a gather task that is complete now ends in turn
      have reported : Events a v (v.report (finalOutcome (w.coroutines.get r) outcome) x.1 x.2) :=
        events_report _ v x.1 x.2
      split
      · rename_i g hg
        have hv' := reported.active hv
        have total := reported.trans (events_onHeap _ g.extends_outcome)
        exact total.trans (ih _ _ _ (total.active hv) (hv'.ne_of_kind (kind_of_completeGather? hg)))
      · exact reported

theorem events_finish (w : World) (r : Ref .coroutine) (outcome : Outcome) (hw : Active a w)
    (hr : a ≠ some r) : Events a w (w.finish r outcome) :=
  events_finishWithin _ w r outcome hw hr

theorem events_finishIfComplete (w : World) (r : Ref .coroutine) (hw : Active a w) :
    Events a w (w.finishIfComplete r) := by
  unfold finishIfComplete
  split
  · rename_i g hg
    have total : Events a w (w.onHeap g.outcome).2 := events_onHeap w g.extends_outcome
    exact total.trans
      (events_finish _ _ _ (total.active hw) (hw.ne_of_kind (kind_of_completeGather? hg)))
  · exact .refl

theorem events_enlist {start : World → Ref .coroutine → World}
    (h : ∀ w child, Active a w → Events a w (start w child)) (r : Ref .coroutine) (w : World)
    (child : Ref .coroutine) (slot : Nat) (hw : Active a w) :
    Events a w (enlist start r w child slot) := by
  simp only [enlist]
  split
  · exact events_report _ w r slot
  · have linked : Event a w _ := .parent child r slot
    exact .trans (.single linked) (h _ child (linked.active hw))

theorem events_startWithin (depth : Nat) (w : World) (r : Ref .coroutine) (hw : Active a w) :
    Events a w (startWithin depth w r) := by
  induction depth generalizing w r with
  | zero => exact .refl
  | succ depth ih =>
    simp only [startWithin]
    split
    · exact .refl
    · rename_i hn
      have hn : (w.coroutines.get r).stage = .new := Classical.not_not.1 hn
      split
      · rename_i hk
        refine .single (.line r hn (get?_of_get_ne fun he => ?_))
        rw [he] at hk
        contradiction
      · exact .tail (.single (.join r .suspendedTimer hn (.inl rfl)))
          (.aside rfl (.refl _) rfl rfl)
      · have joined : Event a w (w.enroll r .gatherWait) := .join r _ hn (.inr rfl)
        have enlisted (l : List (Ref .coroutine × Nat)) : Events a w (l.foldl (fun w x =>
            enlist (startWithin depth) r w x.1 x.2) (w.enroll r .gatherWait)) :=
          .trans (.single joined)
            (.foldl (fun v x hv => events_enlist ih r v x.1 x.2 hv) _ _ (joined.active hw))
        exact (enlisted _).trans (events_finishIfComplete _ r ((enlisted _).active hw))

theorem events_start (w : World) (r : Ref .coroutine) (hw : Active a w) :
    Events a w (w.start r) := events_startWithin _ w r hw

/-- A coroutine that is started is not new any more. -/
theorem stage_start_ne_new (w : World) {r : Ref .coroutine} (h : w.Has r) :
    ((w.start r).coroutines.get r).stage ≠ .new := by
  have enrolled (stage : Stage) (hs : stage ≠ .new) :
      ((w.enroll r stage).coroutines.get r).stage ≠ .new := by
    have he : (w.enroll r stage).coroutines.get r = { w.coroutines.get r with stage } :=
      get_modifyCoroutine w r _ h
    rw [he]
    exact hs
  simp only [start, startWithin]
  split
  · assumption
  · split
    · exact enrolled .runnable (by simp)
    · exact enrolled .suspendedTimer (by simp)
    · -- whatever becomes of its children, the gather task has joined before them
      refine Evolves.not_new (w := w.enroll r .gatherWait) ?_ (enrolled .gatherWait (by simp))
      have he (l : List (Ref .coroutine × Nat)) :=
        Events.foldl (a := none) (fun v x hv => events_enlist
          (fun v' c hv' => events_startWithin w.coroutines.size v' c hv') r v x.1 x.2 hv)
          (w.enroll r .gatherWait) l (active_none _)
      exact ((he _).trans (events_finishIfComplete _ r (active_none _))).evolves

theorem events_pollSleepers (w : World) : Events none w w.pollSleepers := by
  simp only [pollSleepers]
  refine (events_sleepers w _).trans (.foldl (fun v x hv => ?_) _ _ (active_none _))
  exact events_finish v x.2 (.ok .null) hv (by simp)

/-! ### Cancelling -/

/-- All coroutines on the list are flagged as cancelled. -/
def Flagged (p : List (Ref .coroutine) × World) : Prop :=
  ∀ r ∈ p.1, ∀ c, p.2.coroutines.get? r = some c → c.isCancelled = true

theorem Flagged.events {l : List (Ref .coroutine)} {w w' : World} (h : Flagged (l, w))
    (he : Events a w w') : Flagged (l, w') := by
  intro r hr c' hc'
  obtain ⟨c, hc, hcc'⟩ := he.evolves.before hc'
  exact hcc'.isCancelled (h r hr c hc)

/-- What was on the list and what is newly flagged. -/
theorem Flagged.append {p q : List (Ref .coroutine) × World} (hp : Flagged p)
    (he : Events a p.2 q.2) (hq : Flagged q) : Flagged (p.1 ++ q.1, q.2) := by
  intro r hr
  obtain hr | hr := List.mem_append.1 hr
  · exact hp.events he r hr
  · exact hq r hr

theorem events_flagWithin (depth : Nat) (w : World) (r : Ref .coroutine) :
    Events a w (flagWithin depth w r).2 ∧ Flagged (flagWithin depth w r) := by
  induction depth generalizing w r with
  | zero => exact ⟨.refl, by simp [flagWithin, Flagged]⟩
  | succ depth ih =>
    simp only [flagWithin]
    split
    · exact ⟨.refl, by simp [Flagged]⟩
    · rename_i hd
      -- the children add to the list and are flagged themselves
      have children (l : List (Ref .coroutine)) (p : List (Ref .coroutine) × World)
          (hp : Flagged p) :
          let q := l.foldl (fun p child =>
            (p.1 ++ (flagWithin depth p.2 child).1, (flagWithin depth p.2 child).2)) p
          Events a p.2 q.2 ∧ Flagged q := by
        induction l generalizing p with
        | nil => exact ⟨.refl, hp⟩
        | cons x l ihl =>
          obtain ⟨he, hf⟩ := ih p.2 x
          obtain ⟨he', hf'⟩ := ihl _ (hp.append he hf)
          exact ⟨he.trans he', hf'⟩
      have flagged : Flagged ([r], w.modifyCoroutine r fun c => { c with isCancelled := true }) := by
        intro s hs c hc
        obtain rfl : s = r := by simpa using hs
        simp only [modifyCoroutine, Arena.get?_modify, if_true] at hc
        obtain ⟨c₀, -, rfl⟩ := Option.map_eq_some_iff.1 hc
        rfl
      obtain ⟨he, hf⟩ := children (w.coroutines.get r).children _ flagged
      exact ⟨.trans (.single (.flag r (by simp_all))) he, hf⟩

theorem events_flagCancelled (w : World) (r : Ref .coroutine) :
    Events a w (w.flagCancelled r).2 := (events_flagWithin _ w r).1

theorem events_deliverCancellation (w : World) (r : Ref .coroutine) (hw : Active a w)
    (h : ∀ c, w.coroutines.get? r = some c → c.isCancelled = true) :
    Events a w (w.deliverCancellation r) := by
  cases hs : (w.coroutines.get r).stage with
  | suspendedAwait =>
    refine .single (.deliver r hs (h _ (get?_of_stage ?_)))
    simp [hs]
  | suspendedTimer =>
    simp only [deliverCancellation, hs]
    have awake : Events a w { w with
        loop := { w.loop with sleepers := w.loop.sleepers.filter (·.2 != r) } } :=
      events_sleepers w _
    exact awake.trans (events_finish _ r _ (awake.active hw) (hw.ne_of_stage hs))
  | _ =>
    simp only [deliverCancellation, hs]
    exact .refl

theorem events_cancel (w : World) (r : Ref .coroutine) (hw : Active a w) :
    Events a w (w.cancel r).2 := by
  have deliver (l : List (Ref .coroutine)) (w : World) (hw : Active a w) (h : Flagged (l, w)) :
      Events a w (l.foldl deliverCancellation w) := by
    induction l generalizing w with
    | nil => exact .refl
    | cons x l ih =>
      have he := events_deliverCancellation w x hw (h x (by simp))
      refine he.trans (ih _ (he.active hw) (Flagged.events (fun s hs => ?_) he))
      exact h s (List.mem_cons_of_mem x hs)
  obtain ⟨he, hf⟩ := events_flagWithin (a := a) (w.coroutines.size + 1) w r
  exact he.trans (deliver _ _ (he.active hw) hf)

theorem events_openLoop (w : World) : Events a w w.openLoop := .single .clear

end World

end Rewind
