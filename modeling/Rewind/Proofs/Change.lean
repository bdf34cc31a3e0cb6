/-
What the event loop does to one coroutine.

Each transition of the loop is made of single updates of coroutine records, and there are few kinds
of update.  They are listed here once; whatever a transition may be, every coroutine goes through a
sequence of them and nothing else about it changes.

* `Coroutine.Change`, `Coroutine.Changes` — one update of a record, and several;
* `World.Evolves` — between two worlds every coroutine goes through changes, and none is lost;
* `evolves_wake`, `evolves_complete`, `evolves_settle`, … — what the transitions are made of evolves.
-/
import Rewind.Scheduler
import Rewind.Proofs.Copying
import Mathlib.Logic.Relation

namespace Rewind

namespace GatherState

theorem outcome_of_ok {g : GatherState} {values : List Value}
    (h : collect g.returnExceptions g.slots = .ok values) (heap : Heap) :
    g.outcome heap = (.ok (Heap.newArray values.toArray heap).1,
      (Heap.newArray values.toArray heap).2) := by
  unfold outcome
  rw [h]
  rfl

theorem outcome_of_error {g : GatherState} {e : Raised}
    (h : collect g.returnExceptions g.slots = .error e) (heap : Heap) :
    g.outcome heap = (.error e, heap) := by
  unfold outcome
  rw [h]
  rfl

/-- To come to an outcome a gather task only adds a container. -/
theorem extends_outcome (g : GatherState) (heap : Heap) : heap.Extends (g.outcome heap).2 := by
  cases h : collect g.returnExceptions g.slots with
  | ok values =>
    rw [outcome_of_ok h]
    exact Heap.extends_newArray _ heap
  | error e =>
    rw [outcome_of_error h]
    exact .refl heap

end GatherState

namespace Coroutine

/-- One update of a coroutine by a transition of the loop. -/
inductive Change : Coroutine → Coroutine → Prop
  /-- All links are dropped. -/
  | release (c : Coroutine) :
      Change c
        { c with waiters := [], awaiting := none, scope := none, frames := [], tape := Tape.reset }
  /-- The outcome waited for comes in. -/
  | wake (c : Coroutine) (outcome : Outcome) : c.stage = .suspendedAwait →
      Change c
        { c with tape := c.tape.inject outcome, awaiting := none, stage := .runnable }
  /-- A child of a gather task reports. -/
  | fill (c : Coroutine) (g : GatherState) (slot : Nat) (outcome : Outcome) :
      c.kind = .gather g → c.isDone = false →
      Change c { c with kind := .gather (g.fill slot outcome) }
  /-- It ends with a value. -/
  | result (c : Coroutine) (v : Value) : c.isDone = false →
      Change c { c with stage := .done, result := v, parents := [] }
  /-- It ends with an exception. -/
  | exception (c : Coroutine) (e : Raised) : c.isDone = false →
      Change c { c with stage := .done, exception := some e, parents := [] }
  /-- It joins the loop. -/
  | start (c : Coroutine) (stage : Stage) : c.stage = .new → stage ≠ .new → stage ≠ .done →
      stage ≠ .suspendedAwait → Change c { c with stage }
  /-- A gather task waits for it. -/
  | parent (c : Coroutine) (r : Ref .coroutine) (slot : Nat) :
      Change c { c with parents := c.parents ++ [(r, slot)] }
  /-- It is flagged as cancelled. -/
  | flag (c : Coroutine) : c.isDone = false → Change c { c with isCancelled := true }
  /-- Its cancellation is about to reach it while it waits. -/
  | deliver (c : Coroutine) : c.stage = .suspendedAwait →
      Change c { c with cancelDelivered := true, awaiting := none }
  /-- One that waited for it does so no more. -/
  | forgo (c : Coroutine) (r : Ref .coroutine) :
      Change c { c with waiters := c.waiters.filter (· != r) }

/-- Several updates. -/
def Changes : Coroutine → Coroutine → Prop := Relation.ReflTransGen Change

theorem Changes.isCancelled {c c' : Coroutine} (h : Changes c c') (hc : c.isCancelled = true) :
    c'.isCancelled = true := by
  induction h with
  | refl => exact hc
  | tail _ hcc ih =>
    cases hcc with
    | flag => rfl
    | _ => exact ih

/-- A coroutine that is done stays so, with the outcome it has. -/
theorem Changes.done {c c' : Coroutine} (h : Changes c c') (hd : c.isDone = true) :
    c'.isDone = true ∧ c'.outcome = c.outcome := by
  induction h with
  | refl => exact ⟨hd, rfl⟩
  | tail _ hc ih =>
    obtain ⟨hd', ho⟩ := ih
    cases hc with
    | result _ hn | exception _ hn => simp [hn] at hd'
    | wake _ hs | deliver hs => simp [isDone, hs] at hd'
    | start _ hs => simp [isDone, hs] at hd'
    | _ => exact ⟨hd', ho⟩

theorem Changes.not_new {c c' : Coroutine} (h : Changes c c') (hc : c.stage ≠ .new) :
    c'.stage ≠ .new := by
  induction h with
  | refl => exact hc
  | tail _ hcc ih =>
    cases hcc with
    | result | exception | wake => simp
    | start _ _ hn => exact hn
    | _ => exact ih

end Coroutine

open Coroutine

namespace World

/-- The second world comes out of the first by changes to its coroutines; no function is added, and
no container is changed. -/
structure Evolves (w w' : World) : Prop where
  functions : w'.functions = w.functions
  heap : w.heap.Extends w'.heap
  size : w'.coroutines.size = w.coroutines.size
  changes : ∀ {r : Ref .coroutine} {c : Coroutine}, w.coroutines.get? r = some c →
    ∃ c', w'.coroutines.get? r = some c' ∧ Changes c c'

namespace Evolves

theorem of_same {w w' : World} (hf : w'.functions = w.functions)
    (hh : w.heap.Extends w'.heap) (hc : w'.coroutines = w.coroutines) : Evolves w w' :=
  ⟨hf, hh, by rw [hc], fun {_ c} h => ⟨c, by rw [hc, h], .refl⟩⟩

theorem refl (w : World) : Evolves w w := of_same rfl (.refl _) rfl

theorem of_loop (w : World) (loop : EventLoop) : Evolves w { w with loop } :=
  of_same rfl (.refl _) rfl

theorem trans {u v w : World} (h : Evolves u v) (h' : Evolves v w) : Evolves u w := by
  refine ⟨h'.functions.trans h.functions, h.heap.trans h'.heap, h'.size.trans h.size,
    fun {r c} hc => ?_⟩
  obtain ⟨c', hc', hcc'⟩ := h.changes hc
  obtain ⟨c'', hc'', hcc''⟩ := h'.changes hc'
  exact ⟨c'', hc'', Relation.ReflTransGen.trans hcc' hcc''⟩

theorem of_modify {w : World} {r : Ref .coroutine} {f : Coroutine → Coroutine}
    (h : ∀ c, w.coroutines.get? r = some c → Changes c (f c)) :
    Evolves w (w.modifyCoroutine r f) := by
  refine ⟨rfl, .refl _, Arena.size_modify _ _ _, fun {s c} hc => ?_⟩
  by_cases hs : s = r
  · subst hs
    exact ⟨f c, by simp [modifyCoroutine, Arena.get?_modify, hc], h c hc⟩
  · exact ⟨c, by simp [modifyCoroutine, Arena.get?_modify, hs, hc], .refl⟩

/-- No coroutine is added. -/
theorem before {w w' : World} (h : Evolves w w') {r : Ref .coroutine} {c' : Coroutine}
    (hc' : w'.coroutines.get? r = some c') :
    ∃ c, w.coroutines.get? r = some c ∧ Changes c c' := by
  have hlt : r.index < w'.coroutines.size := (Array.getElem?_eq_some_iff.1 hc').1
  rw [h.size] at hlt
  have hc : w.coroutines.get? r = some w.coroutines.cells[r.index] := Array.getElem?_eq_getElem hlt
  obtain ⟨c'', hc'', hcc⟩ := h.changes hc
  obtain rfl : c'' = c' := Option.some.inj (hc''.symm.trans hc')
  exact ⟨_, hc, hcc⟩

theorem get?_none {w w' : World} (h : Evolves w w') {r : Ref .coroutine}
    (hr : w.coroutines.get? r = none) : w'.coroutines.get? r = none := by
  refine Option.eq_none_iff_forall_ne_some.2 fun c' hc' => ?_
  obtain ⟨c, hc, -⟩ := h.before hc'
  rw [hr] at hc
  contradiction

theorem foldl {α : Type} {f : World → α → World} (h : ∀ w a, Evolves w (f w a)) (w : World)
    (l : List α) : Evolves w (l.foldl f w) := by
  induction l generalizing w with
  | nil => exact refl w
  | cons a l ih => exact (h w a).trans (ih (f w a))

end Evolves

theorem get_of_get? {w : World} {r : Ref .coroutine} {c : Coroutine}
    (h : w.coroutines.get? r = some c) : w.coroutines.get r = c := by
  simp [Arena.get, h]

/-! ### Completion -/

theorem evolves_enqueue (w : World) (r : Ref .coroutine) : Evolves w (w.enqueue r) :=
  .of_same rfl (.refl _) rfl

/-- A computation that only adds containers. -/
theorem evolves_onHeap (w : World) {α : Type} {f : StateM Heap α}
    (hf : ∀ heap : Heap, heap.Extends (f heap).2) : Evolves w (w.onHeap f).2 :=
  .of_same rfl (hf w.heap) rfl

theorem evolves_copyOutcome (w : World) (outcome : Outcome) :
    Evolves w (w.copyOutcome outcome).2 :=
  evolves_onHeap w (Heap.extends_duplicateOutcome outcome)

theorem evolves_releaseLinks (w : World) (r : Ref .coroutine) : Evolves w (w.releaseLinks r) := by
  have h : Evolves w (w.modifyCoroutine r fun c =>
      { c with waiters := [], awaiting := none, scope := none, frames := [], tape := Tape.reset }) :=
    .of_modify fun c _ => .single (.release c)
  simp only [releaseLinks]
  split
  · exact h.trans (.of_same rfl (.refl _) rfl)
  · exact h

theorem evolves_wake (w : World) (r : Ref .coroutine) (outcome : Outcome) :
    Evolves w (w.wake r outcome) := by
  unfold wake
  split
  · rename_i hs
    refine Evolves.trans (.of_modify fun c hc => .single (.wake c outcome ?_)) (evolves_enqueue _ r)
    rw [← get_of_get? hc, hs]
  · exact .refl w

theorem evolves_fillSlot (w : World) (r : Ref .coroutine) (slot : Nat) (outcome : Outcome) :
    Evolves w (w.fillSlot r slot outcome) := by
  refine .of_modify fun c _ => ?_
  split
  · rename_i g hg
    split
    · exact .refl
    · rename_i hd
      exact .single (.fill c g slot outcome hg (by simpa using hd))
  · exact .refl

theorem evolves_complete (w : World) (r : Ref .coroutine) (outcome : Outcome)
    (h : (w.coroutines.get r).isDone = false) : Evolves w (w.complete r outcome) := by
  refine (evolves_copyOutcome w outcome).trans
    (Evolves.trans (.of_modify fun c hc => ?_) (evolves_releaseLinks _ r))
  have hd : c.isDone = false := by rw [← get_of_get? hc]; exact h
  split
  · exact .single (.result c _ hd)
  · exact .single (.exception c _ hd)

theorem evolves_wakeWithCopy (outcome : Outcome) (w : World) (r : Ref .coroutine) :
    Evolves w (wakeWithCopy outcome w r) :=
  (evolves_copyOutcome w outcome).trans (evolves_wake _ r _)

theorem evolves_settle (w : World) (r : Ref .coroutine) (outcome : Outcome)
    (h : (w.coroutines.get r).isDone = false) : Evolves w (w.settle r outcome) :=
  (evolves_complete w r outcome h).trans (Evolves.foldl (evolves_wakeWithCopy _) _ _)

/-! ### Starting and cancelling -/

theorem evolves_deliverCancellation_of_waits (w : World) (r : Ref .coroutine)
    (hs : (w.coroutines.get r).stage = .suspendedAwait) : Evolves w (w.deliverCancellation r) := by
  simp only [deliverCancellation, hs]
  have hd : Evolves w (w.modifyCoroutine r fun c =>
      { c with cancelDelivered := true, awaiting := none }) := by
    refine .of_modify fun c hc => .single (.deliver c ?_)
    rw [← get_of_get? hc, hs]
  refine Evolves.trans ?_ (evolves_wake _ r _)
  unfold forgo
  split
  · exact hd.trans (.of_modify fun c _ => .single (.forgo c r))
  · exact hd

theorem evolves_enroll (w : World) (r : Ref .coroutine) (stage : Stage)
    (h : (w.coroutines.get r).stage = .new) (hn : stage ≠ .new) (hd : stage ≠ .done)
    (hs : stage ≠ .suspendedAwait) : Evolves w (w.enroll r stage) := by
  refine Evolves.trans (.of_modify fun c hc => .single (.start c stage ?_ hn hd hs))
    (.of_same rfl (.refl _) rfl)
  rw [← get_of_get? hc, h]

theorem evolves_teardown (w : World) : Evolves w w.teardown :=
  (Evolves.foldl evolves_releaseLinks w w.loop.started).trans (.of_loop _ _)

end World

end Rewind
