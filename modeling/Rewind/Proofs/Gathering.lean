/-
What a gather task comes to.

Whatever its children are, and in whatever order they end, a gather task is done as soon as all of
them are and not before, and what it comes to follows from what each of them has come to, in the order
in which they were given.  What its slots and its outcome hold is out of sight of all programs, so that
it is still so whatever is done to the copies that are handed out.

* `exists_collect_ok`, `exists_collect_error` — what the slots add up to;
* `GatherState.Reports` — what a gather task comes to, seen from its children;
* `gather_outcome` — in all runs gather tasks stand so, and come to that.
-/
import Rewind.Proofs.Separation
import Rewind.Proofs.Tally

namespace Rewind

open Coroutine World

/-! ### What the slots add up to -/

section Collect

variable {heap : Heap}

/-- The outcome is reported: a copy of it is in the slot. -/
def Reported (heap : Heap) (outcome : Outcome) (slot : Option Outcome) : Prop :=
  ∃ o, slot = some o ∧ heap.MirrorsOutcome outcome o

theorem mirrors_carried {o o' : Outcome} (h : heap.MirrorsOutcome o o') :
    heap.Mirrors o.carried o'.carried := by
  cases o <;> cases o'
  · exact h.2.2
  · exact h.elim
  · exact h.elim
  · exact h

/-- If exceptions are returned, or there are none, the slots add up to what they carry. -/
theorem exists_collect_ok {flag : Bool} {outcomes : List Outcome} {slots : List (Option Outcome)}
    (h : List.Forall₂ (Reported heap) outcomes slots)
    (hok : flag = true ∨ ∀ o ∈ outcomes, ∃ v, o = .ok v) :
    ∃ values, GatherState.collect flag slots = .ok values ∧
      List.Forall₂ heap.Mirrors (outcomes.map Outcome.carried) values := by
  induction h with
  | nil => exact ⟨[], rfl, .nil⟩
  | @cons o slot outcomes slots hs _ ih =>
    obtain ⟨values, hc, hv⟩ := ih (hok.imp_right fun ho o hm => ho o (List.mem_cons_of_mem _ hm))
    obtain ⟨o', rfl, hm⟩ := hs
    refine ⟨o'.carried :: values, ?_, .cons (mirrors_carried hm) hv⟩
    cases o' with
    | ok v =>
      simp only [GatherState.collect, hc]
      rfl
    | error e =>
      -- an exception among the outcomes is only kept as a value if it was asked for
      have hflag : flag = true := by
        refine hok.resolve_right fun ho => ?_
        obtain ⟨v, rfl⟩ := ho o List.mem_cons_self
        exact hm
      subst hflag
      simp only [GatherState.collect, hc, if_true]
      rfl

/-- If exceptions are not returned, the slots end with the first one. -/
theorem exists_collect_error {outcomes : List Outcome} {slots : List (Option Outcome)} {i : Nat}
    {e : Raised} (h : List.Forall₂ (Reported heap) outcomes slots)
    (hi : outcomes[i]? = some (.error e)) (hok : ∀ j < i, ∃ v, outcomes[j]? = some (.ok v)) :
    ∃ e', GatherState.collect false slots = .error e' ∧ heap.MirrorsRaised e e' := by
  induction h generalizing i with
  | nil => contradiction
  | @cons o slot outcomes slots hs _ ih =>
    obtain ⟨o', rfl, hm⟩ := hs
    cases i with
    | zero =>
      obtain rfl : o = .error e := Option.some.inj hi
      -- everything before the exception was a value, which the search passes over
      cases o' with
      | ok v => exact hm.elim
      | error e' => exact ⟨e', rfl, hm⟩
    | succ i =>
      obtain ⟨v, hv⟩ := hok 0 (Nat.succ_pos i)
      obtain rfl : o = .ok v := Option.some.inj hv
      obtain ⟨e', hc, he⟩ := ih hi fun j hj => hok (j + 1) (Nat.succ_lt_succ hj)
      refine ⟨e', ?_, he⟩
      cases o' with
      | ok v' =>
        simp only [GatherState.collect, hc]
        rfl
      | error e' => exact hm.elim

theorem mirrors_items {values values' items : List Value}
    (h : List.Forall₂ heap.Mirrors values values')
    (hm : List.Forall₂ heap.Mirrors values' items) : List.Forall₂ heap.Mirrors values items := by
  induction h generalizing items with
  | nil =>
    cases hm
    exact .nil
  | cons hv _ ih =>
    cases hm with
    | cons hx hl => exact .cons (hv.trans hx) (ih hl)

end Collect

/-! ### Gather tasks -/

namespace World

variable {w : World} {r : Ref .coroutine} {g : GatherState}

/-- The slots of a gather task that is done hold what its children have come to. -/
theorem Accounts.reported (h : w.Accounts Never .nobody []) (hk : (w.coroutines.get r).kind = .gather g)
    (hd : (w.coroutines.get r).isDone = true) :
    List.Forall₂ (Reported w.heap) (g.children.map fun child => (w.coroutines.get child).outcome)
      g.slots := by
  rw [List.forall₂_map_left_iff, List.forall₂_iff_get]
  have hlen := (h.regular r).length hk
  refine ⟨hlen.symm, fun i hi hi' => ?_⟩
  cases hs : g.slots[i] with
  | none => exact absurd (hs ▸ List.getElem_mem hi') ((h.regular r).full hk hd)
  | some o =>
    obtain ⟨-, heap, hm, ho⟩ := h.filled hk (List.getElem?_eq_getElem hi)
      (List.getElem?_eq_some_iff.2 ⟨hi', hs⟩)
    obtain rfl := hm.resolve_left id
    exact ⟨o, hs, ho⟩

end World

/-- A gather task that has come to an outcome, seen from what its children have come to: an array of
what they carry in the order of the children if exceptions are returned or there are none, and
otherwise the exception of the first child that failed. -/
structure GatherState.Reports (g : GatherState) (heap : Heap) (children : List Outcome)
    (outcome : Outcome) : Prop where
  array : (g.returnExceptions = true ∨ ∀ o ∈ children, ∃ v, o = .ok v) →
    ∃ v items, outcome = .ok v ∧ heap.contents? v = some ⟨.array, [], items⟩ ∧
      List.Forall₂ heap.Mirrors (children.map Outcome.carried) items
  exception : g.returnExceptions = false → ∀ (i : Nat) (e : Raised), children[i]? = some (.error e) →
    (∀ j < i, ∃ v, children[j]? = some (.ok v)) →
    ∃ e', outcome = .error e' ∧ heap.MirrorsRaised e e'

/-- What the total of the slots says about the children. -/
theorem GatherState.Totals.reports {g : GatherState} {heap : Heap} {children : List Outcome}
    {outcome : Outcome} (h : g.Totals heap outcome)
    (hs : List.Forall₂ (Reported heap) children g.slots) : g.Reports heap children outcome := by
  unfold Totals at h
  refine ⟨fun hok => ?_, fun hflag i e hi hok => ?_⟩
  · obtain ⟨values, hc, hv⟩ := exists_collect_ok hs hok
    rw [hc] at h
    obtain ⟨v, items, ho, hi, hm⟩ := h
    exact ⟨v, items, ho, hi, mirrors_items hv hm⟩
  · obtain ⟨e', hc, hl, hcol, hv⟩ := exists_collect_error hs hi hok
    rw [hflag, hc] at h
    obtain ⟨e'', ho, hl', hcol', hv'⟩ := h
    exact ⟨e'', ho, hl.trans hl', hcol.trans hcol', hv.trans hv'⟩

/-- The gather tasks of a world: all are as they are counted, and those that are done, and were not
cancelled, report what their children have come to, as it is in the heap. -/
def World.Gathered (w : World) : Prop :=
  ∀ (r : Ref .coroutine) (g : GatherState), (w.coroutines.get r).kind = .gather g → w.Counts r g ∧
    ((w.coroutines.get r).isDone = true → (w.coroutines.get r).isCancelled = false →
      g.Reports w.heap (g.children.map fun child => (w.coroutines.get child).outcome)
        (w.coroutines.get r).outcome)

theorem World.Safe.gathered {w : World} {H : Hand} (h : w.Safe H) : w.Gathered := by
  refine fun r g hk => ⟨h.books.counts hk, fun hd hc => ?_⟩
  obtain ⟨heap, hm, ht⟩ := h.books.total hk hd hc
  obtain rfl := hm.resolve_left id
  exact ht.reports (h.books.reported hk hd)

/-- Gather tasks in all runs of a session.  Wherever a part of a run begins, and behind the run, as many
outcomes are pending as slots are empty, the task is done as soon as all its children are and not
before, and unless it was cancelled its outcome is what its children report: a watch that is silent
where that is so is silent throughout.  And in whatever order turns are taken and time goes by, a gather
task that is done stays so with the outcome it has. -/
theorem gather_outcome {env : Environment} {m : Machine} (hm : Session env m) (text : String)
    (fuel : Nat) :
    (m.runSource text fuel).2.world.Gathered ∧
    (∀ w : Watch, w.Discreet → (∀ q m', m'.world.Gathered → w.begins q m' = "") →
      m.runWatched w text fuel = m.runSource text fuel) ∧
    ∀ s, Reachable env s → ∀ (r : Ref .coroutine) (g : GatherState),
      (s.world.coroutines.get r).kind = .gather g → s.world.Counts r g ∧
        ((s.world.coroutines.get r).isDone = true → ∀ s', Steps s s' →
          (s'.world.coroutines.get r).isDone = true ∧
            (s'.world.coroutines.get r).outcome = (s.world.coroutines.get r).outcome) := by
  refine ⟨(hm.safe.runSource text fuel).world.gathered, fun w hw silent => ?_,
    fun s hs r g hk => ⟨hs.accounts.counts hk, fun hd s' hs' => ?_⟩⟩
  · have concur : Watch.Concur {} w :=
      ⟨fun _ _ => rfl, hw, fun q m' R safe => silent q m' safe.world.gathered⟩
    rw [(hm.safe.runWatched concur text fuel).1, Machine.runWatched_silent]
  · exact (hs'.later hs.coherent (get?_of_stage fun hn => by simp [isDone, hn] at hd)).done hd

/-- A gather task that is done before one of its children is. -/
def Coroutine.isEarly (w : World) (c : Coroutine) : Bool :=
  match c.kind with
  | .gather g => c.isDone && g.children.any fun child => !(w.coroutines.get child).isDone
  | _ => false

theorem World.Gathered.isEarly {w : World} (h : w.Gathered) (r : Ref .coroutine) :
    (w.coroutines.get r).isEarly w = false := by
  unfold Coroutine.isEarly
  split
  · rename_i g hk
    by_contra early
    rw [Bool.not_eq_false, Bool.and_eq_true, List.any_eq_true] at early
    obtain ⟨hd, child, hm, hc⟩ := early
    have all := ((h r g hk).1.isDone fun hn => by simp [Coroutine.isDone, hn] at hd).1 hd
    rw [all child hm] at hc
    contradiction
  · rfl

/-- A watch that says where a gather task is done too early. -/
def early : Watch where
  begins _ m := if ∃ i < m.world.coroutines.size, (m.world.coroutines.get ⟨i⟩).isEarly m.world then
    "early\n" else ""

/-- A program in which the second child of a gather task ends first. -/
def gathersArrays : String :=
  "load: weaver as w\nasync funct: f(n):\n    await w.rest(n)\n    return: [n]\n" ++
  "show(w.weave(w.gather([f(2), f(1)])))\n"

/-- A session in which a gather task has waited for a timer twice, and the timer is due. -/
def gathered : World :=
  let w := (Machine.new {}).world
  let timer : Coroutine := { serial := 1, name := "t", kind := .timer 0 }
  let task : Coroutine :=
    { serial := 2, name := "g", kind := .gather (.ofChildren [⟨0⟩, ⟨0⟩] false) }
  let w := { w with coroutines := (w.coroutines.push timer).push task }
  (w.openLoop.start ⟨1⟩).pollSleepers

theorem reachable_gathered : Reachable {} ⟨.looping, gathered⟩ := by
  refine .tail (.tail (.tail (.single (.create 1 "t" (.timer 0) none (by simp [Control.GoesOn]) (admits_timer _ _)))
    (.create 2 "g" (.gather (.ofChildren [⟨0⟩, ⟨0⟩] false)) none (by simp [Control.GoesOn]) ?_))
    (.opening ⟨1⟩ rfl rfl rfl)) .poll
  rintro g ⟨⟩
  refine ⟨_, _, rfl, fun child hm => ?_⟩
  obtain rfl : child = ⟨0⟩ := by simpa using hm
  rfl

theorem gather_outcome_of_gathersArrays :
    Session {} (Machine.new {}) ∧
    ((Machine.new {}).runSource gathersArrays 20).2.world.Gathered ∧
    (Machine.new {}).runWatched early gathersArrays 20 =
      (Machine.new {}).runSource gathersArrays 20 ∧
    account ((Machine.new {}).runSource gathersArrays 20) = ("[[2], [1]]\n", none) ∧
    (gathered.coroutines.get ⟨1⟩).isDone = true ∧
    gathered.Counts ⟨1⟩ ⟨[⟨0⟩, ⟨0⟩], [some (.ok .null), some (.ok .null)], 0, false⟩ := by
  obtain ⟨behind, throughout, reached⟩ := gather_outcome .new gathersArrays 20
  refine ⟨.new, behind, throughout early (fun _ _ => rfl) fun _ m' h => ?_, by decide +kernel,
    by decide +kernel, (reached _ reachable_gathered ⟨1⟩ _ rfl).1⟩
  exact if_neg fun ⟨i, _, hi⟩ => Bool.noConfusion ((h.isEarly ⟨i⟩).symm.trans hi)

end Rewind
