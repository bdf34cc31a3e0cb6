/-
How gather tasks stand.

In every session the books agree, so that a gather task that has joined a loop is done exactly if all
its children are: one that has not ended has not reported, and the task waits as long as somebody has
not.

* `Reachable.accounts` — the books agree in every session;
* `World.Counts` — how many outcomes a gather task waits for, and when it is done.
-/
import Rewind.Proofs.Audit
import Rewind.Proofs.Resumption

namespace Rewind

open Coroutine World

/-! ### Sessions -/

/-- The books agree in every situation of a session, whatever heaps there have been. -/
theorem Reachable.accounts {env : Environment} {s : Situation} (h : Reachable env s) :
    s.world.Accounts (fun _ => True) .nobody [] := by
  induction h with
  | refl =>
    exact accounts_of_empty (fun r => by simp [Machine.situation, Machine.new, Arena.get, Arena.get?]) rfl _
  | @tail s s' hs hstep ih =>
    have hr : Reachable env s := hs
    exact hstep.accounts hr.coherent ih fun _ _ => trivial

/-! ### Gather tasks -/

namespace World

variable {past : Heap → Prop} {w : World} {r : Ref .coroutine} {g : GatherState}

/-- A child that has not reported to a gather task is not done. -/
theorem Accounts.isDone_of_empty (h : w.Accounts past .nobody [])
    (hk : (w.coroutines.get r).kind = .gather g) (hs : (w.coroutines.get r).stage = .gatherWait)
    {i : Nat} {child : Ref .coroutine} (hc : g.children[i]? = some child)
    (hi : g.slots[i]? = some none) : (w.coroutines.get child).isDone = false := by
  have honce := h.once (d := ⟨r, i, child⟩) ⟨g, hk, hs, hc, hi⟩
  refine Bool.eq_false_iff.2 fun hd => ?_
  rw [((h.regular child).bare hd).parents] at honce
  simp at honce

/-- A gather task that has joined a loop is done exactly if all its children are. -/
theorem Accounts.isDone_iff (h : w.Accounts past .nobody [])
    (hk : (w.coroutines.get r).kind = .gather g) (hn : (w.coroutines.get r).stage ≠ .new) :
    (w.coroutines.get r).isDone = true ↔
      ∀ child ∈ g.children, (w.coroutines.get child).isDone = true := by
  have hlen := (h.regular r).length hk
  constructor
  · intro hd child hm
    obtain ⟨i, hi⟩ := List.mem_iff_getElem?.1 hm
    have hlt : i < g.slots.length := by
      rw [hlen]
      exact (List.getElem?_eq_some_iff.1 hi).1
    cases hs : g.slots[i] with
    | none => exact absurd (hs ▸ List.getElem_mem hlt) ((h.regular r).full hk hd)
    | some o => exact (h.filled hk hi (List.getElem?_eq_some_iff.2 ⟨hlt, hs⟩)).1
  · intro hall
    refine Classical.byContradiction fun hd => ?_
    have hst : (w.coroutines.get r).stage = .gatherWait := by
      have hf := (h.regular r).fits
      unfold Coroutine.Fits at hf
      rw [hk] at hf
      exact (hf.resolve_left hn).resolve_right fun hs => hd (by rw [isDone, hs]; rfl)
    -- some child has not reported, and that one is not done
    obtain ⟨i, hi⟩ := List.mem_iff_getElem?.1 (h.rest hk hst (by simp))
    have hlt : i < g.children.length := by
      rw [← hlen]
      exact (List.getElem?_eq_some_iff.1 hi).1
    have hc : g.children[i]? = some g.children[i] := List.getElem?_eq_getElem hlt
    have hnd := h.isDone_of_empty hk hst hc hi
    rw [hall _ (List.getElem_mem hlt)] at hnd
    contradiction

/-- A gather task as it is counted: as many outcomes are pending as slots are empty, so that none is
pending too few when one comes in, and the task is done as soon as all its children are and not
before. -/
structure Counts (w : World) (r : Ref .coroutine) (g : GatherState) : Prop where
  pending : g.pending = g.slots.countP (·.isNone)
  positive : ∀ i : Nat, g.slots[i]? = some none → 0 < g.pending
  isDone : (w.coroutines.get r).stage ≠ .new → ((w.coroutines.get r).isDone = true ↔
    ∀ child ∈ g.children, (w.coroutines.get child).isDone = true)

theorem Accounts.counts (h : w.Accounts past .nobody [])
    (hk : (w.coroutines.get r).kind = .gather g) : w.Counts r g := by
  have pending := (h.regular r).pending hk
  refine ⟨pending, fun i hi => ?_, h.isDone_iff hk⟩
  rw [pending]
  exact List.countP_pos_iff.2 ⟨none, List.mem_of_getElem? hi, rfl⟩

end World

end Rewind
