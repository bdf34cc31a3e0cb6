/-
The books of the event loop.

At every moment of a session the records of the coroutines agree with each other: a gather task knows
which of its children have not reported, each of them knows that it has to, and what is done has
nothing to do any more.  In the midst of a transition some outcomes are due, and then the books agree
if those are taken into account.

* `Coroutine.Regular` — what holds of each record in itself;
* `World.Expects`, `GatherState.Totals` — a slot waits for a child; what a gather task comes to;
* `World.Accounts` — the books agree;
* `Accounts.settle`, `Accounts.fill`, `Accounts.link`, `Accounts.enroll` — each change keeps them so;
* `accounts_kept` — and so does everything that follows from an end or a start.
-/
import Rewind.Proofs.Dues
import Rewind.Proofs.Waiting

namespace Rewind

open Coroutine World

/-! ### One record -/

namespace Coroutine

/-- The stage is one that coroutines of the kind go through. -/
def Fits (c : Coroutine) : Prop :=
  match c.kind with
  | .script _ _ => c.stage ≠ .suspendedTimer ∧ c.stage ≠ .gatherWait
  | .timer _ => c.stage = .new ∨ c.stage = .suspendedTimer ∨ c.stage = .done
  | .gather _ => c.stage = .new ∨ c.stage = .gatherWait ∨ c.stage = .done

/-- Nobody is linked to the coroutine, and it has nothing to go on with. -/
structure Bare (c : Coroutine) : Prop where
  waiters : c.waiters = []
  parents : c.parents = []
  awaiting : c.awaiting = none
  scope : c.scope = none
  frames : c.frames = []

/-- The stage of a coroutine agrees with the rest of its record. -/
structure Regular (c : Coroutine) : Prop where
  fits : c.Fits
  fresh : c.isDone = false → c.exception = none
  waiters : c.stage = .new → c.waiters = []
  awaiting : c.stage = .new → c.awaiting = none
  bare : c.isDone = true → c.Bare
  length {g : GatherState} : c.kind = .gather g → g.slots.length = g.children.length
  pending {g : GatherState} : c.kind = .gather g → g.pending = g.slots.countP (·.isNone)
  /-- No child reports to a gather task that has not joined a loop, -/
  empty {g : GatherState} : c.kind = .gather g → c.stage = .new → ∀ slot ∈ g.slots, slot = none
  /-- and all have reported to one that is done. -/
  full {g : GatherState} : c.kind = .gather g → c.isDone = true → none ∉ g.slots

end Coroutine

namespace GatherState

/-- The outcome is what a gather task comes to: an array that holds the same as the values of the
slots, or the exception they end with. -/
def Totals (g : GatherState) (heap : Heap) (outcome : Outcome) : Prop :=
  match collect g.returnExceptions g.slots with
  | .ok values => ∃ v items, outcome = .ok v ∧ heap.contents? v = some ⟨.array, [], items⟩ ∧
      List.Forall₂ heap.Mirrors values items
  | .error e => ∃ e', outcome = .error e' ∧ heap.MirrorsRaised e e'

theorem Totals.mono {g : GatherState} {heap heap' : Heap} {outcome : Outcome}
    (h : g.Totals heap outcome) (he : heap.Extends heap') : g.Totals heap' outcome := by
  unfold Totals at h ⊢
  cases hc : collect g.returnExceptions g.slots with
  | ok values =>
    rw [hc] at h
    obtain ⟨v, items, ho, hi, hm⟩ := h
    exact ⟨v, items, ho, he v _ hi, hm.imp fun _ _ hm => hm.mono he⟩
  | error e =>
    rw [hc] at h
    obtain ⟨e', ho, hl, hc, hv⟩ := h
    exact ⟨e', ho, hl, hc, hv.mono he⟩

/-- What holds the same as the total is one. -/
theorem totals_outcome (g : GatherState) (heap : Heap) {outcome : Outcome}
    {heap' : Heap} (he : (g.outcome heap).2.Extends heap')
    (hm : heap'.MirrorsOutcome (g.outcome heap).1 outcome) : g.Totals heap' outcome := by
  unfold Totals
  cases hc : collect g.returnExceptions g.slots with
  | ok values =>
    rw [outcome_of_ok hc] at he hm
    have hnew : (Heap.newArray values.toArray heap).2.contents?
        (Heap.newArray values.toArray heap).1 = some ⟨.array, [], values⟩ := by
      simp [Heap.newArray, Heap.contents?, Arena.get?_push_next]
    cases outcome with
    | error e => exact hm.elim
    | ok v =>
      obtain ⟨items, hi, hv⟩ := Heap.Mirrors.contents hm (he _ _ hnew)
      exact ⟨v, items, rfl, hi, hv⟩
  | error e =>
    rw [outcome_of_error hc] at he hm
    cases outcome with
    | ok v => exact hm.elim
    | error e' => exact ⟨e', rfl, hm⟩

section Fill

variable {g : GatherState} {slot : Nat} {outcome : Outcome}

theorem fill_of_empty (hslot : g.slots[slot]? = some none) : g.fill slot outcome =
    { g with slots := g.slots.set slot (some outcome), pending := g.pending - 1 } := by
  rw [fill, hslot]

theorem children_fill : (g.fill slot outcome).children = g.children := by
  unfold fill
  split <;> rfl

theorem slot_fill_self (hslot : g.slots[slot]? = some none) :
    (g.fill slot outcome).slots[slot]? = some (some outcome) := by
  rw [fill_of_empty hslot]
  exact List.getElem?_set_self (List.getElem?_eq_some_iff.1 hslot).1

theorem slot_fill_of_ne (hslot : g.slots[slot]? = some none) {i : Nat} (hne : i ≠ slot) :
    (g.fill slot outcome).slots[i]? = g.slots[i]? := by
  rw [fill_of_empty hslot]
  exact List.getElem?_set_ne hne.symm

/-- What is in a slot after one was filled. -/
theorem slot_fill (hslot : g.slots[slot]? = some none) {i : Nat} {o : Outcome}
    (ho : (g.fill slot outcome).slots[i]? = some (some o)) :
    slot = i ∧ outcome = o ∨ i ≠ slot ∧ g.slots[i]? = some (some o) := by
  by_cases hi : slot = i
  · subst hi
    rw [slot_fill_self hslot] at ho
    exact .inl ⟨rfl, Option.some.inj (Option.some.inj ho)⟩
  · rw [slot_fill_of_ne hslot (Ne.symm hi)] at ho
    exact .inr ⟨Ne.symm hi, ho⟩

end Fill

end GatherState

/-- A gather task that waits is as regular with one slot more filled. -/
theorem Coroutine.Regular.fill {c : Coroutine} (h : c.Regular) {g : GatherState} {slot : Nat}
    {outcome : Outcome} (hk : c.kind = .gather g) (hs : c.stage = .gatherWait)
    (hslot : g.slots[slot]? = some none) :
    ({ c with kind := .gather (g.fill slot outcome) } : Coroutine).Regular := by
  have not_new (hn : c.stage = .new) : False := by
    rw [hs] at hn
    contradiction
  have hd : c.isDone = false := by rw [isDone, hs]; rfl
  have not_done (hn : c.isDone = true) : False := by
    rw [hd] at hn
    contradiction
  refine ⟨.inr (.inl hs), fun _ => h.fresh hd, fun hn => (not_new hn).elim,
    fun hn => (not_new hn).elim, fun hn => (not_done hn).elim, fun {k} hg => ?_, fun {k} hg => ?_,
    fun _ hn => (not_new hn).elim, fun _ hn => (not_done hn).elim⟩
  · obtain rfl := CoroutineKind.gather.inj hg
    rw [GatherState.children_fill, GatherState.fill_of_empty hslot, List.length_set]
    exact h.length hk
  · obtain rfl := CoroutineKind.gather.inj hg
    obtain ⟨hlt, hnone⟩ := List.getElem?_eq_some_iff.1 hslot
    rw [GatherState.fill_of_empty hslot]
    show g.pending - 1 = (g.slots.set slot (some outcome)).countP (·.isNone)
    rw [List.countP_set hlt, hnone, h.pending hk]
    simp

/-- Two dues of one child are the same if they are for the same slot of a task. -/
theorem Due.beq_of_child {d e : Due} (h : d.child = e.child) :
    (d == e) = ((d.task, d.slot) == (e.task, e.slot)) := by
  obtain ⟨task, slot, child⟩ := d
  obtain ⟨task', slot', child'⟩ := e
  obtain rfl : child = child' := h
  rw [Bool.eq_iff_iff, beq_iff_eq, beq_iff_eq]
  simp

/-! ### The books -/

namespace World

/-- A gather task waits for the outcome of a child in a slot. -/
def Expects (w : World) (d : Due) : Prop :=
  ∃ g, (w.coroutines.get d.task).kind = .gather g ∧
    (w.coroutines.get d.task).stage = .gatherWait ∧ g.children[d.slot]? = some d.child ∧
    g.slots[d.slot]? = some none

/-- The heaps there have been, and the one there is. -/
def Moments (w : World) (past : Heap → Prop) (heap : Heap) : Prop := past heap ∨ heap = w.heap

/-- The books agree, if some outcomes are due and a coroutine is attended to; `past` are the heaps
there have been before. -/
structure Accounts (past : Heap → Prop) (f : Focus) (dues : List Due) (w : World) : Prop where
  regular : ∀ r, (w.coroutines.get r).Regular
  children {r : Ref .coroutine} {g : GatherState} : (w.coroutines.get r).kind = .gather g →
    ∀ child ∈ g.children, w.Has child
  /-- What is in a slot, the child has come to. -/
  filled {r child : Ref .coroutine} {g : GatherState} {i : Nat} {outcome : Outcome} :
    (w.coroutines.get r).kind = .gather g → g.children[i]? = some child →
    g.slots[i]? = some (some outcome) → (w.coroutines.get child).isDone = true ∧
      ∃ heap, w.Moments past heap ∧
        heap.MirrorsOutcome (w.coroutines.get child).outcome outcome
  total {r : Ref .coroutine} {g : GatherState} : (w.coroutines.get r).kind = .gather g →
    (w.coroutines.get r).isDone = true → (w.coroutines.get r).isCancelled = false →
    ∃ heap, w.Moments past heap ∧ g.Totals heap (w.coroutines.get r).outcome
  due {d : Due} : d ∈ dues → w.Expects d
  linked {child : Ref .coroutine} {p : Ref .coroutine × Nat} :
    p ∈ (w.coroutines.get child).parents → w.Expects ⟨p.1, p.2, child⟩
  /-- For each slot that is empty the outcome is due, or the child has the gather task as a parent. -/
  once {d : Due} : w.Expects d →
    dues.count d + (w.coroutines.get d.child).parents.count (d.task, d.slot) = 1
  begun {child : Ref .coroutine} : (w.coroutines.get child).parents ≠ [] →
    (w.coroutines.get child).stage ≠ .new ∨ f = .starting child
  rest {r : Ref .coroutine} {g : GatherState} : (w.coroutines.get r).kind = .gather g →
    (w.coroutines.get r).stage = .gatherWait → f ≠ .ending r → none ∈ g.slots
  sleepers : ∀ x ∈ w.loop.sleepers, w.Has x.2 ∧ ∃ wake, (w.coroutines.get x.2).kind = .timer wake

end World

/-! ### Changes that the books do not show -/

namespace Coroutine

/-- The books say the same of both, but that the second may have joined a loop in between. -/
structure Alike (c c' : Coroutine) : Prop where
  kind : c'.kind = c.kind
  parents : c'.parents = c.parents
  new : c'.stage = .new → c.stage = .new
  gathers : c'.stage = .gatherWait ↔ c.stage = .gatherWait
  done : c'.isDone = c.isDone
  outcome : c.isDone = true → c'.outcome = c.outcome
  cancelled : c'.isCancelled = false → c.isCancelled = false

theorem Alike.refl (c : Coroutine) : c.Alike c :=
  ⟨rfl, rfl, id, Iff.rfl, rfl, fun _ => rfl, id⟩

/-- A record stays regular if its kind stays, its stage still fits, and it is not new or done unless
it was. -/
theorem Regular.alike {c c' : Coroutine} (h : c.Regular) (ha : c.Alike c') (hf : c'.Fits)
    (he : c'.exception = c.exception)
    (hn : c.stage = .new → c'.waiters = c.waiters ∧ c'.awaiting = c.awaiting)
    (hd : c.isDone = true → c'.Bare) : c'.Regular := by
  refine ⟨hf, fun h' => ?_, fun h' => ?_, fun h' => ?_, fun h' => ?_, fun hk => ?_, fun hk => ?_,
    fun hk h' => ?_, fun hk h' => ?_⟩
  · rw [he]
    exact h.fresh (ha.done ▸ h')
  · rw [(hn (ha.new h')).1]
    exact h.waiters (ha.new h')
  · rw [(hn (ha.new h')).2]
    exact h.awaiting (ha.new h')
  · exact hd (ha.done ▸ h')
  · exact h.length (ha.kind ▸ hk)
  · exact h.pending (ha.kind ▸ hk)
  · exact h.empty (ha.kind ▸ hk) (ha.new h')
  · exact h.full (ha.kind ▸ hk) (ha.done ▸ h')

end Coroutine

namespace World

theorem get_modified (w : World) (r : Ref .coroutine) (f : Coroutine → Coroutine)
    (s : Ref .coroutine) :
    (w.modifyCoroutine r f).coroutines.get s = w.coroutines.get s ∨
      s = r ∧ w.Has s ∧ (w.modifyCoroutine r f).coroutines.get s = f (w.coroutines.get s) := by
  by_cases hs : s = r
  · subst hs
    cases hg : w.coroutines.get? s with
    | none =>
      left
      simp [Arena.get, modifyCoroutine, Arena.get?_modify, hg]
    | some c =>
      have hc : w.coroutines.get? s = some (w.coroutines.get s) := by rw [get_of_get? hg, hg]
      exact .inr ⟨rfl, hc, get_modifyCoroutine w s f hc⟩
  · exact .inl (get_modifyCoroutine_of_ne w r f hs)

theorem Expects.alike {w w' : World} {d : Due}
    (ha : (w.coroutines.get d.task).Alike (w'.coroutines.get d.task)) :
    w'.Expects d ↔ w.Expects d := by
  unfold Expects
  rw [ha.kind, ha.gathers]

namespace Accounts

variable {past past' : Heap → Prop} {f : Focus} {dues : List Due} {w w' : World}

/-- The books do not show a change of records in other respects, and they allow for more time. -/
theorem transfer (h : w.Accounts past f dues)
    (hm : ∀ heap, w.Moments past heap → ∃ heap', w'.Moments past' heap' ∧ heap.Extends heap')
    (hs : ∀ r, w.Has r → w'.Has r)
    (ha : ∀ r, (w.coroutines.get r).Alike (w'.coroutines.get r))
    (hr : ∀ r, (w'.coroutines.get r).Regular)
    (hl : ∀ x ∈ w'.loop.sleepers, x ∈ w.loop.sleepers) : w'.Accounts past' f dues := by
  -- a heap of the past has grown into another one, and what mirrored in the old mirrors in the
  -- new
  refine ⟨hr, fun {r g} hk child hc => ?_, fun {r child g i outcome} hk hc ho => ?_,
    fun {r g} hk hd hn => ?_, fun {d} hd => ?_, fun {child p} hp => ?_, fun {d} hd => ?_,
    fun {child} hp => ?_, fun {r g} hk hst hf => ?_, fun x hx => ?_⟩
  · rw [(ha r).kind] at hk
    exact hs child (h.children hk child hc)
  · rw [(ha r).kind] at hk
    obtain ⟨hd, heap, hp, ho⟩ := h.filled hk hc ho
    obtain ⟨heap', hp', he⟩ := hm heap hp
    rw [(ha child).done, (ha child).outcome hd]
    exact ⟨hd, heap', hp', ho.mono he⟩
  · rw [(ha r).kind] at hk
    rw [(ha r).done] at hd
    obtain ⟨heap, hp, ht⟩ := h.total hk hd ((ha r).cancelled hn)
    obtain ⟨heap', hp', he⟩ := hm heap hp
    rw [(ha r).outcome hd]
    exact ⟨heap', hp', ht.mono he⟩
  · exact (Expects.alike (ha d.task)).2 (h.due hd)
  · rw [(ha child).parents] at hp
    exact (Expects.alike (ha p.1)).2 (h.linked hp)
  · rw [(ha d.child).parents]
    exact h.once ((Expects.alike (ha d.task)).1 hd)
  · rw [(ha child).parents] at hp
    exact (h.begun hp).imp_left fun hn hn' => hn ((ha child).new hn')
  · rw [(ha r).kind] at hk
    exact h.rest hk ((ha r).gathers.1 hst) hf
  · rw [(ha x.2).kind]
    exact (h.sleepers x (hl x hx)).imp_left (hs x.2)

/-- In a transition the heap gets more containers. -/
theorem moments (he : w.heap.Extends w'.heap) (heap : Heap) (hm : w.Moments past heap) :
    ∃ heap', w'.Moments past heap' ∧ heap.Extends heap' := by
  obtain hp | rfl := hm
  · exact ⟨heap, .inl hp, .refl heap⟩
  · exact ⟨w'.heap, .inr rfl, he⟩

/-- No record changes. -/
theorem congr (h : w.Accounts past f dues) (he : w.heap.Extends w'.heap)
    (hc : w'.coroutines = w.coroutines) (hl : ∀ x ∈ w'.loop.sleepers, x ∈ w.loop.sleepers) :
    w'.Accounts past f dues := by
  refine h.transfer (moments he) (fun r hr => ?_) (fun r => ?_) (fun r => ?_) hl
  · rw [Has, hc]
    exact hr
  · rw [hc]
    exact .refl _
  · rw [hc]
    exact h.regular r

theorem onHeap (h : w.Accounts past f dues) {α : Type} {g : StateM Heap α}
    (hg : ∀ heap : Heap, heap.Extends (g heap).2) : (w.onHeap g).2.Accounts past f dues :=
  h.congr (hg w.heap) rfl fun _ => id

/-- One record changes in a way the books do not show. -/
theorem modify (h : w.Accounts past f dues) (r : Ref .coroutine) (g : Coroutine → Coroutine)
    (ha : (w.coroutines.get r).Alike (g (w.coroutines.get r)))
    (hr : (g (w.coroutines.get r)).Regular) :
    (w.modifyCoroutine r g).Accounts past f dues := by
  refine h.transfer (moments (.refl _)) (fun s hs => ?_) (fun s => ?_) (fun s => ?_) fun _ => id
  · rw [has_iff] at hs ⊢
    rwa [modifyCoroutine, Arena.size_modify]
  · obtain he | ⟨rfl, -, he⟩ := get_modified w r g s
    · rw [he]
      exact .refl _
    · rwa [he]
  · obtain he | ⟨rfl, -, he⟩ := get_modified w r g s
    · rw [he]
      exact h.regular s
    · rwa [he]

end Accounts

end World

/-! ### Ends -/

namespace Coroutine

/-- A coroutine in a stage that only bodies go through has one. -/
theorem Regular.script {c : Coroutine} (h : c.Regular)
    (hs : c.stage = .suspendedAwait ∨ c.stage = .running ∨ c.stage = .runnable) :
    ∃ f owner, c.kind = .script f owner := by
  have hf := h.fits
  unfold Coroutine.Fits at hf
  cases hk : c.kind with
  | script f owner => exact ⟨f, owner, rfl⟩
  | _ =>
    rw [hk] at hf
    obtain hs | hs | hs := hs <;> simp [hs] at hf

theorem fits_of_script {c : Coroutine} {f : Ref .function} {owner : Option (Ref .blueprint)}
    (hk : c.kind = .script f owner) (ht : c.stage ≠ .suspendedTimer) (hg : c.stage ≠ .gatherWait) :
    c.Fits := by
  unfold Coroutine.Fits
  rw [hk]
  exact ⟨ht, hg⟩

theorem fits_of_done {c : Coroutine} (hd : c.stage = .done) : c.Fits := by
  unfold Coroutine.Fits
  rw [hd]
  cases c.kind <;> simp

theorem alike_woken {c : Coroutine} (outcome : Outcome) (hs : c.stage = .suspendedAwait) :
    c.Alike (c.woken outcome) := by
  refine ⟨rfl, rfl, ?_, ?_, ?_, fun _ => rfl, id⟩
  all_goals simp [woken, isDone, hs]

theorem Regular.woken {c : Coroutine} (h : c.Regular) (outcome : Outcome)
    (hs : c.stage = .suspendedAwait) : (c.woken outcome).Regular := by
  obtain ⟨f, owner, hk⟩ := h.script (.inl hs)
  refine h.alike (alike_woken outcome hs) (fits_of_script hk (by simp) (by simp)) rfl (fun hn => ?_)
    fun hd => ?_
  · rw [hs] at hn
    contradiction
  · rw [isDone, hs] at hd
    contradiction

/-- What is left of a record that is done is regular, if all slots were filled. -/
theorem Regular.ended {c c' : Coroutine} (h : c.Regular) (hk : c'.kind = c.kind)
    (hs : c'.stage = .done) (hb : c'.Bare) (hfull : ∀ g, c.kind = .gather g → none ∉ g.slots) :
    c'.Regular := by
  have not_new (hn : c'.stage = .new) : False := by
    rw [hs] at hn
    contradiction
  have hd : c'.isDone = true := by rw [isDone, hs]; rfl
  refine ⟨fits_of_done hs, fun hn => absurd (hd.symm.trans hn) (by simp),
    fun hn => (not_new hn).elim, fun hn => (not_new hn).elim, fun _ => hb, fun hg => ?_,
    fun hg => ?_, fun _ hn => (not_new hn).elim, fun hg _ => hfull _ (hk ▸ hg)⟩
  · exact h.length (hk ▸ hg)
  · exact h.pending (hk ▸ hg)

/-- A new record that joins a loop in a stage that fits is regular. -/
theorem Regular.enroll {c : Coroutine} (h : c.Regular) (hd : c.isDone = false) {stage : Stage}
    (hsn : stage ≠ .new) (hsd : stage ≠ .done) (hfit : Coroutine.Fits { c with stage }) :
    ({ c with stage } : Coroutine).Regular := by
  have not_done (hn : ({ c with stage } : Coroutine).isDone = true) : False :=
    hsd (beq_iff_eq.1 hn)
  exact ⟨hfit, fun _ => h.fresh hd, fun hs => absurd hs hsn, fun hs => absurd hs hsn,
    fun hn => (not_done hn).elim, h.length, h.pending, fun _ hs => absurd hs hsn,
    fun _ hn => (not_done hn).elim⟩

/-- A record that is not done is as regular with one parent more. -/
theorem Regular.parents {c : Coroutine} (h : c.Regular) (hd : c.isDone = false)
    (parents : List (Ref .coroutine × Nat)) : ({ c with parents } : Coroutine).Regular :=
  ⟨h.fits, h.fresh, h.waiters, h.awaiting, fun hn => absurd (hd.symm.trans hn) (by simp), h.length,
    h.pending, h.empty, h.full⟩

end Coroutine

namespace World

/-- What is left of the record of a coroutine that is done. -/
theorem bare_complete (w : World) {r : Ref .coroutine} (outcome : Outcome) (h : w.Has r) :
    let c := w.coroutines.get r
    let c' := (w.complete r outcome).coroutines.get r
    c'.kind = c.kind ∧ c'.isCancelled = c.isCancelled ∧ c'.cancelDelivered = c.cancelDelivered ∧
      c'.stage = .done ∧ c'.Bare := by
  have hg (f : Coroutine → Coroutine) :
      ((w.copyOutcome outcome).2.modifyCoroutine r f).coroutines.get? r =
        some (f (w.coroutines.get r)) := by
    simp only [modifyCoroutine, Arena.get?_modify, if_true]
    exact congrArg (Option.map f) h
  simp only [complete]
  rw [get_releaseLinks _ (hg _)]
  cases (w.copyOutcome outcome).1 with
  | ok v => exact ⟨rfl, rfl, rfl, rfl, rfl, rfl, rfl, rfl, rfl⟩
  | error e => exact ⟨rfl, rfl, rfl, rfl, rfl, rfl, rfl, rfl, rfl⟩

theorem bare_settle (w : World) {r : Ref .coroutine} (outcome : Outcome) (h : w.Has r) :
    let c := w.coroutines.get r
    let c' := (w.settle r outcome).coroutines.get r
    c'.kind = c.kind ∧ c'.isCancelled = c.isCancelled ∧ c'.cancelDelivered = c.cancelDelivered ∧
      c'.stage = .done ∧ c'.Bare := by
  obtain ⟨hk, hc, hcd, hs, hb⟩ := bare_complete w outcome h
  rw [get_settle w outcome (by rw [hs]; simp)]
  exact ⟨hk, hc, hcd, hs, hb⟩

theorem loop_complete (w : World) (r : Ref .coroutine) (outcome : Outcome) :
    (w.complete r outcome).loop = w.loop := by
  simp only [complete, releaseLinks]
  split <;> rfl

theorem loop_wake (w : World) (r : Ref .coroutine) (outcome : Outcome) :
    ∃ ready, (w.wake r outcome).loop = { w.loop with ready } := by
  unfold wake
  by_cases hs : (w.coroutines.get r).stage = .suspendedAwait
  · rw [if_pos hs]
    exact ⟨w.loop.ready ++ [r], rfl⟩
  · rw [if_neg hs]
    exact ⟨w.loop.ready, rfl⟩

/-- An end moves coroutines into the queue and does nothing else to the loop. -/
theorem loop_settle (w : World) (r : Ref .coroutine) (outcome : Outcome) :
    ∃ ready, (w.settle r outcome).loop = { w.loop with ready } := by
  have wakes (l : List (Ref .coroutine)) (v : World) (hv : ∃ ready, v.loop = { w.loop with ready }) :
      ∃ ready, (l.foldl (wakeWithCopy outcome) v).loop = { w.loop with ready } := by
    induction l generalizing v with
    | nil => exact hv
    | cons s l ih =>
      refine ih _ ?_
      obtain ⟨ready, hv⟩ := hv
      obtain ⟨ready', hs⟩ := loop_wake (v.copyOutcome outcome).2 s (v.copyOutcome outcome).1
      have hl : (v.copyOutcome outcome).2.loop = { w.loop with ready } := hv
      rw [hl] at hs
      exact ⟨ready', hs⟩
  exact wakes _ _ ⟨w.loop.ready, loop_complete w r outcome⟩

/-- What a coroutine that has a certain task as a parent owes to it. -/
theorem count_owes (w : World) (r : Ref .coroutine) (d : Due) :
    (w.owes r).count d =
      if d.child = r then (w.coroutines.get r).parents.count (d.task, d.slot) else 0 := by
  by_cases hr : d.child = r
  · rw [if_pos hr]
    obtain ⟨task, slot, child⟩ := d
    obtain rfl : child = r := hr
    refine List.count_map_of_injective _ (fun p : Ref .coroutine × Nat => Due.mk p.1 p.2 child) ?_
      (task, slot)
    rintro ⟨_, _⟩ ⟨_, _⟩ he
    obtain ⟨rfl, rfl, -⟩ := Due.mk.inj he
    rfl
  · rw [if_neg hr]
    refine List.count_eq_zero.2 fun hd => hr ?_
    obtain ⟨p, -, rfl⟩ := List.mem_map.1 hd
    rfl

/-! ### Slots -/

section Slots

variable {w : World} {g : GatherState} {r : Ref .coroutine} {slot : Nat} {outcome : Outcome}

theorem get_fillSlot_of_ne (w : World) {s : Ref .coroutine} (hne : s ≠ r) :
    (w.fillSlot r slot outcome).coroutines.get s = w.coroutines.get s :=
  get_modifyCoroutine_of_ne w r _ hne

/-- The record of a gather task one of whose slots gets an outcome. -/
theorem get_fillSlot (hk : (w.coroutines.get r).kind = .gather g)
    (hd : (w.coroutines.get r).isDone = false) :
    (w.fillSlot r slot outcome).coroutines.get r =
      { w.coroutines.get r with kind := .gather (g.fill slot outcome) } := by
  rw [fillSlot, get_modifyCoroutine w r _ (has_of_gather hk)]
  simp only [hk, hd]
  rfl

/-- Apart from kinds nothing is changed. -/
theorem field_fillSlot (w : World) (r : Ref .coroutine) (slot : Nat) (outcome : Outcome) {β : Type}
    (field : Coroutine → β) (hf : ∀ c kind, field { c with kind } = field c) (s : Ref .coroutine) :
    field ((w.fillSlot r slot outcome).coroutines.get s) = field (w.coroutines.get s) := by
  refine field_modifyCoroutine w r _ field (fun c => ?_) s
  split
  · split
    · rfl
    · exact hf c _
  · rfl

theorem kind_fillSlot (hk : (w.coroutines.get r).kind = .gather g)
    (hd : (w.coroutines.get r).isDone = false) {s : Ref .coroutine} {k : GatherState}
    (hs : ((w.fillSlot r slot outcome).coroutines.get s).kind = .gather k) :
    s = r ∧ k = g.fill slot outcome ∨ s ≠ r ∧ (w.coroutines.get s).kind = .gather k := by
  by_cases hne : s = r
  · rw [hne, get_fillSlot hk hd] at hs
    exact .inl ⟨hne, (CoroutineKind.gather.inj hs).symm⟩
  · rw [get_fillSlot_of_ne w hne] at hs
    exact .inr ⟨hne, hs⟩

/-- One outcome less is expected, and the same ones otherwise. -/
theorem expects_fillSlot {d : Due} (hk : (w.coroutines.get d.task).kind = .gather g)
    (hst : (w.coroutines.get d.task).stage = .gatherWait)
    (hchild : g.children[d.slot]? = some d.child) (hslot : g.slots[d.slot]? = some none) (e : Due) :
    (w.fillSlot d.task d.slot outcome).Expects e ↔ w.Expects e ∧ e ≠ d := by
  have hd : (w.coroutines.get d.task).isDone = false := by rw [isDone, hst]; rfl
  by_cases hne : e.task = d.task
  · constructor
    · rintro ⟨k, hkind, hs, hc, hsl⟩
      obtain ⟨-, rfl⟩ | ⟨hn, -⟩ := kind_fillSlot hk hd hkind
      · have hsd : e.slot ≠ d.slot := by
          intro he
          rw [he, GatherState.slot_fill_self hslot] at hsl
          cases Option.some.inj hsl
        rw [GatherState.children_fill] at hc
        rw [GatherState.slot_fill_of_ne hslot hsd] at hsl
        exact ⟨⟨g, hne ▸ hk, hne ▸ hst, hc, hsl⟩, fun he => hsd (he ▸ rfl)⟩
      · exact absurd hne hn
    · rintro ⟨⟨k, hkind, hs, hc, hsl⟩, hned⟩
      rw [hne, hk] at hkind
      obtain rfl := CoroutineKind.gather.inj hkind
      -- of the dues of the task only `d` is for this slot
      have hsd : e.slot ≠ d.slot := by
        intro he
        rw [he, hchild] at hc
        obtain ⟨task, slot, child⟩ := e
        obtain ⟨task', slot', child'⟩ := d
        obtain rfl : task = task' := hne
        obtain rfl : slot = slot' := he
        obtain rfl : child' = child := Option.some.inj hc
        exact hned rfl
      refine ⟨g.fill d.slot outcome, ?_, ?_, ?_, ?_⟩
      · rw [hne, get_fillSlot hk hd]
      · rwa [field_fillSlot w _ _ _ Coroutine.stage fun _ _ => rfl]
      · rwa [GatherState.children_fill]
      · rwa [GatherState.slot_fill_of_ne hslot hsd]
  · unfold Expects
    rw [get_fillSlot_of_ne w hne]
    exact (and_iff_left fun he : e = d => hne (congrArg Due.task he)).symm

end Slots

/-- Apart from the parents of the child nothing is changed. -/
theorem field_link (w : World) (d : Due) {β : Type} (field : Coroutine → β)
    (hf : ∀ c parents, field { c with parents } = field c) (s : Ref .coroutine) :
    field ((w.link d).coroutines.get s) = field (w.coroutines.get s) :=
  field_modifyCoroutine w d.child _ field (fun c => hf c _) s

/-- Apart from its stage nothing of a coroutine that joins the loop is changed. -/
theorem field_enroll (w : World) (r : Ref .coroutine) (stage : Stage) {β : Type}
    (field : Coroutine → β) (hf : ∀ c stage, field { c with stage } = field c)
    (s : Ref .coroutine) :
    field ((w.enroll r stage).coroutines.get s) = field (w.coroutines.get s) :=
  field_modifyCoroutine w r _ field (fun c => hf c _) s

/-- A gather task that has joined the loop expects all its children. -/
theorem expects_enroll {w : World} {r : Ref .coroutine} {stage : Stage} {d : Due}
    (h : (w.coroutines.get r).Regular) (hr : w.Has r) (hn : (w.coroutines.get r).stage = .new)
    (hsn : stage ≠ .new) (hsd : stage ≠ .done)
    (hfit : Coroutine.Fits { w.coroutines.get r with stage }) (ht : d.task = r) :
    (w.enroll r stage).Expects d ↔ (w.coroutines.get r).children[d.slot]? = some d.child := by
  have self : (w.enroll r stage).coroutines.get r = { w.coroutines.get r with stage } :=
    get_modifyCoroutine w r _ hr
  unfold Expects Coroutine.children
  rw [ht, self]
  cases hk : (w.coroutines.get r).kind with
  | gather g =>
    have hs : stage = .gatherWait := by
      unfold Coroutine.Fits at hfit
      rw [hk] at hfit
      exact (hfit.resolve_left hsn).resolve_right hsd
    constructor
    · rintro ⟨g', hg, -, hc, -⟩
      obtain rfl := CoroutineKind.gather.inj hg
      exact hc
    · intro hc
      have hlt : d.slot < g.slots.length := by
        rw [h.length hk]
        exact (List.getElem?_eq_some_iff.1 hc).1
      have hnone := h.empty hk hn _ (List.getElem_mem hlt)
      exact ⟨g, rfl, hs, hc, List.getElem?_eq_some_iff.2 ⟨hlt, hnone⟩⟩
  | _ => simp

namespace Accounts

variable {past past' : Heap → Prop} {f : Focus} {dues : List Due} {w w' : World}
  {r : Ref .coroutine}

/-- Whoever waited for a coroutine that is done may be woken, which shows in no entry of the books. -/
theorem alike_settle (h : w.Accounts past f dues) (outcome : Outcome) {s : Ref .coroutine}
    (hne : s ≠ r) : (w.coroutines.get s).Alike ((w.settle r outcome).coroutines.get s) ∧
      ((w.settle r outcome).coroutines.get s).Regular := by
  obtain ⟨he, -⟩ | ⟨-, hst, heap, he⟩ := get_settle_of_ne w outcome hne
  · rw [he]
    exact ⟨.refl _, h.regular s⟩
  · rw [he]
    exact ⟨alike_woken _ hst, (h.regular s).woken _ hst⟩

/-- A coroutine that waits for nothing more is done and owes its outcome to its gather tasks. -/
theorem settle (h : w.Accounts past f dues) (outcome : Outcome) (hr : w.Has r)
    (hd : (w.coroutines.get r).isDone = false)
    (hfull : ∀ g, (w.coroutines.get r).kind = .gather g → none ∉ g.slots)
    (htotal : ∀ g, (w.coroutines.get r).kind = .gather g →
      (w.coroutines.get r).isCancelled = false →
      g.Totals (w.settle r outcome).heap ((w.settle r outcome).coroutines.get r).outcome) :
    (w.settle r outcome).Accounts past f (w.owes r ++ dues) := by
  have he := evolves_settle w r outcome hd
  obtain ⟨hk, hc, -, hs, hb⟩ := bare_settle w outcome hr
  have other {s : Ref .coroutine} (hne : s ≠ r) :
      (w.coroutines.get s).Alike ((w.settle r outcome).coroutines.get s) ∧
        ((w.settle r outcome).coroutines.get s).Regular := h.alike_settle outcome hne
  have kind (s : Ref .coroutine) :
      ((w.settle r outcome).coroutines.get s).kind = (w.coroutines.get s).kind := by
    by_cases hne : s = r
    · rw [hne, hk]
    · exact (other hne).1.kind
  -- a gather task that is done expects nobody, and as it was full it expected nobody before
  have expects (d : Due) : (w.settle r outcome).Expects d ↔ w.Expects d := by
    by_cases hne : d.task = r
    · constructor
      · rintro ⟨g, -, hst, -⟩
        rw [hne, hs] at hst
        contradiction
      · rintro ⟨g, hg, -, -, hslot⟩
        rw [hne] at hg
        exact absurd (List.mem_of_getElem? hslot) (hfull g hg)
    · exact Expects.alike (other hne).1
  refine ⟨fun s => ?_, fun {s g} hg child hm => ?_, fun {s child g i o} hg hm ho => ?_,
    fun {s g} hg hd' hn => ?_, fun {d} hm => ?_, fun {child p} hp => ?_, fun {d} hx => ?_,
    fun {child} hp => ?_, fun {s g} hg hst hf => ?_, fun x hx => ?_⟩
  · by_cases hne : s = r
    · rw [hne]
      exact (h.regular r).ended hk hs hb hfull
    · exact (other hne).2
  · rw [kind] at hg
    exact (h.children hg child hm).evolves he
  · rw [kind] at hg
    obtain ⟨hd', heap, hp, ho⟩ := h.filled hg hm ho
    obtain ⟨hd'', ho'⟩ := he.done hd'
    obtain ⟨heap', hp', hx⟩ := moments he.heap heap hp
    rw [ho']
    exact ⟨hd'', heap', hp', ho.mono hx⟩
  · rw [kind] at hg
    by_cases hne : s = r
    · subst hne
      rw [hc] at hn
      exact ⟨_, .inr rfl, htotal g hg hn⟩
    · have ha := (other hne).1
      rw [ha.done] at hd'
      obtain ⟨heap, hp, ht⟩ := h.total hg hd' (ha.cancelled hn)
      obtain ⟨heap', hp', hx⟩ := moments he.heap heap hp
      rw [ha.outcome hd']
      exact ⟨heap', hp', ht.mono hx⟩
  · -- what `r` had as a parent expects it as before, and is owed its outcome now
    refine (expects d).2 ?_
    obtain hm | hm := List.mem_append.1 hm
    · obtain ⟨p, hp, rfl⟩ := List.mem_map.1 hm
      exact h.linked hp
    · exact h.due hm
  · by_cases hne : child = r
    · rw [hne, hb.parents] at hp
      contradiction
    · rw [(other hne).1.parents] at hp
      exact (expects _).2 (h.linked hp)
  · -- what the coroutine had as a parent is due now
    have honce := h.once ((expects d).1 hx)
    rw [List.count_append, count_owes]
    by_cases hne : d.child = r
    · rw [if_pos hne, hne, hb.parents, List.count_nil]
      rw [hne] at honce
      omega
    · rw [if_neg hne, (other hne).1.parents]
      omega
  · by_cases hne : child = r
    · rw [hne, hb.parents] at hp
      contradiction
    · have ha := (other hne).1
      rw [ha.parents] at hp
      exact (h.begun hp).imp_left fun hn hn' => hn (ha.new hn')
  · rw [kind] at hg
    by_cases hne : s = r
    · rw [hne, hs] at hst
      contradiction
    · exact h.rest hg ((other hne).1.gathers.1 hst) hf
  · obtain ⟨ready, hl⟩ := loop_settle w r outcome
    rw [hl] at hx
    rw [kind]
    exact (h.sleepers x hx).imp_left fun hx => hx.evolves he

/-- Someone else may be attended to if nothing more is to be done about the one before. -/
theorem focus (h : w.Accounts past f dues) (f' : Focus)
    (hs : ∀ r, f = .starting r → (w.coroutines.get r).stage ≠ .new)
    (he : ∀ r, f = .ending r → ∀ g, (w.coroutines.get r).kind = .gather g →
      (w.coroutines.get r).stage = .gatherWait → none ∈ g.slots) : w.Accounts past f' dues := by
  refine { h with begun := fun {child} hp => ?_, rest := fun {r g} hk hst _ => ?_ }
  · obtain hn | hf := h.begun hp
    · exact .inl hn
    · exact .inl (hs child hf)
  · by_cases hf : f = .ending r
    · exact he r hf g hk hst
    · exact h.rest hk hst hf

/-- A gather task whose slots are all filled ends with the total. -/
theorem conclude (h : w.Accounts past (.ending r) dues) {g : GatherState}
    (hg : w.completeGather? r = some g) :
    (w.conclude r g).Accounts past .nobody (w.owes r ++ dues) := by
  obtain ⟨hk, hd, hp⟩ := completeGather?_eq_some.1 hg
  have hr : w.Has r := has_of_gather hk
  let total := (g.outcome w.heap).1
  let w₁ : World := (w.onHeap g.outcome).2
  have h₁ : w₁.Accounts past (.ending r) dues := h.onHeap g.extends_outcome
  have hfull : none ∉ g.slots := by
    rw [(h.regular r).pending hk, List.countP_eq_zero] at hp
    exact fun hm => hp none hm rfl
  have settled := h₁.settle (finalOutcome (w.coroutines.get r) total) hr hd
    (fun g' hk' => ?_) fun g' hk' hn => ?_
  · refine settled.focus .nobody (fun _ hf => by contradiction) fun s hs _ _ hst => ?_
    obtain rfl := Focus.ending.inj hs
    obtain ⟨-, -, -, hdone, -⟩ := bare_settle w₁ (finalOutcome (w.coroutines.get r) total) hr
    rw [hdone] at hst
    contradiction
  · obtain rfl := CoroutineKind.gather.inj (hk.symm.trans hk')
    exact hfull
  · obtain rfl := CoroutineKind.gather.inj (hk.symm.trans hk')
    have hf : finalOutcome (w.coroutines.get r) total = total := by
      unfold finalOutcome
      cases total with
      | ok v =>
        have hn : (w.coroutines.get r).isCancelled = false := hn
        simp [hn]
      | error e => rfl
    rw [hf]
    obtain ⟨-, hm⟩ := outcome_settle w₁ total hr (h.regular r |>.fresh hd)
    exact g.totals_outcome w.heap (evolves_settle w₁ r total hd).heap hm.symm

/-- A child that is done reports to a slot it is due in. -/
theorem fill {d : Due} (h : w.Accounts past .nobody (d :: dues)) {outcome : Outcome}
    (hd : (w.coroutines.get d.child).isDone = true)
    (ho : w.heap.MirrorsOutcome (w.coroutines.get d.child).outcome outcome) :
    (w.fillSlot d.task d.slot outcome).Accounts past (.ending d.task) dues := by
  have hexp := h.due List.mem_cons_self
  obtain ⟨g, hk, hst, hchild, hslot⟩ := h.due List.mem_cons_self
  have hnd : (w.coroutines.get d.task).isDone = false := by rw [isDone, hst]; rfl
  have stage := field_fillSlot w d.task d.slot outcome Coroutine.stage fun _ _ => rfl
  have done := field_fillSlot w d.task d.slot outcome Coroutine.isDone fun _ _ => rfl
  have outcomes := field_fillSlot w d.task d.slot outcome Coroutine.outcome fun _ _ => rfl
  have parents := field_fillSlot w d.task d.slot outcome Coroutine.parents fun _ _ => rfl
  have cancelled := field_fillSlot w d.task d.slot outcome Coroutine.isCancelled fun _ _ => rfl
  have kind {s : Ref .coroutine} {k : GatherState}
      (hs : ((w.fillSlot d.task d.slot outcome).coroutines.get s).kind = .gather k) :
      s = d.task ∧ k = g.fill d.slot outcome ∨ s ≠ d.task ∧ (w.coroutines.get s).kind = .gather k :=
    kind_fillSlot hk hnd hs
  have expects (e : Due) : (w.fillSlot d.task d.slot outcome).Expects e ↔ w.Expects e ∧ e ≠ d :=
    expects_fillSlot hk hst hchild hslot e
  have he : Evolves w (w.fillSlot d.task d.slot outcome) := evolves_fillSlot w _ _ _
  have honce := h.once hexp
  rw [List.count_cons_self] at honce
  refine ⟨fun s => ?_, fun {s k} hg child hm => ?_, fun {s child k i o} hg hm ho' => ?_,
    fun {s k} hg hd' hn => ?_, fun {e} hm => ?_, fun {child p} hp => ?_, fun {e} hx => ?_,
    fun {child} hp => ?_, fun {s k} hg hs hf => ?_, fun x hx => ?_⟩
  · by_cases hne : s = d.task
    · rw [hne, get_fillSlot hk hnd]
      exact (h.regular d.task).fill hk hst hslot
    · rw [get_fillSlot_of_ne w hne]
      exact h.regular s
  · obtain ⟨-, rfl⟩ | ⟨-, hg⟩ := kind hg
    · rw [GatherState.children_fill] at hm
      exact (h.children hk child hm).evolves he
    · exact (h.children hg child hm).evolves he
  · rw [done, outcomes]
    obtain ⟨rfl, rfl⟩ | ⟨-, hg⟩ := kind hg
    · rw [GatherState.children_fill] at hm
      -- the slot that was filled, or another one
      obtain ⟨rfl, rfl⟩ | ⟨-, ho'⟩ := GatherState.slot_fill hslot ho'
      · obtain rfl : d.child = child := Option.some.inj (hchild.symm.trans hm)
        exact ⟨hd, w.heap, .inr rfl, ho⟩
      · exact h.filled hk hm ho'
    · exact h.filled hg hm ho'
  · rw [done] at hd'
    rw [cancelled] at hn
    rw [outcomes]
    obtain ⟨rfl, -⟩ | ⟨-, hg⟩ := kind hg
    · rw [hnd] at hd'
      contradiction
    · exact h.total hg hd' hn
  · refine (expects e).2 ⟨h.due (List.mem_cons_of_mem d hm), ?_⟩
    rintro rfl
    have := List.count_pos_iff.2 hm
    omega
  · rw [parents] at hp
    refine (expects _).2 ⟨h.linked hp, fun he => ?_⟩
    have hm : (d.task, d.slot) ∈ (w.coroutines.get d.child).parents := by
      rw [← he]
      exact hp
    have := List.count_pos_iff.2 hm
    omega
  · obtain ⟨hx, hne⟩ := (expects e).1 hx
    have hthis := h.once hx
    rw [List.count_cons_of_ne hne.symm] at hthis
    rwa [parents]
  · rw [parents] at hp
    rw [stage]
    obtain hn | hf := h.begun hp
    · exact .inl hn
    · contradiction
  · obtain ⟨rfl, -⟩ | ⟨-, hg⟩ := kind hg
    · exact absurd rfl hf
    · rw [stage] at hs
      exact h.rest hg hs (by simp)
  · obtain ⟨hx, wake, ht⟩ := h.sleepers x hx
    have hne : x.2 ≠ d.task := by
      intro he
      rw [he, hk] at ht
      contradiction
    rw [get_fillSlot_of_ne w hne]
    exact ⟨hx.evolves he, wake, ht⟩

theorem report {d : Due} (h : w.Accounts past .nobody (d :: dues)) {outcome : Outcome}
    (hd : (w.coroutines.get d.child).isDone = true)
    (ho : w.heap.MirrorsOutcome (w.coroutines.get d.child).outcome outcome) :
    (w.report outcome d.task d.slot).Accounts past (.ending d.task) dues := by
  have he := Heap.extends_duplicateOutcome outcome w.heap
  have copied : (w.copyOutcome outcome).2.Accounts past .nobody (d :: dues) :=
    h.onHeap (Heap.extends_duplicateOutcome outcome)
  exact copied.fill hd ((ho.mono he).trans (Heap.mirrors_duplicateOutcome outcome w.heap))

/-- A gather task that expects a child becomes a parent of it. -/
theorem link {d : Due} (h : w.Accounts past .nobody (d :: dues))
    (hd : (w.coroutines.get d.child).isDone = false) :
    (w.link d).Accounts past (.starting d.child) dues := by
  have hexp := h.due List.mem_cons_self
  have hc : w.Has d.child := by
    obtain ⟨g, hk, -, hchild, -⟩ := hexp
    exact h.children hk _ (List.mem_of_getElem? hchild)
  have self : (w.link d).coroutines.get d.child = { w.coroutines.get d.child with
      parents := (w.coroutines.get d.child).parents ++ [(d.task, d.slot)] } :=
    get_modifyCoroutine w d.child _ hc
  have other {s : Ref .coroutine} (hne : s ≠ d.child) :
      (w.link d).coroutines.get s = w.coroutines.get s := get_modifyCoroutine_of_ne w d.child _ hne
  -- apart from its parents nothing of the child is changed
  have stage := field_link w d Coroutine.stage fun _ _ => rfl
  have done := field_link w d Coroutine.isDone fun _ _ => rfl
  have outcomes := field_link w d Coroutine.outcome fun _ _ => rfl
  have kind := field_link w d Coroutine.kind fun _ _ => rfl
  have cancelled := field_link w d Coroutine.isCancelled fun _ _ => rfl
  have expects (e : Due) : (w.link d).Expects e ↔ w.Expects e := by
    unfold Expects
    rw [kind, stage]
  have he : Evolves w (w.link d) := .of_modify fun c _ => .single (.parent c d.task d.slot)
  refine ⟨fun s => ?_, fun {s g} hg child hm => ?_, fun {s child g i o} hg hm ho => ?_,
    fun {s g} hg hd' hn => ?_, fun {e} hm => ?_, fun {child p} hp => ?_, fun {e} hx => ?_,
    fun {child} hp => ?_, fun {s g} hg hs hf => ?_, fun x hx => ?_⟩
  · by_cases hne : s = d.child
    · rw [hne, self]
      exact (h.regular d.child).parents hd _
    · rw [other hne]
      exact h.regular s
  · rw [kind] at hg
    exact (h.children hg child hm).evolves he
  · rw [kind] at hg
    rw [done, outcomes]
    exact h.filled hg hm ho
  · rw [kind] at hg
    rw [done] at hd'
    rw [cancelled] at hn
    rw [outcomes]
    exact h.total hg hd' hn
  · exact (expects e).2 (h.due (List.mem_cons_of_mem d hm))
  · refine (expects _).2 ?_
    by_cases hne : child = d.child
    · rw [hne, self] at hp
      obtain hp | hp := List.mem_append.1 hp
      · rw [hne]
        exact h.linked hp
      · rw [List.mem_singleton.1 hp, hne]
        exact hexp
    · rw [other hne] at hp
      exact h.linked hp
  · -- what was due is expected of the child now
    have honce := h.once ((expects e).1 hx)
    by_cases hne : e.child = d.child
    · rw [hne] at honce ⊢
      rw [self, List.count_append, List.count_singleton]
      rw [List.count_cons, Due.beq_of_child hne.symm] at honce
      omega
    · rw [other hne]
      rw [List.count_cons_of_ne fun he => hne (congrArg Due.child he).symm] at honce
      exact honce
  · rw [stage]
    by_cases hne : child = d.child
    · exact .inr (hne ▸ rfl)
    · rw [other hne] at hp
      obtain hn | hf := h.begun hp
      · exact .inl hn
      · contradiction
  · rw [kind] at hg
    rw [stage] at hs
    exact h.rest hg hs (by simp)
  · rw [kind]
    exact (h.sleepers x hx).imp_left fun hx => hx.evolves he

/-! ### Starts -/

theorem mem_expects {children : List (Ref .coroutine)} {d : Due} :
    d ∈ World.expects r children ↔ d.task = r ∧ children[d.slot]? = some d.child := by
  constructor
  · intro hd
    obtain ⟨⟨child, slot⟩, hm, rfl⟩ := List.mem_map.1 hd
    exact ⟨rfl, List.mem_zipIdx_iff_getElem?.1 hm⟩
  · rintro ⟨rfl, hc⟩
    exact List.mem_map.2 ⟨(d.child, d.slot), List.mem_zipIdx_iff_getElem?.2 hc, rfl⟩

theorem nodup_expects (r : Ref .coroutine) (children : List (Ref .coroutine)) :
    (World.expects r children).Nodup := by
  refine List.Nodup.of_map Due.slot ?_
  have hslots : (World.expects r children).map Due.slot = children.zipIdx.map Prod.snd := by
    rw [World.expects, List.map_map]
    rfl
  rw [hslots, List.zipIdx_map_snd]
  exact List.nodup_range'

/-- A new coroutine joins the loop; if it is a gather task, the outcomes of all its children are
due. -/
theorem enroll (h : w.Accounts past (.starting r) dues) (stage : Stage) (hr : w.Has r)
    (hn : (w.coroutines.get r).stage = .new) (hsn : stage ≠ .new) (hsd : stage ≠ .done)
    (hfit : Coroutine.Fits { w.coroutines.get r with stage }) :
    (w.enroll r stage).Accounts past (.ending r)
      (World.expects r (w.coroutines.get r).children ++ dues) := by
  have self : (w.enroll r stage).coroutines.get r = { w.coroutines.get r with stage } :=
    get_modifyCoroutine w r _ hr
  have other {s : Ref .coroutine} (hne : s ≠ r) :
      (w.enroll r stage).coroutines.get s = w.coroutines.get s := get_enroll_of_ne w r stage hne
  have kind := field_enroll w r stage Coroutine.kind fun _ _ => rfl
  have parents := field_enroll w r stage Coroutine.parents fun _ _ => rfl
  have outcomes := field_enroll w r stage Coroutine.outcome fun _ _ => rfl
  have cancelled := field_enroll w r stage Coroutine.isCancelled fun _ _ => rfl
  have hnd : (w.coroutines.get r).isDone = false := by rw [isDone, hn]; rfl
  have done (s : Ref .coroutine) :
      ((w.enroll r stage).coroutines.get s).isDone = (w.coroutines.get s).isDone := by
    by_cases hne : s = r
    · rw [hne, self, hnd]
      exact beq_eq_false_iff_ne.2 hsd
    · rw [other hne]
  -- a gather task that was new has expected nothing so far, and expects all its children now
  have before (d : Due) (ht : d.task = r) : ¬ w.Expects d := by
    rintro ⟨g, -, hs, -⟩
    rw [ht, hn] at hs
    contradiction
  have after (d : Due) (ht : d.task = r) :
      (w.enroll r stage).Expects d ↔ (w.coroutines.get r).children[d.slot]? = some d.child :=
    expects_enroll (h.regular r) hr hn hsn hsd hfit ht
  have expects (d : Due) (ht : d.task ≠ r) : (w.enroll r stage).Expects d ↔ w.Expects d := by
    unfold Expects
    rw [other ht]
  have notDue (d : Due) (ht : d.task = r) : dues.count d = 0 :=
    List.count_eq_zero.2 fun hm => before d ht (h.due hm)
  have has {s : Ref .coroutine} (hs : w.Has s) : (w.enroll r stage).Has s := by
    rw [has_iff] at hs ⊢
    exact Nat.lt_of_lt_of_eq hs (Arena.size_modify _ _ _).symm
  refine ⟨fun s => ?_, fun {s g} hg child hm => ?_, fun {s child g i o} hg hm ho => ?_,
    fun {s g} hg hd' hn => ?_, fun {d} hm => ?_, fun {child p} hp => ?_, fun {d} hx => ?_,
    fun {child} hp => ?_, fun {s g} hg hs hf => ?_, fun x hx => ?_⟩
  · by_cases hne : s = r
    · rw [hne, self]
      exact (h.regular r).enroll hnd hsn hsd hfit
    · rw [other hne]
      exact h.regular s
  · rw [kind] at hg
    exact has (h.children hg child hm)
  · rw [kind] at hg
    rw [done, outcomes]
    exact h.filled hg hm ho
  · rw [kind] at hg
    rw [done] at hd'
    rw [cancelled] at hn
    rw [outcomes]
    exact h.total hg hd' hn
  · obtain hm | hm := List.mem_append.1 hm
    · obtain ⟨ht, hc⟩ := mem_expects.1 hm
      exact (after d ht).2 hc
    · exact (expects d fun ht => before d ht (h.due hm)).2 (h.due hm)
  · rw [parents] at hp
    exact (expects _ fun ht => before _ ht (h.linked hp)).2 (h.linked hp)
  · rw [parents, List.count_append]
    by_cases ht : d.task = r
    · have hcount : (World.expects r (w.coroutines.get r).children).count d = 1 :=
        List.count_eq_one_of_mem (nodup_expects r _) (mem_expects.2 ⟨ht, (after d ht).1 hx⟩)
      have hpar : (w.coroutines.get d.child).parents.count (d.task, d.slot) = 0 :=
        List.count_eq_zero.2 fun hm => before d ht (h.linked hm)
      rw [hcount, hpar, notDue d ht]
    · have hcount : (World.expects r (w.coroutines.get r).children).count d = 0 :=
        List.count_eq_zero.2 fun hm => ht (mem_expects.1 hm).1
      have honce := h.once ((expects d ht).1 hx)
      omega
  · left
    by_cases hne : child = r
    · rw [hne, self]
      exact hsn
    · rw [parents] at hp
      rw [other hne]
      exact (h.begun hp).resolve_right fun hf => hne (Focus.starting.inj hf).symm
  · rw [kind] at hg
    have hne : s ≠ r := fun he => hf (he ▸ rfl)
    rw [other hne] at hs
    exact h.rest hg hs (by simp)
  · rw [kind]
    exact (h.sleepers x hx).imp_left has

/-- One that is no gather task has nothing more to do when it has joined. -/
theorem joined (h : w.Accounts past (.ending r) dues)
    (hk : ∀ g, (w.coroutines.get r).kind ≠ .gather g) : w.Accounts past .nobody dues := by
  refine h.focus .nobody (fun _ hf => by contradiction) fun s hs g hg _ => ?_
  obtain rfl := Focus.ending.inj hs
  exact absurd hg (hk g)

/-- The queue takes no part in the books. -/
theorem enqueue (h : w.Accounts past f dues) (r : Ref .coroutine) :
    (w.enqueue r).Accounts past f dues := h.congr (.refl _) rfl fun _ => id

theorem mem_insertSleeper {sleepers : List (Nat × Ref .coroutine)} {wake : Nat}
    {r : Ref .coroutine} {x : Nat × Ref .coroutine} :
    x ∈ insertSleeper sleepers wake r ↔ x = (wake, r) ∨ x ∈ sleepers := by
  have hsplit : x ∈ sleepers ↔ x ∈ sleepers.takeWhile (·.1 ≤ wake) ∨
      x ∈ sleepers.dropWhile (·.1 ≤ wake) := by
    rw [← List.mem_append, List.takeWhile_append_dropWhile]
  rw [insertSleeper, List.mem_append, List.mem_cons, hsplit]
  exact or_left_comm

end Accounts

/-- The books agree through everything that follows from an end or a start. -/
theorem accounts_kept (past : Heap → Prop) :
    Kept fun f dues w => w.Accounts past f dues := by
  refine ⟨fun {f dues w r} h => (h.regular r).fresh, fun {f dues w d} h hd => ?_,
    fun {dues w} f h => ?_, fun {dues w r} h hs => ?_, fun {dues w r} h hr => ?_,
    fun h hg => h.conclude hg, fun h hd ho => h.report hd ho, fun h hd => h.link hd,
    fun {dues w r f owner} h hr hn hk => ?_, fun {dues w r wake} h hr hn hk => ?_,
    fun {dues w r g} h hr hn hk => ?_⟩
  · -- an attended child is there
    obtain ⟨g, hk, -, hchild, -⟩ := h.due hd
    exact h.children hk _ (List.mem_of_getElem? hchild)
  · -- nobody is attended to between two dues
    exact h.focus f (fun _ hf => by contradiction) fun _ hf => by contradiction
  · refine h.focus .nobody (fun s hf => ?_) fun _ hf => by contradiction
    exact Focus.starting.inj hf ▸ hs
  · refine h.focus .nobody (fun _ hf => by contradiction) fun s hf g hk hst => ?_
    obtain rfl := Focus.ending.inj hf
    obtain hg | ⟨d, hd, rfl⟩ := hr
    · -- it is not complete, so some slot is empty
      have hnd : (w.coroutines.get r).isDone = false := by rw [isDone, hst]; rfl
      have hp : g.pending ≠ 0 := fun hp => by
        rw [completeGather?_eq_some.2 ⟨hk, hnd, hp⟩] at hg
        contradiction
      rw [(h.regular r).pending hk] at hp
      obtain ⟨slot, hm, hs⟩ := List.countP_pos_iff.1 (Nat.pos_of_ne_zero hp)
      rwa [Option.isNone_iff_eq_none.1 hs] at hm
    · obtain ⟨g', hk', -, -, hslot⟩ := h.due hd
      obtain rfl := CoroutineKind.gather.inj (hk.symm.trans hk')
      exact List.mem_of_getElem? hslot
  · -- a script has no children, so none are due
    have hc : (w.coroutines.get r).children = [] := by rw [Coroutine.children, hk]
    have hfit : Coroutine.Fits { w.coroutines.get r with stage := .runnable } :=
      fits_of_script hk (by simp) (by simp)
    have h₁ := h.enroll .runnable hr hn (by simp) (by simp) hfit
    rw [hc] at h₁
    refine Accounts.enqueue (h₁.joined fun g hg => ?_) r
    rw [enroll, noteStarted, get_modifyCoroutine w r _ hr, hk] at hg
    contradiction
  · -- nor has a timer, and it is on the list of those that sleep
    have hc : (w.coroutines.get r).children = [] := by rw [Coroutine.children, hk]
    have hself : (w.enroll r .suspendedTimer).coroutines.get r =
        { w.coroutines.get r with stage := .suspendedTimer } := get_modifyCoroutine w r _ hr
    have hfit : Coroutine.Fits { w.coroutines.get r with stage := .suspendedTimer } := by
      unfold Coroutine.Fits
      rw [hk]
      exact .inr (.inl rfl)
    have h₁ := h.enroll .suspendedTimer hr hn (by simp) (by simp) hfit
    rw [hc] at h₁
    have h₂ : (w.enroll r .suspendedTimer).Accounts past .nobody dues := by
      refine h₁.joined fun g hg => ?_
      rw [hself, hk] at hg
      contradiction
    refine ⟨h₂.regular, h₂.children, h₂.filled, h₂.total, h₂.due, h₂.linked, h₂.once, h₂.begun,
      h₂.rest, fun x hx => ?_⟩
    obtain rfl | hx := Accounts.mem_insertSleeper.1 hx
    · refine ⟨has_iff.2 (Nat.lt_of_lt_of_eq (has_iff.1 hr) (Arena.size_modify _ _ _).symm), wake, ?_⟩
      show ((w.enroll r .suspendedTimer).coroutines.get r).kind = _
      rw [hself, hk]
    · exact h₂.sleepers x hx
  · -- what a gather task waits for is due from each of its children
    have hc : (w.coroutines.get r).children = g.children := by rw [Coroutine.children, hk]
    have hfit : Coroutine.Fits { w.coroutines.get r with stage := .gatherWait } := by
      unfold Coroutine.Fits
      rw [hk]
      exact .inr (.inl rfl)
    have h₁ := h.enroll .gatherWait hr hn (by simp) (by simp) hfit
    rwa [hc] at h₁

end World

end Rewind
