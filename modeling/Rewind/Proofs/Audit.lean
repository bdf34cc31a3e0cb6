/-
The books agree in every session.

Whatever a session does, what a coroutine's record says agrees with the records of all others, loop
after loop.

* `flagWithin_keeps`, `cancel_keeps` — what is kept when coroutines are cancelled;
* `Accounts.finish`, `Accounts.start`, `Accounts.cancel`, … — the books agree after each transition;
* `Step.accounts` — and after each step;
* `Coroutine.Later`, `Steps.later` — what stays with a coroutine for good.
-/
import Rewind.Proofs.Accounts

namespace Rewind

open Coroutine World

namespace World

/-! ### Cancelling -/

/-- What is kept when one coroutine is flagged is kept when all that one gathers are. -/
theorem flagWithin_keeps {P : World → Prop}
    (hP : ∀ w r, P w → (w.coroutines.get r).isDone = false →
      (w.coroutines.get r).isCancelled = false →
      P (w.modifyCoroutine r fun c => { c with isCancelled := true }))
    (depth : Nat) {w : World} (r : Ref .coroutine) (h : P w) : P (flagWithin depth w r).2 := by
  induction depth generalizing w r with
  | zero => exact h
  | succ depth ih =>
    simp only [flagWithin]
    by_cases hd : (w.coroutines.get r).isDone = true ∨ (w.coroutines.get r).isCancelled = true
    · rw [if_pos (by simpa using hd)]
      exact h
    · rw [if_neg (by simpa using hd)]
      obtain ⟨hd, hc⟩ := not_or.1 hd
      have children (l : List (Ref .coroutine)) (p : List (Ref .coroutine) × World) (hp : P p.2) :
          P (l.foldl (fun p child =>
            (p.1 ++ (flagWithin depth p.2 child).1, (flagWithin depth p.2 child).2)) p).2 := by
        induction l generalizing p with
        | nil => exact hp
        | cons child l ihl => exact ihl _ (ih child hp)
      exact children _ _ (hP w r h (Bool.eq_false_iff.2 hd) (Bool.eq_false_iff.2 hc))

/-- What is kept when the cancellation reaches one coroutine is kept when it reaches all of a list. -/
theorem deliver_keeps {P : World → Prop}
    (hP : ∀ w r, P w → (∀ c, w.coroutines.get? r = some c → c.isCancelled = true) →
      P (w.deliverCancellation r))
    {l : List (Ref .coroutine)} {w : World} (h : P w) (hl : Flagged (l, w)) :
    P (l.foldl deliverCancellation w) := by
  induction l generalizing w with
  | nil => exact h
  | cons x l ih =>
    have hx : ∀ c, w.coroutines.get? x = some c → c.isCancelled = true := hl x List.mem_cons_self
    refine ih (hP w x h hx) (Flagged.events (a := none) (fun s hs => ?_)
      (events_deliverCancellation w x (active_none w) hx))
    exact hl s (List.mem_cons_of_mem x hs)

theorem flagged_flagCancelled (w : World) (r : Ref .coroutine) : Flagged (w.flagCancelled r) :=
  (events_flagWithin (a := none) (w.coroutines.size + 1) w r).2

/-- What is kept when one coroutine is flagged, and when the cancellation reaches one that is, is kept
when a coroutine is cancelled. -/
theorem cancel_keeps {P : World → Prop}
    (hflag : ∀ w r, P w → (w.coroutines.get r).isDone = false →
      (w.coroutines.get r).isCancelled = false →
      P (w.modifyCoroutine r fun c => { c with isCancelled := true }))
    (hdeliver : ∀ w r, P w → (∀ c, w.coroutines.get? r = some c → c.isCancelled = true) →
      P (w.deliverCancellation r))
    {w : World} (r : Ref .coroutine) (h : P w) : P (w.cancel r).2 :=
  deliver_keeps hdeliver (flagWithin_keeps hflag (w.coroutines.size + 1) r h)
    (flagged_flagCancelled w r)

namespace Accounts

variable {past past' : Heap → Prop} {w w' : World} {r : Ref .coroutine}

/-! ### Transitions -/

theorem finish (h : w.Accounts past .nobody []) (outcome : Outcome) (hr : w.Has r)
    (hk : ∀ g, (w.coroutines.get r).kind ≠ .gather g) :
    (w.finish r outcome).Accounts past .nobody [] := by
  by_cases hd : (w.coroutines.get r).isDone = true
  · rwa [World.finish, finishWithin, if_pos hd]
  · have hd := Bool.eq_false_iff.2 hd
    exact (accounts_kept past).finish hr hd ((h.regular r).fresh hd)
      (h.settle _ hr hd (fun g hg => absurd hg (hk g)) fun g hg => absurd hg (hk g))

theorem start (h : w.Accounts past .nobody []) (hr : w.Has r) :
    (w.start r).Accounts past .nobody [] := (accounts_kept past).start hr h

/-- The loop changes, but no timer sleeps that has not before. -/
theorem loop (h : w.Accounts past .nobody []) (loop : EventLoop)
    (hl : ∀ x ∈ loop.sleepers, x ∈ w.loop.sleepers) :
    World.Accounts past .nobody [] { w with loop } := h.congr (.refl _) rfl hl

theorem openLoop (h : w.Accounts past .nobody []) : w.openLoop.Accounts past .nobody [] :=
  h.loop _ fun _ hx => absurd hx List.not_mem_nil

theorem flag (h : w.Accounts past .nobody []) (r : Ref .coroutine) :
    (w.modifyCoroutine r fun c => { c with isCancelled := true }).Accounts past .nobody [] := by
  have ha : (w.coroutines.get r).Alike { w.coroutines.get r with isCancelled := true } :=
    ⟨rfl, rfl, id, Iff.rfl, rfl, fun _ => rfl, fun hc => by contradiction⟩
  have hr := h.regular r
  exact h.modify r _ ha (hr.alike ha hr.fits rfl (fun _ => ⟨rfl, rfl⟩) fun hd =>
    have hb := hr.bare hd
    ⟨hb.waiters, hb.parents, hb.awaiting, hb.scope, hb.frames⟩)

theorem flagCancelled (h : w.Accounts past .nobody []) (r : Ref .coroutine) :
    (w.flagCancelled r).2.Accounts past .nobody [] :=
  flagWithin_keeps (P := fun w => w.Accounts past .nobody []) (fun _ r h _ _ => h.flag r) _ r h

/-- A coroutine in a turn changes in what it waits for and goes on with, and its turn may be
suspended or go on. -/
theorem inTurn (h : w.Accounts past .nobody []) (hr : w.Acts r) (g : Coroutine → Coroutine)
    (hg : ∀ c, (g c).kind = c.kind ∧ (g c).parents = c.parents ∧ (g c).exception = c.exception ∧
      (g c).isCancelled = c.isCancelled ∧
      ((g c).stage = c.stage ∨ (g c).stage = .runnable ∨ (g c).stage = .suspendedAwait)) :
    (w.modifyCoroutine r g).Accounts past .nobody [] := by
  obtain ⟨hk, hp, he, hc, hst⟩ := hg (w.coroutines.get r)
  obtain ⟨hs, f, owner, hscript⟩ := hr
  have hs' : (g (w.coroutines.get r)).stage = .runnable ∨ (g (w.coroutines.get r)).stage = .running ∨
      (g (w.coroutines.get r)).stage = .suspendedAwait := by
    obtain hst | hst | hst := hst
    · rwa [hst]
    · exact .inl hst
    · exact .inr (.inr hst)
  -- on none of these stages is the coroutine done
  have done {c : Coroutine} (hs : c.stage = .runnable ∨ c.stage = .running ∨
      c.stage = .suspendedAwait) : c.isDone = false := by
    obtain hs | hs | hs := hs <;> simp [isDone, hs]
  have ha : (w.coroutines.get r).Alike (g (w.coroutines.get r)) := by
    refine ⟨hk, hp, fun hn => ?_, ?_, (done hs').trans (done hs).symm, fun hd => ?_,
      fun hc' => hc.symm.trans hc'⟩
    · simp [hn] at hs'
    · obtain hs | hs | hs := hs <;> obtain hs' | hs' | hs' := hs' <;> simp [hs, hs']
    · rw [done hs] at hd
      contradiction
  refine h.modify r g ha ((h.regular r).alike ha ?_ he (fun hn => ?_) fun hd => ?_)
  · refine fits_of_script (hk.trans hscript) (fun hn => ?_) fun hn => ?_
    all_goals simp [hn] at hs'
  · simp [hn] at hs
  · rw [done hs] at hd
    contradiction

/-- A suspended coroutine changes in what it waits for, and may go on. -/
theorem awaited (h : w.Accounts past .nobody []) (g : Coroutine → Coroutine)
    (hs : (w.coroutines.get r).stage = .suspendedAwait)
    (hg : ∀ c, (g c).kind = c.kind ∧ (g c).parents = c.parents ∧ (g c).exception = c.exception ∧
      (g c).isCancelled = c.isCancelled ∧ ((g c).stage = c.stage ∨ (g c).stage = .runnable)) :
    (w.modifyCoroutine r g).Accounts past .nobody [] :=
  h.inTurn ⟨.inr (.inr hs), (h.regular r).script (.inl hs)⟩ g fun c =>
    have ⟨hk, hp, he, hc, hst⟩ := hg c
    ⟨hk, hp, he, hc, hst.imp_right .inl⟩

theorem wake (h : w.Accounts past .nobody []) (r : Ref .coroutine) (outcome : Outcome) :
    (w.wake r outcome).Accounts past .nobody [] := by
  unfold World.wake
  by_cases hs : (w.coroutines.get r).stage = .suspendedAwait
  · rw [if_pos hs]
    exact (h.awaited (fun c => c.woken outcome) hs fun _ => ⟨rfl, rfl, rfl, rfl, .inr rfl⟩).enqueue r
  · rw [if_neg hs]
    exact h

/-- The list of those that wait for a coroutine is changed, unless the coroutine has to have none. -/
theorem waiters (h : w.Accounts past .nobody []) (t : Ref .coroutine)
    (g : List (Ref .coroutine) → List (Ref .coroutine))
    (hg : g [] = [] ∨ (w.coroutines.get t).stage ≠ .new ∧ (w.coroutines.get t).isDone = false) :
    (w.modifyCoroutine t fun c => { c with waiters := g c.waiters }).Accounts past .nobody [] := by
  have hr := h.regular t
  have ha : (w.coroutines.get t).Alike
      { w.coroutines.get t with waiters := g (w.coroutines.get t).waiters } :=
    ⟨rfl, rfl, id, Iff.rfl, rfl, fun _ => rfl, id⟩
  refine h.modify t _ ha (hr.alike ha hr.fits rfl (fun hn => ⟨?_, rfl⟩) fun hd => ?_)
  · obtain hg | ⟨hg, -⟩ := hg
    · show g _ = _
      rw [hr.waiters hn, hg]
    · exact absurd hn hg
  · have hb := hr.bare hd
    refine ⟨?_, hb.parents, hb.awaiting, hb.scope, hb.frames⟩
    obtain hg | ⟨-, hg⟩ := hg
    · show g _ = _
      rw [hb.waiters, hg]
    · exact absurd (hd.symm.trans hg) (by simp)

theorem forgo (h : w.Accounts past .nobody []) (r : Ref .coroutine)
    (awaited : Option (Ref .coroutine)) : (w.forgo r awaited).Accounts past .nobody [] := by
  cases awaited with
  | none => exact h
  | some t => exact h.waiters t (List.filter (· != r)) (.inl rfl)

theorem deliverCancellation (h : w.Accounts past .nobody []) (r : Ref .coroutine) :
    (w.deliverCancellation r).Accounts past .nobody [] := by
  cases hs : (w.coroutines.get r).stage with
  | suspendedAwait =>
    simp only [World.deliverCancellation, hs]
    exact ((h.awaited (fun c => { c with cancelDelivered := true, awaiting := none }) hs
      fun _ => ⟨rfl, rfl, rfl, rfl, .inl rfl⟩).forgo r _).wake r _
  | suspendedTimer =>
    simp only [World.deliverCancellation, hs]
    have hr : w.Has r := get?_of_stage (by rw [hs]; simp)
    refine Accounts.finish (h.loop _ fun x hx => List.mem_of_mem_filter hx) _ hr fun g hg => ?_
    have hf := (h.regular r).fits
    unfold Coroutine.Fits at hf
    rw [show (w.coroutines.get r).kind = .gather g from hg] at hf
    simp [hs] at hf
  | _ =>
    simp only [World.deliverCancellation, hs]
    exact h

theorem cancel (h : w.Accounts past .nobody []) (r : Ref .coroutine) :
    (w.cancel r).2.Accounts past .nobody [] :=
  cancel_keeps (P := fun w => w.Accounts past .nobody []) (fun _ r h _ _ => h.flag r)
    (fun _ r h _ => h.deliverCancellation r) r h

theorem pollSleepers (h : w.Accounts past .nobody []) :
    w.pollSleepers.Accounts past .nobody [] := by
  have finished (l : List (Nat × Ref .coroutine)) (w : World) (hw : w.Accounts past .nobody [])
      (hl : ∀ x ∈ l, w.Has x.2 ∧ ∃ wake, (w.coroutines.get x.2).kind = .timer wake) :
      (l.foldl (fun w x => w.finish x.2 (.ok .null)) w).Accounts past .nobody [] := by
    induction l generalizing w with
    | nil => exact hw
    | cons x l ih =>
      obtain ⟨hx, wake, hk⟩ := hl x List.mem_cons_self
      have he : Evolves w (w.finish x.2 (.ok .null)) :=
        (events_finish (a := none) w x.2 _ (active_none w) (by simp)).evolves
      refine ih _ (hw.finish _ hx fun g hg => by rw [hk] at hg; contradiction) fun y hy => ?_
      obtain ⟨hy, wake', hk'⟩ := hl y (List.mem_cons_of_mem x hy)
      refine ⟨hy.evolves he, wake', ?_⟩
      obtain ⟨c, hc, hcc⟩ := he.changes hy
      rw [get_of_get? hc, hcc.kind fun g hg => by rw [hk'] at hg; contradiction, hk']
  have hdrop : ∀ x ∈ w.loop.sleepers.dropWhile (·.1 ≤ w.loop.now), x ∈ w.loop.sleepers :=
    fun x hx => (List.dropWhile_suffix _).subset hx
  exact finished _ _ (h.loop _ hdrop) fun x hx =>
    h.sleepers x ((List.takeWhile_prefix _).subset hx)

theorem releaseLinks (h : w.Accounts past .nobody []) (r : Ref .coroutine) :
    (w.releaseLinks r).Accounts past .nobody [] := by
  have hr := h.regular r
  let c' : Coroutine := { w.coroutines.get r with
    waiters := [], awaiting := none, scope := none, frames := [], tape := Tape.reset }
  have ha : (w.coroutines.get r).Alike c' := ⟨rfl, rfl, id, Iff.rfl, rfl, fun _ => rfl, id⟩
  have released := h.modify r (fun c => { c with
    waiters := [], awaiting := none, scope := none, frames := [], tape := Tape.reset }) ha
    (hr.alike ha hr.fits rfl (fun hn => ⟨(hr.waiters hn).symm, (hr.awaiting hn).symm⟩)
      fun hd => ⟨rfl, (hr.bare hd).parents, rfl, rfl, rfl⟩)
  simp only [World.releaseLinks]
  split
  · exact released.congr (.refl _) rfl fun _ => id
  · exact released

theorem teardown (h : w.Accounts past .nobody []) : w.teardown.Accounts past .nobody [] := by
  have released (l : List (Ref .coroutine)) (w : World) (hw : w.Accounts past .nobody []) :
      (l.foldl World.releaseLinks w).Accounts past .nobody [] := by
    induction l generalizing w with
    | nil => exact hw
    | cons r l ih => exact ih _ (hw.releaseLinks r)
  exact (released _ _ h).openLoop

/-! ### Steps -/

/-- The record of a coroutine that is made is regular: no slot of a new gather task is filled. -/
theorem regular_new {kind : CoroutineKind} (hk : w.Admits kind) (serial : Nat) (name : String)
    (scope : Option (Ref .scope)) : ({ serial, name, kind, scope } : Coroutine).Regular := by
  refine ⟨?_, fun _ => rfl, fun _ => rfl, fun _ => rfl, fun hd => by contradiction,
    fun {g} hg => ?_, fun {g} hg => ?_, fun {g} hg _ slot hm => ?_, fun _ hd => by contradiction⟩
  · unfold Coroutine.Fits
    cases kind with
    | script => exact ⟨by simp, by simp⟩
    | _ => exact .inl rfl
  all_goals obtain ⟨children, flag, rfl, -⟩ := hk g hg
  · exact List.length_replicate
  · simp [GatherState.ofChildren, List.countP_replicate]
  · exact (List.mem_replicate.1 hm).2

/-- A coroutine is made. -/
theorem push (h : w.Accounts past .nobody []) (serial : Nat) (name : String) {kind : CoroutineKind}
    (scope : Option (Ref .scope)) (hk : w.Admits kind) :
    World.Accounts past .nobody []
      { w with coroutines := w.coroutines.push { serial, name, kind, scope } } := by
  let x : Coroutine := { serial, name, kind, scope }
  let v : World := { w with coroutines := w.coroutines.push x }
  have old {s : Ref .coroutine} (hs : w.Has s) : v.coroutines.get s = w.coroutines.get s :=
    get_push hs x
  have has {s : Ref .coroutine} (hs : w.Has s) : v.Has s := has_push hs x
  -- whoever has joined a loop, or is a gather task, is the new one or was there before
  have there {s : Ref .coroutine} (hs : (w.coroutines.get s).stage ≠ .new) : w.Has s :=
    get?_of_stage hs
  have joined {s : Ref .coroutine} (hs : (v.coroutines.get s).stage ≠ .new) : w.Has s := by
    obtain he | ⟨he, -⟩ := get_pushed w x s
    · exact there fun hn => hs (he ▸ hn)
    · exact absurd (he ▸ rfl) hs
  have done {s : Ref .coroutine} (hs : (v.coroutines.get s).isDone = true) : w.Has s :=
    joined fun hn => by simp [isDone, hn] at hs
  have gather {s : Ref .coroutine} {g : GatherState} (hg : (v.coroutines.get s).kind = .gather g) :
      w.Has s ∨ kind = .gather g := by
    obtain he | ⟨he, -⟩ := get_pushed w x s
    · exact .inl (has_of_gather (he ▸ hg))
    · rw [show v.coroutines.get s = x from he] at hg
      exact .inr hg
  have expects (d : Due) : v.Expects d ↔ w.Expects d := by
    constructor
    · rintro ⟨g, hx⟩
      refine ⟨g, ?_⟩
      rwa [← old (joined (by rw [hx.2.1]; simp))]
    · rintro ⟨g, hx⟩
      refine ⟨g, ?_⟩
      rwa [old (there (by rw [hx.2.1]; simp))]
  have child {d : Due} (hd : w.Expects d) : w.Has d.child := by
    obtain ⟨g, hg, -, hc, -⟩ := hd
    exact h.children hg _ (List.mem_of_getElem? hc)
  have parents {s : Ref .coroutine} {p : Ref .coroutine × Nat}
      (hp : p ∈ (v.coroutines.get s).parents) : p ∈ (w.coroutines.get s).parents := by
    obtain he | ⟨he, -⟩ := get_pushed w x s
    · exact he ▸ hp
    · rw [show v.coroutines.get s = x from he] at hp
      contradiction
  refine ⟨fun s => ?_, fun {s g} hg c hm => ?_, fun {s c g i o} hg hm ho => ?_,
    fun {s g} hg hd hn => ?_, fun {d} hm => ?_, fun {c p} hp => ?_, fun {d} hd => ?_,
    fun {c} hp => ?_, fun {s g} hg hs hf => ?_, fun y hy => ?_⟩
  · obtain he | ⟨he, -⟩ := get_pushed w x s
    · rw [show v.coroutines.get s = w.coroutines.get s from he]
      exact h.regular s
    · rw [show v.coroutines.get s = x from he]
      exact regular_new hk serial name scope
  · obtain hs | hg' := gather hg
    · rw [show v.coroutines.get s = w.coroutines.get s from old hs] at hg
      exact has (h.children hg c hm)
    · obtain ⟨children, flag, rfl, hc⟩ := hk g hg'
      exact has (hc c hm)
  · obtain hs | hg' := gather hg
    · rw [show v.coroutines.get s = w.coroutines.get s from old hs] at hg
      rw [show v.coroutines.get c = w.coroutines.get c from
        old (h.children hg c (List.mem_of_getElem? hm))]
      exact h.filled hg hm ho
    · obtain ⟨children, flag, rfl, -⟩ := hk g hg'
      have hnone := (List.mem_replicate.1 (List.mem_of_getElem? ho)).2
      contradiction
  · have hs := old (done hd)
    rw [show v.coroutines.get s = w.coroutines.get s from hs] at hg hd hn ⊢
    exact h.total hg hd hn
  · contradiction
  · exact (expects _).2 (h.linked (parents hp))
  · have hd' := (expects d).1 hd
    rw [show v.coroutines.get d.child = w.coroutines.get d.child from old (child hd')]
    exact h.once hd'
  · obtain ⟨p, hm⟩ := List.exists_mem_of_ne_nil _ hp
    have hm' := parents hm
    have hc : w.Has c := child (h.linked hm')
    rw [show v.coroutines.get c = w.coroutines.get c from old hc]
    exact h.begun (List.ne_nil_of_mem hm')
  · have hs' := old (joined (by rw [hs]; simp))
    rw [show v.coroutines.get s = w.coroutines.get s from hs'] at hg hs
    exact h.rest hg hs hf
  · obtain ⟨hy, wake, ht⟩ := h.sleepers y hy
    refine ⟨has hy, wake, ?_⟩
    rwa [show v.coroutines.get y.2 = w.coroutines.get y.2 from old hy]

/-- A coroutine in a turn begins to wait. -/
theorem suspendOn (h : w.Accounts past .nobody []) {target : Ref .coroutine} (hr : w.Acts r)
    (hne : r ≠ target) (hd : (w.coroutines.get target).isDone = false)
    (hn : (w.coroutines.get target).stage ≠ .new) :
    (w.suspendOn r target).Accounts past .nobody [] := by
  have waits := h.inTurn hr (fun c => { c with
    stage := .suspendedAwait, awaiting := some target }) fun _ => ⟨rfl, rfl, rfl, rfl, .inr (.inr rfl)⟩
  refine waits.waiters target (· ++ [r]) (.inr ?_)
  rw [get_modifyCoroutine_of_ne w r _ hne.symm]
  exact ⟨hn, hd⟩

/-- A coroutine takes its turn. -/
theorem resume (h : w.Accounts past .nobody []) {f : Ref .function} {owner : Option (Ref .blueprint)}
    (hk : (w.coroutines.get r).kind = .script f owner) (hd : (w.coroutines.get r).isDone = false) :
    (w.modifyCoroutine r fun c =>
      { c with stage := .running, scope := none, frames := [], tape := {} }).Accounts past
        .nobody [] := by
  have hg : (w.coroutines.get r).stage ≠ .gatherWait := by
    have fits := (h.regular r).fits
    unfold Coroutine.Fits at fits
    rw [hk] at fits
    exact fits.2
  have ha : (w.coroutines.get r).Alike { w.coroutines.get r with
      stage := .running, scope := none, frames := [], tape := {} } := by
    refine ⟨rfl, rfl, fun hn => by contradiction, by simp [hg], ?_, fun _ => rfl, id⟩
    rw [hd]
    rfl
  exact h.modify r _ ha ((h.regular r).alike ha (fits_of_script hk (by simp) (by simp)) rfl
    (fun _ => ⟨rfl, rfl⟩) fun hd' => absurd (hd'.symm.trans hd) (by simp))

/-- A coroutine notices that it is cancelled. -/
theorem notice (h : w.Accounts past .nobody []) (r : Ref .coroutine) :
    (w.modifyCoroutine r fun c => { c with cancelDelivered := true }).Accounts past .nobody [] := by
  have hr := h.regular r
  have ha : (w.coroutines.get r).Alike { w.coroutines.get r with cancelDelivered := true } :=
    ⟨rfl, rfl, id, Iff.rfl, rfl, fun _ => rfl, id⟩
  exact h.modify r _ ha (hr.alike ha hr.fits rfl (fun _ => ⟨rfl, rfl⟩) fun hd =>
    have hb := hr.bare hd
    ⟨hb.waiters, hb.parents, hb.awaiting, hb.scope, hb.frames⟩)

/-- A coroutine ends its turn and keeps what it goes on with. -/
theorem keepTurn (h : w.Accounts past .nobody []) (hr : w.Acts r) (t : Thread) :
    (Eval.keepTurn r t w).Accounts past .nobody [] := by
  have kept := h.inTurn hr (fun c => { c with
    scope := some t.scope, frames := t.parked, tape := t.tape }) fun _ => ⟨rfl, rfl, rfl, rfl, .inl rfl⟩
  unfold Eval.keepTurn
  dsimp only
  split
  · refine Accounts.enqueue (kept.inTurn (hr.modify fun _ => ⟨rfl, .inl rfl⟩) _ fun _ => ?_) r
    exact ⟨rfl, rfl, rfl, rfl, .inr (.inl rfl)⟩
  · exact kept

end Accounts

end World

variable {past past' : Heap → Prop}

/-- The books agree after each step, if `past'` are the heaps there have been up to then. -/
theorem Step.accounts {s s' : Situation} (h : Step s s') (hs : s.Coherent)
    (ha : s.world.Accounts past .nobody [])
    (hp : ∀ heap, s.world.Moments past heap → past' heap) :
    s'.world.Accounts past' .nobody [] := by
  -- most steps leave the coroutines alone, and with them all the dues
  have later {w' : World} (hc : w'.coroutines = s.world.coroutines)
      (hl : ∀ x ∈ w'.loop.sleepers, x ∈ s.world.loop.sleepers) :
      w'.Accounts past' .nobody [] := by
    refine ha.transfer (fun heap hm => ⟨heap, .inl (hp heap hm), .refl heap⟩) (fun r hr => ?_)
      (fun r => ?_) (fun r => ?_) hl
    · rwa [Has, hc]
    · rw [hc]
      exact .refl _
    · rw [hc]
      exact ha.regular r
  have ha' : s.world.Accounts past' .nobody [] := later rfl fun _ => id
  -- whose turn it is has a body, so it is no gather task and owes nothing as one
  have script {r : Ref .coroutine} {f : Ref .function} {owner : Option (Ref .blueprint)}
      (hk : (s.world.coroutines.get r).kind = .script f owner) (g : GatherState) :
      (s.world.coroutines.get r).kind ≠ .gather g := by
    rw [hk]
    simp
  cases h with
  | compute _ hc hl => exact later hc fun x hx => hl ▸ hx
  | create serial name kind scope _ hk => exact ha'.push serial name scope hk
  | tick => exact ha'.loop _ fun _ => id
  | start target ht => exact ha'.start ht
  | flag target => exact ha'.flagCancelled target
  | cancel target => exact ha'.cancel target
  | notice => exact ha'.notice _
  | wait target hne hd hn => exact ha'.suspendOn (hs.active.active _ rfl) hne hd hn
  | opening root hr => exact ha'.openLoop.start hr
  | poll => exact ha'.pollSleepers
  | pass => exact ha'.loop _ fun _ => id
  | @drop w r rest hr hd hk =>
    obtain ⟨f, owner, hk⟩ := hk
    have hg : w.Has r := get?_of_get_ne fun he => by rw [he] at hk; contradiction
    have h₁ : World.Accounts past' .nobody [] { w with loop := { w.loop with ready := rest } } :=
      ha'.loop _ fun _ => id
    exact h₁.finish _ hg (script hk)
  | lose => exact ha'.loop _ fun _ => id
  | resume hr hk hd => exact Accounts.resume (ha'.loop _ fun _ => id) hk hd
  | keep t =>
    obtain ⟨target, hst, -⟩ := hs.waiting rfl
    obtain ⟨f, owner, hk⟩ := (ha'.regular _).script (.inl hst)
    exact ha'.keepTurn ⟨.inr (.inr hst), f, owner, hk⟩ t
  | @finish w r scope outcome =>
    obtain ⟨hst, f, owner, hk⟩ := hs.active r rfl
    have hg : w.Has r := get?_of_stage (by rw [hst]; simp)
    have h₁ : (w.clearScope scope).Accounts past' .nobody [] := ha'.congr (.refl _) rfl fun _ => id
    exact h₁.finish _ hg (script hk)
  | close => exact ha'.teardown

/-! ### For good -/

namespace Coroutine

/-- What stays with a coroutine: the children of a gather task, that it has joined a loop, that it is
cancelled, that its cancellation has reached it, that it is done with what it has come to, and the
function that it is a call of. -/
structure Later (c c' : Coroutine) : Prop where
  children : c'.children = c.children
  joined : c.stage ≠ .new → c'.stage ≠ .new
  cancelled : c.isCancelled = true → c'.isCancelled = true
  delivered : c.cancelDelivered = true → c'.cancelDelivered = true
  done : c.isDone = true → c'.isDone = true ∧ c'.outcome = c.outcome
  script : ∀ {f owner}, c.kind = .script f owner → c'.kind = .script f owner

theorem Later.refl (c : Coroutine) : c.Later c := ⟨rfl, id, id, id, fun hd => ⟨hd, rfl⟩, id⟩

theorem Later.trans {c₁ c₂ c₃ : Coroutine} (h : c₁.Later c₂) (h' : c₂.Later c₃) : c₁.Later c₃ := by
  refine ⟨h'.children.trans h.children, fun hc => h'.joined (h.joined hc),
    fun hc => h'.cancelled (h.cancelled hc), fun hc => h'.delivered (h.delivered hc), fun hd => ?_,
    fun hk => h'.script (h.script hk)⟩
  obtain ⟨hd, ho⟩ := h.done hd
  obtain ⟨hd', ho'⟩ := h'.done hd
  exact ⟨hd', ho'.trans ho⟩

theorem Changes.later {c c' : Coroutine} (h : Changes c c') : c.Later c' := by
  refine ⟨?_, h.not_new, h.isCancelled, ?_, h.done, h.script⟩
  · induction h with
    | refl => rfl
    | tail _ hc ih =>
      rw [← ih]
      cases hc with
      | fill g slot outcome hk =>
        simp only [Coroutine.children, hk, GatherState.fill]
        split <;> rfl
      | _ => rfl
  · intro hd
    induction h with
    | refl => exact hd
    | tail _ hc ih =>
      cases hc with
      | deliver => rfl
      | _ => exact ih

end Coroutine

theorem Step.has {s s' : Situation} (h : Step s s') {r : Ref .coroutine} (hr : s.world.Has r) :
    s'.world.Has r := by
  obtain ⟨c, w⟩ := s
  obtain ⟨c', w'⟩ := s'
  have modified {v : World} (t : Ref .coroutine) (f : Coroutine → Coroutine) (hv : v.Has r) :
      (v.modifyCoroutine t f).Has r := by
    rw [has_iff] at hv ⊢
    rwa [modifyCoroutine, Arena.size_modify]
  obtain ⟨he, -⟩ | ⟨hc, -⟩ | ⟨x, -, -, -, -, -, -, -, -, rfl⟩ | ⟨t, -, -, -, rfl⟩ |
    ⟨t, target, -, -, -, -, rfl⟩ | ⟨t, rest, scope, f, owner, -, -, -, -, -, -, rfl⟩ |
    ⟨t, body, thread, -, -, -, -, rfl⟩ | ⟨-, rfl⟩ := h.cases
  · exact Has.evolves hr (he none (.inl rfl) (active_none w)).evolves
  · rw [Has, hc]
    exact hr
  · exact has_push hr x
  · exact modified t _ hr
  · exact modified target _ (modified t _ hr)
  · exact modified t _ hr
  · simp only [Eval.keepTurn]
    split
    · exact modified t _ (modified t _ hr)
    · exact modified t _ hr
  · exact Has.evolves hr (evolves_teardown w)

/-- What stays with a coroutine stays in every step. -/
theorem Step.later {s s' : Situation} (h : Step s s') (hs : s.Coherent) {r : Ref .coroutine}
    (hr : s.world.Has r) : (s.world.coroutines.get r).Later (s'.world.coroutines.get r) := by
  obtain ⟨c, w⟩ := s
  obtain ⟨c', w'⟩ := s'
  obtain ⟨-, ha, hwait⟩ := hs
  dsimp only at ha hwait hr ⊢
  have evolved {w' : World} (he : Evolves w w') :
      (w.coroutines.get r).Later (w'.coroutines.get r) := by
    obtain ⟨c', hc', hcc⟩ := he.changes hr
    rw [get_of_get? hc']
    exact hcc.later
  -- the kinds of change a step can make to one coroutine
  obtain ⟨he, -⟩ | ⟨hc, -⟩ | ⟨x, -, -, -, -, -, -, -, -, rfl⟩ | ⟨t, -, -, -, rfl⟩ |
    ⟨t, target, rfl, -, hne, -, rfl⟩ | ⟨t, rest, scope, f, owner, -, -, -, hnd, -, -, rfl⟩ |
    ⟨t, body, thread, rfl, -, -, -, rfl⟩ | ⟨-, rfl⟩ := h.cases
  · exact evolved (he none (.inl rfl) (active_none w)).evolves
  · rw [hc]
    exact .refl _
  · rw [get_push hr x]
    exact .refl _
  · obtain he | ⟨rfl, -, he⟩ := get_modified w t (fun c => { c with cancelDelivered := true }) r
    · rw [he]
      exact .refl _
    · rw [he]
      exact ⟨rfl, id, id, fun _ => rfl, fun hd => ⟨hd, rfl⟩, id⟩
  · have ht := (ha t rfl).1
    have hg : w.Has t := get?_of_stage (by rw [ht]; simp)
    obtain ⟨waiters, -, he⟩ := get_suspendOn hg hne r
    rw [he]
    by_cases hrt : r = t
    · subst hrt
      rw [if_pos rfl]
      exact ⟨rfl, fun _ => by simp, id, id, fun hd => by simp [isDone, ht] at hd, id⟩
    · rw [if_neg hrt]
      exact ⟨rfl, id, id, id, fun hd => ⟨hd, rfl⟩, id⟩
  · by_cases hrt : r = t
    · subst hrt
      rw [get_modifyCoroutine { w with loop := { w.loop with ready := rest } } r _ hr]
      exact ⟨rfl, fun _ => by simp, id, id, fun hd => absurd (hd.symm.trans hnd) (by simp),
        id⟩
    · rw [get_modifyCoroutine_of_ne _ t _ hrt]
      exact .refl _
  · obtain ⟨target, ht, -⟩ := hwait rfl
    rw [get_keepTurn thread ht]
    by_cases hrt : r = t
    · subst hrt
      rw [get_modifyCoroutine w r _ hr]
      exact ⟨rfl, id, id, id, fun hd => ⟨hd, rfl⟩, id⟩
    · rw [get_modifyCoroutine_of_ne w t _ hrt]
      exact .refl _
  · exact evolved (evolves_teardown w)

theorem Steps.has {s s' : Situation} (h : Steps s s') {r : Ref .coroutine}
    (hr : s.world.Has r) : s'.world.Has r := by
  induction h with
  | refl => exact hr
  | tail _ hstep ih => exact hstep.has ih

theorem Steps.later {s s' : Situation} (h : Steps s s') (hs : s.Coherent) {r : Ref .coroutine}
    (hr : s.world.Has r) : (s.world.coroutines.get r).Later (s'.world.coroutines.get r) := by
  induction h with
  | refl => exact .refl _
  | tail hsteps hstep ih =>
    exact ih.trans (hstep.later (Steps.coherent hsteps hs) (Steps.has hsteps hr))

/-- The books agree if there are no coroutines. -/
theorem World.accounts_of_empty {w : World} (hc : ∀ r, w.coroutines.get r = default)
    (hs : w.loop.sleepers = []) (past : Heap → Prop) : w.Accounts past .nobody [] := by
  have timer (r : Ref .coroutine) (g : GatherState) : (w.coroutines.get r).kind ≠ .gather g := by
    rw [hc]
    simp
  refine ⟨fun r => ?_, fun {r g} hk => absurd hk (timer r g), fun {r _ g _ _} hk => absurd hk (timer r g),
    fun {r g} hk => absurd hk (timer r g), fun {d} hd => by contradiction, fun {r p} hp => ?_,
    fun {d} hd => ?_, fun {r} hp => ?_, fun {r g} hk => absurd hk (timer r g),
    fun x hx => ?_⟩
  · rw [hc]
    exact ⟨.inl rfl, fun _ => rfl, fun _ => rfl, fun _ => rfl, fun hd => by contradiction,
      fun hk => by contradiction, fun hk => by contradiction, fun hk => by contradiction,
      fun hk => by contradiction⟩
  · rw [hc] at hp
    contradiction
  · obtain ⟨g, hk, -⟩ := hd
    exact absurd hk (timer d.task g)
  · rw [hc] at hp
    exact absurd rfl hp
  · rw [hs] at hx
    contradiction

end Rewind
