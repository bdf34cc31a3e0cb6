/-
What becomes of coroutines that are cancelled.

To cancel a gather task is to cancel everything it gathers.  Whatever was not done by then never ends
with a value, whether the cancellation reaches it at a statement, while it waits, before its first
turn or not at all, and whoever is handed its outcome gets an exception.

* `World.Covered` — what a cancelled gather task gathers is done or cancelled; `covered_flagCancelled`
  — and so it is after each cancellation;
* `Coroutine.Sealed` — a cancelled coroutine does not end with a value;
* `Reachable.covered`, `Reachable.sealed` — in every session;
* `World.Fails`, `Situation.RaisesOnce`, `cancellation_safe` — what a cancellation leads to.
-/
import Rewind.Proofs.Tally

namespace Rewind

open Coroutine World Eval

namespace Coroutine

/-- A cancellation passes the coroutine by: it is done or cancelled already. -/
def isStopped (c : Coroutine) : Bool := c.isDone || c.isCancelled

theorem isStopped_iff {c : Coroutine} :
    c.isStopped = true ↔ c.isDone = true ∨ c.isCancelled = true := Bool.or_eq_true _ _ ▸ Iff.rfl

/-- A cancelled coroutine does not end with a value, and only a cancelled one is reached by its
cancellation. -/
structure Sealed (c : Coroutine) : Prop where
  outcome : c.isDone = true → c.isCancelled = true → ∃ e, c.outcome = .error e
  delivered : c.cancelDelivered = true → c.isCancelled = true

end Coroutine

/-- By itself a coroutine never begins to wait. -/
theorem Coroutine.Changes.suspended {c c' : Coroutine} (h : Changes c c')
    (hs : c'.stage = .suspendedAwait) : c.stage = .suspendedAwait := by
  induction h with
  | refl => exact hs
  | tail _ hc ih =>
    cases hc with
    | wake | result | exception => contradiction
    | start _ _ _ _ hn => exact absurd hs hn
    | _ => exact ih hs

namespace World

/-! ### Flagging -/

/-- The one gathers the other. -/
def Gathers (w : World) (r child : Ref .coroutine) : Prop := child ∈ (w.coroutines.get r).children

/-- Some coroutines get flagged, and nothing else happens. -/
structure Flags (w w' : World) : Prop where
  size : w'.coroutines.size = w.coroutines.size
  flag : ∀ r, ∃ b, ((w.coroutines.get r).isCancelled = true → b = true) ∧
    w'.coroutines.get r = { w.coroutines.get r with isCancelled := b }

namespace Flags

variable {w w' : World} {r : Ref .coroutine}

theorem refl (w : World) : Flags w w := ⟨rfl, fun _ => ⟨_, id, rfl⟩⟩

theorem single (w : World) (r : Ref .coroutine) :
    Flags w (w.modifyCoroutine r fun c => { c with isCancelled := true }) := by
  refine ⟨Arena.size_modify _ _ _, fun s => ?_⟩
  obtain he | ⟨-, -, he⟩ := get_modified w r (fun c => { c with isCancelled := true }) s
  · exact ⟨_, id, he⟩
  · exact ⟨true, fun _ => rfl, he⟩

theorem trans {w'' : World} (h : Flags w w') (h' : Flags w' w'') : Flags w w'' := by
  refine ⟨h'.size.trans h.size, fun r => ?_⟩
  obtain ⟨b, hb, he⟩ := h.flag r
  obtain ⟨b', hb', he'⟩ := h'.flag r
  rw [he] at hb' he'
  exact ⟨b', fun hc => hb' (hb hc), he'⟩

theorem has (h : Flags w w') (hr : w.Has r) : w'.Has r := by
  rw [has_iff] at hr ⊢
  rwa [h.size]

theorem isDone (h : Flags w w') (r : Ref .coroutine) :
    (w'.coroutines.get r).isDone = (w.coroutines.get r).isDone := by
  obtain ⟨b, -, he⟩ := h.flag r
  rw [he]
  rfl

theorem stage (h : Flags w w') (r : Ref .coroutine) :
    (w'.coroutines.get r).stage = (w.coroutines.get r).stage := by
  obtain ⟨b, -, he⟩ := h.flag r
  rw [he]

theorem delivered (h : Flags w w') (r : Ref .coroutine) :
    (w'.coroutines.get r).cancelDelivered = (w.coroutines.get r).cancelDelivered := by
  obtain ⟨b, -, he⟩ := h.flag r
  rw [he]

theorem children (h : Flags w w') (r : Ref .coroutine) :
    (w'.coroutines.get r).children = (w.coroutines.get r).children := by
  obtain ⟨b, -, he⟩ := h.flag r
  rw [he]
  rfl

theorem cancelled (h : Flags w w') (hc : (w.coroutines.get r).isCancelled = true) :
    (w'.coroutines.get r).isCancelled = true := by
  obtain ⟨b, hb, he⟩ := h.flag r
  rw [he]
  exact hb hc

theorem stopped (h : Flags w w') (hs : (w.coroutines.get r).isStopped = true) :
    (w'.coroutines.get r).isStopped = true := by
  rw [isStopped_iff] at hs ⊢
  exact hs.imp (fun hd => (h.isDone r).trans hd) h.cancelled

end Flags

theorem flagWithin_of_stopped {depth : Nat} {w : World} {r : Ref .coroutine}
    (hs : (w.coroutines.get r).isStopped = true) : flagWithin depth w r = ([], w) := by
  cases depth with
  | zero => rfl
  | succ depth =>
    simp only [flagWithin]
    exact if_pos hs

/-- One that is not stopped is flagged, and then its children have their turn. -/
theorem flagWithin_succ {depth : Nat} {w : World} {r : Ref .coroutine}
    (hs : ¬ (w.coroutines.get r).isStopped = true) :
    flagWithin (depth + 1) w r = (w.coroutines.get r).children.foldl (fun p child =>
      (p.1 ++ (flagWithin depth p.2 child).1, (flagWithin depth p.2 child).2))
      ([r], w.modifyCoroutine r fun c => { c with isCancelled := true }) := by
  simp only [flagWithin]
  exact if_neg hs

theorem flags_flagWithin (depth : Nat) (w : World) (r : Ref .coroutine) :
    Flags w (flagWithin depth w r).2 :=
  flagWithin_keeps (P := Flags w) (fun v s h _ _ => h.trans (.single v s)) depth r (.refl w)

/-- What a cancelled gather task gathers is done or cancelled; the tasks of a list are not yet through
with it. -/
def Covered (w : World) (l : List (Ref .coroutine)) : Prop :=
  ∀ r, r ∉ l → (w.coroutines.get r).isCancelled = true →
    ∀ child, w.Gathers r child → (w.coroutines.get child).isStopped = true

/-- The coroutines a cancellation can still turn to. -/
def unstopped (w : World) : Finset Nat :=
  (Finset.range w.coroutines.size).filter fun i => (w.coroutines.get ⟨i⟩).isStopped = false

theorem mem_unstopped {w : World} {r : Ref .coroutine} :
    r.index ∈ w.unstopped ↔ w.Has r ∧ (w.coroutines.get r).isStopped = false := by
  simp [unstopped, has_iff]

theorem Flags.unstopped_subset {w w' : World} (h : Flags w w') : w'.unstopped ⊆ w.unstopped := by
  intro i hi
  obtain ⟨hr, hs⟩ :=
    mem_unstopped.1 (show (Ref.mk (k := .coroutine) i).index ∈ w'.unstopped from hi)
  refine mem_unstopped.2 ⟨?_, ?_⟩
  · rw [has_iff] at hr ⊢
    rwa [← h.size]
  · refine Bool.eq_false_iff.2 fun hn => ?_
    rw [h.stopped hn] at hs
    contradiction

/-- After a coroutine and what it gathers have been flagged, everything is covered as before. -/
theorem covered_flagWithin (depth : Nat) {w : World} {r : Ref .coroutine}
    {l : List (Ref .coroutine)} (hr : w.Has r) (hc : ∀ s child, w.Gathers s child → w.Has child)
    (hn : w.unstopped.card ≤ depth) (h : w.Covered l) :
    (flagWithin depth w r).2.Covered l ∧
      ((flagWithin depth w r).2.coroutines.get r).isStopped = true := by
  -- by induction on the depth: each flag set leaves fewer coroutines that are not stopped
  induction depth generalizing w r l with
  | zero =>
    refine ⟨h, Bool.not_eq_false _ ▸ fun hs => ?_⟩
    have hm : r.index ∈ w.unstopped := mem_unstopped.2 ⟨hr, hs⟩
    rw [Finset.card_eq_zero.1 (Nat.le_zero.1 hn)] at hm
    contradiction
  | succ depth ih =>
    by_cases hs : (w.coroutines.get r).isStopped = true
    · rw [flagWithin_of_stopped hs]
      exact ⟨h, hs⟩
    · let w₁ := w.modifyCoroutine r fun c => { c with isCancelled := true }
      have f₁ : Flags w w₁ := .single w r
      have hself : w₁.coroutines.get r = { w.coroutines.get r with isCancelled := true } :=
        get_modifyCoroutine w r _ hr
      have hr₁ : (w₁.coroutines.get r).isStopped = true := by
        rw [hself, isStopped_iff]
        exact .inr rfl
      have h₁ : w₁.Covered (r :: l) := by
        intro s hs hcs child hg
        obtain ⟨hne, hs⟩ := not_or.1 (List.mem_cons.not.1 hs)
        have he : w₁.coroutines.get s = w.coroutines.get s := get_modifyCoroutine_of_ne w r _ hne
        rw [Gathers, he] at hg
        rw [he] at hcs
        exact f₁.stopped (h s hs hcs child hg)
      have hlt : w₁.unstopped.card < w.unstopped.card := by
        refine Finset.card_lt_card
          (Finset.ssubset_iff_subset_ne.2 ⟨f₁.unstopped_subset, fun he => ?_⟩)
        have hm : r.index ∈ w₁.unstopped :=
          he ▸ mem_unstopped.2 ⟨hr, Bool.eq_false_iff.2 hs⟩
        rw [(mem_unstopped.1 hm).2] at hr₁
        contradiction
      -- the children are turned to one after the other, while the task itself is not covered
      have children (m : List (Ref .coroutine)) (p : List (Ref .coroutine) × World)
          (hm : ∀ child ∈ m, w.Has child) (f : Flags w₁ p.2) (hp : p.2.Covered (r :: l)) :
          let q := m.foldl (fun p child =>
            (p.1 ++ (flagWithin depth p.2 child).1, (flagWithin depth p.2 child).2)) p
          Flags p.2 q.2 ∧ q.2.Covered (r :: l) ∧
            ∀ child ∈ m, (q.2.coroutines.get child).isStopped = true := by
        induction m generalizing p with
        | nil => exact ⟨.refl _, hp, by simp⟩
        | cons x m ihm =>
          have f' := flags_flagWithin depth p.2 x
          have hx : p.2.Has x := (f₁.trans f).has (hm x List.mem_cons_self)
          have hcard := Finset.card_le_card f.unstopped_subset
          have hc' (s child : Ref .coroutine) (hg : p.2.Gathers s child) : p.2.Has child := by
            rw [Gathers, (f₁.trans f).children] at hg
            exact (f₁.trans f).has (hc s child hg)
          obtain ⟨hp', hx'⟩ := ih hx hc' (by omega) hp
          obtain ⟨f'', hq, hm'⟩ := ihm (p.1 ++ (flagWithin depth p.2 x).1,
            (flagWithin depth p.2 x).2) (fun child hcm => hm child (List.mem_cons_of_mem x hcm))
            (f.trans f') hp'
          refine ⟨f'.trans f'', hq, fun child hcm => ?_⟩
          obtain rfl | hcm := List.mem_cons.1 hcm
          · exact f''.stopped hx'
          · exact hm' child hcm
      obtain ⟨f, hq, hm⟩ := children (w.coroutines.get r).children ([r], w₁)
        (fun child hcm => hc r child hcm) (.refl w₁) h₁
      rw [flagWithin_succ hs]
      -- whoever is cancelled now and not `r` was covered all along
      refine ⟨fun s hsl hcs child hg => ?_, f.stopped hr₁⟩
      by_cases hsr : s = r
      · rw [Gathers, (f₁.trans f).children, hsr] at hg
        exact hm child hg
      · exact hq s (fun hs => (List.mem_cons.1 hs).elim hsr hsl) hcs child hg

theorem covered_flagCancelled {w : World} {r : Ref .coroutine} (hr : w.Has r)
    (hc : ∀ s child, w.Gathers s child → w.Has child) (h : w.Covered []) :
    (w.flagCancelled r).2.Covered [] ∧
      ((w.flagCancelled r).2.coroutines.get r).isStopped = true := by
  refine covered_flagWithin _ hr hc ?_ h
  exact (Finset.card_filter_le _ _).trans ((Finset.card_range _).le.trans (Nat.le_succ _))

/-- What is on the list of those that were flagged was not cancelled before. -/
theorem isCancelled_of_flagged (depth : Nat) {w : World} {r s : Ref .coroutine}
    (hs : s ∈ (flagWithin depth w r).1) : (w.coroutines.get s).isCancelled = false := by
  induction depth generalizing w r s with
  | zero => contradiction
  | succ depth ih =>
    by_cases hst : (w.coroutines.get r).isStopped = true
    · rw [flagWithin_of_stopped hst] at hs
      contradiction
    · have hr : (w.coroutines.get r).isCancelled = false :=
        Bool.eq_false_iff.2 fun hc => hst (isStopped_iff.2 (.inr hc))
      have children (m : List (Ref .coroutine)) (p : List (Ref .coroutine) × World)
          (f : Flags w p.2) (hp : ∀ s ∈ p.1, (w.coroutines.get s).isCancelled = false) :
          ∀ s ∈ (m.foldl (fun p child =>
            (p.1 ++ (flagWithin depth p.2 child).1, (flagWithin depth p.2 child).2)) p).1,
            (w.coroutines.get s).isCancelled = false := by
        induction m generalizing p with
        | nil => exact hp
        | cons x m ihm =>
          refine ihm _ (f.trans (flags_flagWithin depth p.2 x)) fun s hs => ?_
          obtain hs | hs := List.mem_append.1 hs
          · exact hp s hs
          · refine Bool.eq_false_iff.2 fun hc => ?_
            have hn := ih hs
            rw [f.cancelled hc] at hn
            contradiction
      rw [flagWithin_succ hst] at hs
      refine children _ _ (.single w r) (fun s hs => ?_) s hs
      rw [List.mem_singleton.1 hs]
      exact hr

/-! ### Transitions that flag nobody -/

theorem get_settle_of_not_has {w : World} {r : Ref .coroutine} (outcome : Outcome)
    (hd : (w.coroutines.get r).isDone = false) (hr : ¬ w.Has r) :
    (w.settle r outcome).coroutines.get r = w.coroutines.get r := by
  have hn : w.coroutines.get? r = none := by
    refine Option.eq_none_iff_forall_ne_some.2 fun c hc => hr ?_
    rw [Has, get_of_get? hc, hc]
  simp [Arena.get, hn, (evolves_settle w r outcome hd).get?_none hn]

/-- The same coroutines are cancelled, and the same ones have been reached by it. -/
def SameFlags (w w' : World) : Prop :=
  ∀ r, (w'.coroutines.get r).isCancelled = (w.coroutines.get r).isCancelled ∧
    (w'.coroutines.get r).cancelDelivered = (w.coroutines.get r).cancelDelivered

namespace SameFlags

variable {w w' w'' : World} {r : Ref .coroutine}

theorem of_same (h : w'.coroutines = w.coroutines) : SameFlags w w' := fun r => by
  rw [h]
  exact ⟨rfl, rfl⟩

theorem refl (w : World) : SameFlags w w := of_same rfl

theorem trans (h : SameFlags w w') (h' : SameFlags w' w'') : SameFlags w w'' := fun r =>
  ⟨(h' r).1.trans (h r).1, (h' r).2.trans (h r).2⟩

theorem foldl {α : Type} {f : World → α → World} (h : ∀ w x, SameFlags w (f w x)) (w : World)
    (l : List α) : SameFlags w (l.foldl f w) := by
  induction l generalizing w with
  | nil => exact refl w
  | cons x l ih => exact (h w x).trans (ih (f w x))

theorem modify (w : World) (r : Ref .coroutine) (f : Coroutine → Coroutine)
    (h : ∀ c, (f c).isCancelled = c.isCancelled ∧ (f c).cancelDelivered = c.cancelDelivered) :
    SameFlags w (w.modifyCoroutine r f) := fun s => by
  rw [field_modifyCoroutine w r f Coroutine.isCancelled (fun c => (h c).1),
    field_modifyCoroutine w r f Coroutine.cancelDelivered (fun c => (h c).2)]
  exact ⟨rfl, rfl⟩

theorem settle (w : World) (r : Ref .coroutine) (outcome : Outcome)
    (hd : (w.coroutines.get r).isDone = false) : SameFlags w (w.settle r outcome) := by
  intro s
  by_cases hs : s = r
  · subst hs
    by_cases hr : w.Has s
    · obtain ⟨-, hc, hcd, -⟩ := bare_settle w outcome hr
      exact ⟨hc, hcd⟩
    · rw [get_settle_of_not_has outcome hd hr]
      exact ⟨rfl, rfl⟩
  · obtain ⟨he, -⟩ | ⟨-, -, heap, he⟩ := get_settle_of_ne w outcome hs
    · rw [he]
      exact ⟨rfl, rfl⟩
    · rw [he]
      exact ⟨rfl, rfl⟩

theorem fillSlot (w : World) (r : Ref .coroutine) (slot : Nat) (outcome : Outcome) :
    SameFlags w (w.fillSlot r slot outcome) := by
  refine modify w r _ fun c => ?_
  split
  · split
    · exact ⟨rfl, rfl⟩
    · exact ⟨rfl, rfl⟩
  · exact ⟨rfl, rfl⟩

theorem finishWithin (depth : Nat) (w : World) (r : Ref .coroutine) (outcome : Outcome) :
    SameFlags w (finishWithin depth w r outcome) := by
  induction depth generalizing w r outcome with
  | zero => exact refl w
  | succ depth ih =>
    simp only [World.finishWithin]
    split
    · exact refl w
    · rename_i hd
      refine (settle w r _ (Bool.eq_false_iff.2 hd)).trans (foldl (fun v x => ?_) _ _)
      have reported : SameFlags v (v.report (finalOutcome (w.coroutines.get r) outcome) x.1 x.2) :=
        fillSlot (v.copyOutcome _).2 x.1 x.2 _
      split
      · exact reported.trans (ih _ _ _)
      · exact reported

theorem finish (w : World) (r : Ref .coroutine) (outcome : Outcome) :
    SameFlags w (w.finish r outcome) := finishWithin _ w r outcome

theorem finishIfComplete (w : World) (r : Ref .coroutine) :
    SameFlags w (w.finishIfComplete r) := by
  unfold World.finishIfComplete
  split
  · exact finish _ r _
  · exact refl w

theorem startWithin (depth : Nat) (w : World) (r : Ref .coroutine) :
    SameFlags w (startWithin depth w r) := by
  induction depth generalizing w r with
  | zero => exact refl w
  | succ depth ih =>
    have enrolled (stage : Stage) : SameFlags w (w.enroll r stage) :=
      modify w r (fun c => { c with stage }) fun _ => ⟨rfl, rfl⟩
    simp only [World.startWithin]
    split
    · exact refl w
    · split
      · exact enrolled .runnable
      · exact enrolled .suspendedTimer
      · refine ((enrolled .gatherWait).trans (foldl (fun v x => ?_) _ _)).trans
          (finishIfComplete _ r)
        simp only [enlist]
        split
        · exact fillSlot (v.copyOutcome _).2 r x.2 _
        · exact (modify v x.1 (fun c => { c with parents := c.parents ++ [(r, x.2)] })
            fun _ => ⟨rfl, rfl⟩).trans (ih _ x.1)

theorem start (w : World) (r : Ref .coroutine) : SameFlags w (w.start r) := startWithin _ w r

theorem pollSleepers (w : World) : SameFlags w w.pollSleepers := by
  have awake (sleepers : List (Nat × Ref .coroutine)) :
      SameFlags w { w with loop := { w.loop with sleepers } } := of_same rfl
  have finished (l : List (Nat × Ref .coroutine)) (v : World) :
      SameFlags v (l.foldl (fun v x => v.finish x.2 (.ok .null)) v) := by
    refine foldl (fun v x => ?_) v l
    exact finish v x.2 (.ok .null)
  simp only [World.pollSleepers]
  exact (awake (w.loop.sleepers.dropWhile (·.1 ≤ w.loop.now))).trans
    (finished (w.loop.sleepers.takeWhile (·.1 ≤ w.loop.now)) _)

theorem releaseLinks (w : World) (r : Ref .coroutine) : SameFlags w (w.releaseLinks r) := by
  have h := modify w r (fun c => { c with
    waiters := [], awaiting := none, scope := none, frames := [], tape := Tape.reset })
    fun _ => ⟨rfl, rfl⟩
  simp only [World.releaseLinks]
  split
  · exact h.trans (of_same rfl)
  · exact h

theorem teardown (w : World) : SameFlags w w.teardown :=
  (foldl releaseLinks w w.loop.started).trans (of_same rfl)

end SameFlags

/-- A cancellation that reaches a coroutine flags nobody else. -/
theorem isCancelled_deliverCancellation (w : World) (r s : Ref .coroutine) :
    ((w.deliverCancellation r).coroutines.get s).isCancelled =
      (w.coroutines.get s).isCancelled := by
  cases hs : (w.coroutines.get r).stage with
  | suspendedAwait =>
    obtain ⟨waiters, -, -, he⟩ := get_deliverCancellation hs s
    rw [he]
    split
    · rename_i hsr
      rw [hsr]
      rfl
    · rfl
  | suspendedTimer =>
    simp only [deliverCancellation, hs]
    exact (SameFlags.finish _ r _ s).1
  | _ => simp only [deliverCancellation, hs]

/-- A cancellation reaches those on the list, and nobody else is flagged. -/
theorem evolves_cancel (w : World) (t : Ref .coroutine) :
    Evolves (w.flagCancelled t).2 (w.cancel t).2 ∧
      ∀ r, ((w.cancel t).2.coroutines.get r).isCancelled =
        ((w.flagCancelled t).2.coroutines.get r).isCancelled := by
  let w₁ := (w.flagCancelled t).2
  refine deliver_keeps (P := fun v => Evolves w₁ v ∧ ∀ r,
    (v.coroutines.get r).isCancelled = (w₁.coroutines.get r).isCancelled)
    (fun v r hv hr => ⟨?_, fun x => ?_⟩) ⟨.refl _, fun _ => rfl⟩ (flagged_flagCancelled w t)
  · exact hv.1.trans (events_deliverCancellation (a := none) v r (active_none v) hr).evolves
  · exact (isCancelled_deliverCancellation v r x).trans (hv.2 x)

/-- Once the cancellation has reached a coroutine that waits, that one waits no more, and the
cancellation reaches it as a waiting one no more. -/
theorem deliverCancellation_once (w : World) (r s : Ref .coroutine)
    (h : (w.coroutines.get s).cancelDelivered = false ∨
      (w.coroutines.get s).stage ≠ .suspendedAwait) :
    ((w.deliverCancellation r).coroutines.get s).cancelDelivered = false ∨
      ((w.deliverCancellation r).coroutines.get s).stage ≠ .suspendedAwait := by
  cases hs : (w.coroutines.get r).stage with
  | suspendedAwait =>
    obtain ⟨waiters, -, -, he⟩ := get_deliverCancellation hs s
    rw [he]
    split
    · exact .inr (by simp)
    · exact h
  | suspendedTimer =>
    simp only [deliverCancellation, hs]
    let w₁ : World := { w with
      loop := { w.loop with sleepers := w.loop.sleepers.filter (·.2 != r) } }
    have he : Evolves w₁ (w₁.finish r (.ok .null)) :=
      (events_finish (a := none) w₁ r _ (active_none _) (by simp)).evolves
    refine h.imp (fun hd => ?_) fun hn hst => hn ?_
    · exact (SameFlags.finish w₁ r (.ok .null) s).2.trans hd
    · obtain ⟨c, hc, hcc⟩ := he.before (get?_of_stage (by rw [hst]; simp))
      have hw : (w₁.coroutines.get s).stage = .suspendedAwait :=
        get_of_get? hc ▸ hcc.suspended hst
      exact hw
  | _ =>
    simp only [deliverCancellation, hs]
    exact h

end World

/-! ### In every session -/

/-- A step flags nobody, unless it is a cancellation. -/
theorem Step.flags {s s' : Situation} (h : Step s s') :
    (∀ r, (s'.world.coroutines.get r).isCancelled = (s.world.coroutines.get r).isCancelled) ∨
    ∃ t, s.world.Has t ∧ (s'.world = (s.world.flagCancelled t).2 ∨
      s'.world = (s.world.cancel t).2) := by
  cases h with
  -- only a flag or a cancellation sets flags; everything else keeps them one by one
  | compute _ hc =>
    refine .inl fun r => ?_
    rw [hc]
  | @create c w serial name kind scope =>
    refine .inl fun r => ?_
    obtain he | ⟨he, hr⟩ := get_pushed w { serial, name, kind, scope } r
    · exact congrArg isCancelled he
    · have hn : w.coroutines.get r = default :=
        Classical.byContradiction fun hd => hr (get?_of_get_ne hd)
      exact (congrArg isCancelled he).trans (congrArg isCancelled hn).symm
  | tick | pass | lose => exact .inl fun _ => rfl
  | @start r w target => exact .inl fun r => (SameFlags.start w target r).1
  | flag target _ ht => exact .inr ⟨target, ht, .inl rfl⟩
  | cancel target ht => exact .inr ⟨target, ht, .inr rfl⟩
  | @notice r w =>
    exact .inl (field_modifyCoroutine w r (fun c => { c with cancelDelivered := true })
      Coroutine.isCancelled fun _ => rfl)
  | @wait r w target =>
    have h := (SameFlags.modify w r (fun c => { c with
      stage := .suspendedAwait, awaiting := some target }) fun _ => ⟨rfl, rfl⟩).trans
      (.modify _ target (fun c => { c with waiters := c.waiters ++ [r] }) fun _ => ⟨rfl, rfl⟩)
    exact .inl fun s => (h s).1
  | @opening w root => exact .inl fun r => (SameFlags.start w.openLoop root r).1
  | @poll w => exact .inl fun r => (SameFlags.pollSleepers w r).1
  | @drop w r rest =>
    exact .inl fun s => (SameFlags.finish { w with loop := { w.loop with ready := rest } } r _ s).1
  | @resume w r rest =>
    exact .inl (field_modifyCoroutine _ r (fun c =>
      { c with stage := .running, scope := none, frames := [], tape := {} })
      Coroutine.isCancelled fun _ => rfl)
  | @keep w r body t =>
    refine .inl fun s => ?_
    have kept := SameFlags.modify w r (fun c => { c with
      scope := some t.scope, frames := t.parked, tape := t.tape }) fun _ => ⟨rfl, rfl⟩
    simp only [keepTurn]
    split
    · exact (kept.trans (.modify _ r (fun c => { c with stage := .runnable })
        fun _ => ⟨rfl, rfl⟩) s).1
    · exact (kept s).1
  | @finish w r scope outcome =>
    exact .inl fun s => (SameFlags.finish (w.clearScope scope) r outcome s).1
  | @close c w => exact .inl fun r => (SameFlags.teardown w r).1

theorem has_of_isStopped {w : World} {r : Ref .coroutine}
    (h : (w.coroutines.get r).isStopped = true) : w.Has r :=
  get?_of_get_ne fun he => by
    rw [he] at h
    contradiction

namespace Coroutine

theorem Later.isStopped {c c' : Coroutine} (h : c.Later c') (hs : c.isStopped = true) :
    c'.isStopped = true := by
  rw [isStopped_iff] at hs ⊢
  exact hs.imp (fun hd => (h.done hd).1) h.cancelled

end Coroutine

/-- As long as nobody is flagged, everything stays covered. -/
theorem World.Covered.later {w w' : World} (h : w.Covered [])
    (hl : ∀ r, w.Has r → (w.coroutines.get r).Later (w'.coroutines.get r))
    (hf : ∀ r, (w'.coroutines.get r).isCancelled = (w.coroutines.get r).isCancelled) :
    w'.Covered [] := by
  intro r hn hc child hg
  rw [hf] at hc
  rw [Gathers, (hl r (has_of_isCancelled hc)).children] at hg
  have hs := h r hn hc child hg
  exact (hl child (has_of_isStopped hs)).isStopped hs

/-- What a cancelled gather task gathers is done or cancelled, after each step as before. -/
theorem Step.covered {s s' : Situation} (h : Step s s') (hs : s.Coherent)
    (hc : ∀ r child, s.world.Gathers r child → s.world.Has child) (hw : s.world.Covered []) :
    s'.world.Covered [] := by
  obtain hf | ⟨t, ht, hf⟩ := h.flags
  · exact hw.later (fun r hr => h.later hs hr) hf
  · obtain ⟨hflagged, -⟩ := covered_flagCancelled ht hc hw
    obtain hf | hf := hf
    · rwa [hf]
    · rw [hf]
      obtain ⟨he, hc⟩ := evolves_cancel s.world t
      refine hflagged.later (fun r hr => ?_) hc
      obtain ⟨c, hc, hcc⟩ := he.changes hr
      rw [get_of_get? hc]
      exact hcc.later

theorem World.Accounts.has_of_gathers {past : Heap → Prop} {w : World}
    (h : w.Accounts past .nobody []) {r child : Ref .coroutine} (hg : w.Gathers r child) :
    w.Has child := by
  unfold Gathers Coroutine.children at hg
  cases hk : (w.coroutines.get r).kind with
  | gather g =>
    rw [hk] at hg
    exact h.children hk child hg
  | _ =>
    rw [hk] at hg
    contradiction

theorem Reachable.covered {env : Environment} {s : Situation} (h : Reachable env s) :
    s.world.Covered [] := by
  induction h with
  | refl =>
    intro r _ hc
    have hn : ((Machine.new env).situation .idle).world.coroutines.get r = default := by
      simp [Machine.situation, Machine.new, Arena.get, Arena.get?]
    rw [hn] at hc
    contradiction
  | tail hs hstep ih =>
    have hr : Reachable env _ := hs
    exact hstep.covered hr.coherent (fun r child hg => hr.accounts.has_of_gathers hg) ih

/-- All records but one stay as they are, and that one stays sealed. -/
theorem World.sealed_modified {w : World} (hs : ∀ r, (w.coroutines.get r).Sealed)
    (t : Ref .coroutine) (f : Coroutine → Coroutine)
    (hf : (w.coroutines.get t).Sealed → (f (w.coroutines.get t)).Sealed) (r : Ref .coroutine) :
    ((w.modifyCoroutine t f).coroutines.get r).Sealed := by
  obtain he | ⟨rfl, -, he⟩ := get_modified w t f r
  · rw [he]
    exact hs r
  · rw [he]
    exact hf (hs r)

theorem World.sealed_teardown {w : World} (hs : ∀ r, (w.coroutines.get r).Sealed) :
    ∀ r, (w.teardown.coroutines.get r).Sealed := by
  have released (l : List (Ref .coroutine)) (v : World) (hv : ∀ r, (v.coroutines.get r).Sealed) :
      ∀ r, ((l.foldl releaseLinks v).coroutines.get r).Sealed := by
    induction l generalizing v with
    | nil => exact hv
    | cons t l ih =>
      refine ih _ fun r => ?_
      have h := sealed_modified hv t (fun c => { c with
        waiters := [], awaiting := none, scope := none, frames := [], tape := Tape.reset })
        (fun h => ⟨h.outcome, h.delivered⟩) r
      simp only [releaseLinks]
      split <;> exact h
  exact released _ w hs

/-- A cancelled coroutine does not end with a value. -/
theorem World.Event.sealed {a : Option (Ref .coroutine)} {w w' : World} (h : Event a w w')
    (hw : w.Coherent) (hs : ∀ r, (w.coroutines.get r).Sealed) (r : Ref .coroutine) :
    (w'.coroutines.get r).Sealed := by
  have modified (t : Ref .coroutine) (f : Coroutine → Coroutine)
      (hf : (f (w.coroutines.get t)).Sealed) :
      ((w.modifyCoroutine t f).coroutines.get r).Sealed :=
    sealed_modified hs t f (fun _ => hf) r
  -- only what ends, and what is flagged or reached by a cancellation, has anything to seal
  cases h with
  | aside _ _ hc =>
    rw [hc]
    exact hs r
  | settle t outcome _ hd ho =>
    have hflags := SameFlags.settle w t outcome hd r
    -- the one that ends keeps its outcome, which is an exception if it was cancelled
    by_cases hr : r = t ∧ w.Has r
    · obtain ⟨rfl, hr⟩ := hr
      refine ⟨fun _ hc => ?_, fun hdel => ?_⟩
      · rw [hflags.1] at hc
        obtain ⟨e, rfl⟩ := ho hc
        obtain ⟨-, hm⟩ := outcome_settle w (.error e) hr (hw.fresh hd)
        exact hm.symm.error_right
      · rw [hflags.1]
        rw [hflags.2] at hdel
        exact (hs r).delivered hdel
    · by_cases hne : r = t
      · rw [hne, get_settle_of_not_has outcome hd fun ht => hr ⟨hne, hne ▸ ht⟩]
        exact hs t
      · -- and who is woken is not done
        obtain ⟨he, -⟩ | ⟨-, hst, heap, he⟩ := get_settle_of_ne w outcome hne
        · rw [he]
          exact hs r
        · rw [he]
          exact ⟨fun hd' => by contradiction, (hs r).delivered⟩
  | fill t slot outcome =>
    refine modified t _ ?_
    split
    · split
      · exact hs t
      · exact ⟨(hs t).outcome, (hs t).delivered⟩
    · exact hs t
  | line t =>
    exact modified t (fun c => { c with stage := .runnable })
      ⟨fun hd => by contradiction, (hs t).delivered⟩
  | join t stage _ hst =>
    refine modified t (fun c => { c with stage }) ⟨fun hd => ?_, (hs t).delivered⟩
    obtain rfl | rfl := hst
    · contradiction
    · contradiction
  | parent child t slot =>
    exact modified child (fun c => { c with parents := c.parents ++ [(t, slot)] })
      ⟨(hs child).outcome, (hs child).delivered⟩
  | flag t hd =>
    exact modified t (fun c => { c with isCancelled := true })
      ⟨fun hd' => absurd (hd'.symm.trans hd) (by simp), fun _ => rfl⟩
  | deliver t hst hc =>
    obtain ⟨waiters, -, -, he⟩ := get_deliverCancellation hst r
    rw [he]
    split
    · exact ⟨fun hd => by contradiction, fun _ => hc⟩
    · exact ⟨(hs r).outcome, (hs r).delivered⟩
  | dequeue | clear => exact hs r

theorem World.Events.sealed {a : Option (Ref .coroutine)} {w w' : World} (h : Events a w w')
    (hw : w.Coherent) (hs : ∀ r, (w.coroutines.get r).Sealed) :
    ∀ r, (w'.coroutines.get r).Sealed := by
  induction h with
  | refl => exact hs
  | tail hes he ih => exact he.sealed (Events.coherent hes hw) ih

theorem Step.sealed {s s' : Situation} (h : Step s s') (hs : s.Coherent)
    (hw : ∀ r, (s.world.coroutines.get r).Sealed) (r : Ref .coroutine) :
    (s'.world.coroutines.get r).Sealed := by
  obtain ⟨c, w⟩ := s
  obtain ⟨c', w'⟩ := s'
  obtain ⟨hcoh, ha, hwait⟩ := hs
  dsimp only at hcoh ha hwait hw ⊢
  obtain ⟨he, -⟩ | ⟨hc, -⟩ | ⟨x, hx, -, -, -, -, hxd, -, -, rfl⟩ | ⟨t, hc, -, -, rfl⟩ |
    ⟨t, target, rfl, -, hne, -, rfl⟩ | ⟨t, rest, scope, f, owner, -, -, -, hnd, -, -, rfl⟩ |
    ⟨t, body, thread, rfl, -, -, -, rfl⟩ | ⟨-, rfl⟩ := h.cases
  · exact (he none (.inl rfl) (active_none w)).sealed hcoh hw r
  · rw [hc]
    exact hw r
  · obtain he | ⟨he, -⟩ := get_pushed w x r
    · rw [he]
      exact hw r
    · rw [he]
      exact ⟨fun hd => by simp [isDone, hx] at hd, fun hdel => by simp [hxd] at hdel⟩
  · exact sealed_modified hw t (fun c => { c with cancelDelivered := true })
      (fun h => ⟨h.outcome, fun _ => hc⟩) r
  · have waits := sealed_modified hw t (fun c => { c with
      stage := .suspendedAwait, awaiting := some target })
      fun h => ⟨fun hd => by contradiction, h.delivered⟩
    exact sealed_modified waits target (fun c => { c with waiters := c.waiters ++ [t] })
      (fun h => ⟨h.outcome, h.delivered⟩) r
  · exact sealed_modified (w := { w with loop := { w.loop with ready := rest } }) hw t
      (fun c => { c with stage := .running, scope := none, frames := [], tape := {} })
      (fun h => ⟨fun hd => by contradiction, h.delivered⟩) r
  · obtain ⟨target, ht, -⟩ := hwait rfl
    rw [get_keepTurn thread ht]
    exact sealed_modified hw t (fun c => { c with
      scope := some thread.scope, frames := thread.parked, tape := thread.tape })
      (fun h => ⟨h.outcome, h.delivered⟩) r
  · exact sealed_teardown hw r

theorem Reachable.sealed {env : Environment} {s : Situation} (h : Reachable env s) :
    ∀ r, (s.world.coroutines.get r).Sealed := by
  induction h with
  | refl =>
    intro r
    have hn : ((Machine.new env).situation .idle).world.coroutines.get r = default := by
      simp [Machine.situation, Machine.new, Arena.get, Arena.get?]
    rw [hn]
    exact ⟨fun hd => by contradiction, fun hd => by contradiction⟩
  | tail hs hstep ih =>
    have hr : Reachable env _ := hs
    exact hstep.sealed hr.coherent ih

/-! ### What a cancellation leads to -/

/-- A coroutine is cancelled: by one that has the turn, or only flagged, without a loop. -/
inductive Cancels (t : Ref .coroutine) : Situation → Situation → Prop
  | flag {c : Control} {w : World} : c.GoesOn → Cancels t ⟨c, w⟩ ⟨c, (w.flagCancelled t).2⟩
  | cancel {r : Ref .coroutine} {w : World} : Cancels t ⟨.turn r, w⟩ ⟨.turn r, (w.cancel t).2⟩

theorem Cancels.step {t : Ref .coroutine} {s s' : Situation} (h : Cancels t s s')
    (ht : s.world.Has t) : Step s s' := by
  cases h with
  | flag hg => exact .flag t hg ht
  | cancel => exact .cancel t ht

/-- An `await` of a coroutine that has failed raises. -/
theorem raises_waitFor {m : Machine} {r x : Ref .coroutine} (keyword : Token) {v : Value}
    {e : Raised} (ht : m.thread.task = some r) (hd : m.thread.driven = true)
    (hv : m.world.coroutine? v = some x) (hne : r ≠ x)
    (hdone : (m.world.coroutines.get x).isDone = true)
    (ho : (m.world.coroutines.get x).outcome = .error e) :
    ∃ e' m', waitFor keyword v m = .error (.raised e') m' := by
  have hm : launched m x = m := by
    unfold launched
    rw [if_pos hdone]
  rw [waitFor_run keyword v ht hd, hv]
  simp only [if_neg hne, hm, hdone, if_true, ho]
  let p := m.world.onHeap (Heap.duplicateOutcome (.error e))
  have hrun : (do settle (← onHeap (Heap.duplicateOutcome (.error e))) : Eval Held) m =
      settle p.1 { m with world := p.2 } := rfl
  rw [hrun, settle_run]
  exact ⟨_, _, rfl⟩

namespace World

/-- If the coroutine comes to its end it fails, and its exception is what the gather tasks it is a
child of and everyone who waits for it from then on get. -/
structure Fails (w : World) (x : Ref .coroutine) : Prop where
  outcome : (w.coroutines.get x).isDone = true → ∃ e, (w.coroutines.get x).outcome = .error e
  slot {p : Ref .coroutine} {g : GatherState} {i : Nat} {o : Outcome} :
    (w.coroutines.get p).kind = .gather g → g.children[i]? = some x →
    g.slots[i]? = some (some o) → ∃ e, o = .error e
  await {m : Machine} {r : Ref .coroutine} (keyword : Token) {v : Value} : m.world = w →
    m.thread.task = some r → m.thread.driven = true → w.coroutine? v = some x → r ≠ x →
    (w.coroutines.get x).isDone = true →
    ∃ e m', waitFor keyword v m = .error (.raised e) m'

/-- A coroutine that was cancelled fails. -/
theorem fails_of_cancelled {past : Heap → Prop} {w : World} {x : Ref .coroutine}
    (h : w.Accounts past .nobody []) (hs : (w.coroutines.get x).Sealed)
    (hc : (w.coroutines.get x).isCancelled = true) : w.Fails x := by
  refine ⟨fun hd => hs.outcome hd hc, fun {p g i o} hk hi ho => ?_,
    fun {m r} keyword {v} hm ht hd hv hne hdone => ?_⟩
  · obtain ⟨hd, heap, -, hm⟩ := h.filled hk hi ho
    obtain ⟨e, he⟩ := hs.outcome hd hc
    rw [he] at hm
    exact hm.error_right
  · subst hm
    obtain ⟨e, he⟩ := hs.outcome hdone hc
    exact raises_waitFor keyword ht hd hv hne hdone he

/-- What comes from a coroutine that ends with an exception is an exception. -/
theorem Sent.error {w : World} {r x : Ref .coroutine} {outcome : Outcome} (h : w.Sent r x outcome)
    (hx : (w.coroutines.get x).isDone = true → ∃ e, (w.coroutines.get x).outcome = .error e) :
    ∃ e, outcome = .error e := by
  obtain ⟨hd, hm⟩ | ⟨-, rfl⟩ := h
  · obtain ⟨e, he⟩ := hx hd
    rw [he] at hm
    exact hm.error_right
  · exact ⟨_, rfl⟩

end World

/-- The cancellation is raised in the body of a coroutine at the next statement, or while it waits,
only if it has not been raised before, and then it has been for good. -/
structure Situation.RaisesOnce (s : Situation) (x : Ref .coroutine) : Prop where
  statement {m m' : Machine} {raised : Raised} : m.world = s.world → m.thread.task = some x →
    takeCancellation m = .ok (some raised) m' →
    (s.world.coroutines.get x).cancelDelivered = false ∧
      (m'.world.coroutines.get x).cancelDelivered = true
  wait {t : Ref .coroutine} {before rest : List (Ref .coroutine)} :
    (s.world.flagCancelled t).1 = before ++ x :: rest →
    let w := before.foldl deliverCancellation (s.world.flagCancelled t).2
    (w.coroutines.get x).stage = .suspendedAwait →
    (w.coroutines.get x).cancelDelivered = false ∧
      ((w.deliverCancellation x).coroutines.get x).cancelDelivered = true
  stays {s' : Situation} : Steps s s' → (s.world.coroutines.get x).cancelDelivered = true →
    (s'.world.coroutines.get x).cancelDelivered = true

theorem Reachable.raisesOnce {env : Environment} {s : Situation} (h : Reachable env s)
    (x : Ref .coroutine) : s.RaisesOnce x := by
  refine ⟨fun {m m' raised} hm ht hrun => ?_, fun {t before rest} hl => ?_, fun {s'} hs hd => ?_⟩
  · -- the exception is raised by the statement of a body, which notes it first
    cases ha : m.thread.mode.inAsync with
    | false =>
      rw [takeCancellation_of_not_async ha] at hrun
      cases hrun
    | true =>
      rw [takeCancellation_of_async ha ht, hm] at hrun
      split at hrun
      · cases hrun
      · rename_i hn
        obtain ⟨hc, hd⟩ : (s.world.coroutines.get x).isCancelled = true ∧
            (s.world.coroutines.get x).cancelDelivered = false := by simpa using hn
        cases hrun
        refine ⟨hd, ?_⟩
        exact congrArg cancelDelivered (get_modifyCoroutine s.world x
          (fun c => { c with cancelDelivered := true }) (has_of_isCancelled hc))
  · -- the cancellation is delivered in the order of the list, to each once
    intro w hst
    have hx : (s.world.coroutines.get x).isCancelled = false :=
      isCancelled_of_flagged (s.world.coroutines.size + 1) (r := t) (by
        rw [show (flagWithin (s.world.coroutines.size + 1) s.world t).1 = before ++ x :: rest from hl]
        exact List.mem_append_right _ List.mem_cons_self)
    have hx' : (s.world.coroutines.get x).cancelDelivered = false := by
      refine Bool.eq_false_iff.2 fun hd => ?_
      rw [(h.sealed x).delivered hd] at hx
      contradiction
    have once (l : List (Ref .coroutine)) (v : World)
        (hv : (v.coroutines.get x).cancelDelivered = false ∨
          (v.coroutines.get x).stage ≠ .suspendedAwait) :
        ((l.foldl deliverCancellation v).coroutines.get x).cancelDelivered = false ∨
          ((l.foldl deliverCancellation v).coroutines.get x).stage ≠ .suspendedAwait := by
      induction l generalizing v with
      | nil => exact hv
      | cons r l ih => exact ih _ (deliverCancellation_once v r x hv)
    have hflags := (flags_flagWithin (s.world.coroutines.size + 1) s.world t).delivered x
    refine ⟨(once before _ (.inl (hflags.trans hx'))).resolve_right fun hn => hn hst, ?_⟩
    obtain ⟨waiters, -, -, he⟩ := get_deliverCancellation hst x
    rw [he, if_pos rfl]
  · exact (hs.later h.coherent (get?_of_get_ne fun he => by rw [he] at hd; contradiction)).delivered hd

/-- Whatever a coroutine that is cancelled gathers, if it is not done then it is cancelled too. -/
theorem Cancels.isCancelled {env : Environment} {s s' : Situation} {t x : Ref .coroutine}
    (h : Cancels t s s') (hr : Reachable env s) (ht : s.world.Has t)
    (hd : (s.world.coroutines.get t).isDone = false)
    (hx : Relation.ReflTransGen s.world.Gathers t x)
    (hxd : (s.world.coroutines.get x).isDone = false) :
    (s'.world.coroutines.get x).isCancelled = true := by
  let w₁ := (s.world.flagCancelled t).2
  have hflags : Flags s.world w₁ := flags_flagWithin _ s.world t
  obtain ⟨hcovered, hstopped⟩ := covered_flagCancelled ht
    (fun r child hg => hr.accounts.has_of_gathers hg) hr.covered
  have either {r : Ref .coroutine} (hs : (w₁.coroutines.get r).isStopped = true) :
      (s.world.coroutines.get r).isDone = true ∨ (w₁.coroutines.get r).isCancelled = true :=
    (isStopped_iff.1 hs).imp_left fun hd => (hflags.isDone r).symm.trans hd
  -- along what is gathered: either it is done, or it is flagged like the one above it
  have path {y : Ref .coroutine} (hy : Relation.ReflTransGen s.world.Gathers t y) :
      (s.world.coroutines.get y).isDone = true ∨ (w₁.coroutines.get y).isCancelled = true := by
    induction hy with
    | refl => exact either hstopped
    | @tail r child _ hg ih =>
      obtain hrd | hrc := ih
      · -- a gather task is done only after all it gathers
        refine .inl ?_
        unfold Gathers Coroutine.children at hg
        cases hk : (s.world.coroutines.get r).kind with
        | gather g =>
          rw [hk] at hg
          exact (hr.accounts.isDone_iff hk fun hn => by simp [isDone, hn] at hrd).1 hrd child hg
        | _ =>
          rw [hk] at hg
          contradiction
      · refine either (hcovered r (by simp) hrc child ?_)
        rwa [Gathers, hflags.children]
  have hcancelled : (w₁.coroutines.get x).isCancelled = true :=
    (path hx).resolve_left (Bool.eq_false_iff.1 hxd)
  cases h with
  | flag => exact hcancelled
  | cancel => exact ((evolves_cancel _ t).2 x).trans hcancelled

/-- Whoever was suspended until `x` is done, and has been woken by now, goes on with an exception. -/
def Situation.RaisesIn (env : Environment) (s : Situation) (x : Ref .coroutine) : Prop :=
  ∀ {y : Ref .coroutine} {w : World} {s₁ : Situation}, Reachable env ⟨.waiting y, w⟩ →
    (w.coroutines.get y).awaiting = some x → Step ⟨.waiting y, w⟩ s₁ → s₁.control ≠ .idle →
    Without y s₁ s → (s.world.coroutines.get y).stage = .runnable →
    ∃ e, (s.world.coroutines.get y).tape = (s₁.world.coroutines.get y).tape.inject (.error e)

theorem World.Fails.raisesIn {env : Environment} {s : Situation} {x : Ref .coroutine}
    (h : s.world.Fails x) : s.RaisesIn env x := by
  intro y w s₁ hr ha hstep hi hs hrun
  have hcoh := hr.coherent
  obtain ⟨target, hw⟩ := hcoh.waiting rfl
  obtain rfl : target = x := Option.some.inj (hw.2.symm.trans ha)
  have hcoh₁ := hstep.coherent hcoh
  cases hstep with
  | compute hg => exact absurd rfl (hg y)
  | create _ _ _ _ hg => exact absurd rfl (hg y)
  | tick hg => exact absurd rfl (hg y)
  | flag _ hg => exact absurd rfl (hg y)
  | close => contradiction
  | keep thread =>
    have hfate := fate_keepTurn thread hw
    have htape : ((Eval.keepTurn y thread w).coroutines.get y).tape = thread.tape := by
      rw [get_keepTurn thread hw.1]
      exact congrArg Coroutine.tape (get_modifyCoroutine w y _ (get?_of_stage (by simp [hw.1])))
    dsimp only
    rw [htape]
    cases hs.fate hcoh₁ hfate with
    | waiting hwait =>
      rw [hwait.1] at hrun
      contradiction
    | done hd => simp [isDone, hrun] at hd
    | woken outcome _ _ _ ht brings =>
      obtain ⟨s₀, s₀', before, -, wakes, sent, after⟩ := brings
      have coherent := wakes.coherent (before.steps.coherent hcoh₁)
      obtain ⟨e, rfl⟩ := sent.error fun hd => by
        -- what `x` had come to by then is what it comes to
        have has : s₀'.world.Has target := get?_of_stage fun hn => by simp [isDone, hn] at hd
        obtain ⟨hd', ho⟩ := (after.steps.later coherent has).done hd
        exact ho ▸ h.outcome hd'
      exact ⟨e, ht⟩

/-- A coroutine that is not done is cancelled, and with it everything that it gathers, at first or at
any remove, and that is not done yet.  However the session goes on, each of these fails or never
ends, whoever waits for it goes on with an exception, and the cancellation is raised in its body once
at most.  To cancel the coroutine again has no effect. -/
theorem cancellation_safe {env : Environment} {s₀ s₁ s : Situation} {t x : Ref .coroutine}
    (reachable : Reachable env s₀) (has : s₀.world.Has t)
    (alive : (s₀.world.coroutines.get t).isDone = false) (cancelled : Cancels t s₀ s₁)
    (steps : Steps s₁ s) (gathers : Relation.ReflTransGen s₀.world.Gathers t x)
    (unfinished : (s₀.world.coroutines.get x).isDone = false) :
    s.world.Fails x ∧ s.RaisesIn env x ∧ s.RaisesOnce x ∧
      s.world.cancel t = (false, s.world) ∧ s.world.flagCancelled t = ([], s.world) := by
  have reached₁ : Reachable env s₁ := .tail reachable (cancelled.step has)
  have reached : Reachable env s := Relation.ReflTransGen.trans reached₁ steps
  have stays {y : Ref .coroutine} (hy : (s₁.world.coroutines.get y).isCancelled = true) :
      (s.world.coroutines.get y).isCancelled = true :=
    (steps.later reached₁.coherent (has_of_isCancelled hy)).cancelled hy
  have hx := stays (cancelled.isCancelled reachable has alive gathers unfinished)
  have ht := stays (cancelled.isCancelled reachable has alive .refl alive)
  have fails : s.world.Fails x := fails_of_cancelled reached.accounts (reached.sealed x) hx
  have again : s.world.flagCancelled t = ([], s.world) :=
    flagWithin_of_stopped (isStopped_iff.2 (.inr ht))
  refine ⟨fails, fails.raisesIn, reached.raisesOnce x, ?_, again⟩
  simp only [World.cancel, again]
  rfl

/-! ### A gather task that is cancelled -/

/-- A loop whose first coroutine has the turn and has made a gather task of a timer, which waits. -/
def gatheringTurn : Situation :=
  let w := patientLoop.world
  let w := modifyCoroutine { w with loop := { w.loop with ready := [] } } ⟨0⟩ fun c =>
    { c with stage := .running, scope := none, frames := [], tape := {} }
  let task : Coroutine :=
    { serial := 3, name := "gather_task", kind := .gather (.ofChildren [⟨1⟩] false) }
  let w := { w with coroutines := w.coroutines.push task }
  ⟨.turn ⟨0⟩, w.start ⟨2⟩⟩

theorem reachable_gatheringTurn : Reachable {} gatheringTurn := by
  refine .tail (.tail (.tail reachable_patientLoop (.resume rfl rfl rfl rfl fun h => by contradiction))
    (.create 3 "gather_task" (.gather (.ofChildren [⟨1⟩] false)) none (by simp [Control.GoesOn]) ?_))
    (.start ⟨2⟩ rfl)
  rintro g ⟨⟩
  refine ⟨_, _, rfl, fun child hm => ?_⟩
  obtain rfl : child = ⟨1⟩ := by simpa using hm
  rfl

theorem cancellation_safe_of_gatheringTurn :
    let s : Situation := ⟨.turn ⟨0⟩, (gatheringTurn.world.cancel ⟨2⟩).2⟩
    (gatheringTurn.world.cancel ⟨2⟩).1 = true ∧
      (s.world.coroutines.get ⟨1⟩).isDone = true ∧ s.world.Fails ⟨1⟩ ∧ s.RaisesIn {} ⟨1⟩ ∧
      s.RaisesOnce ⟨1⟩ ∧ s.world.cancel ⟨2⟩ = (false, s.world) := by
  intro s
  have gathers : Relation.ReflTransGen gatheringTurn.world.Gathers ⟨2⟩ ⟨1⟩ :=
    .single (show (⟨1⟩ : Ref .coroutine) ∈ [⟨1⟩] from List.mem_singleton_self _)
  have has : gatheringTurn.world.Has ⟨2⟩ := rfl
  have cancelled : Cancels ⟨2⟩ gatheringTurn s := .cancel
  obtain ⟨fails, raises, once, again, -⟩ := cancellation_safe reachable_gatheringTurn has
    (by decide +kernel) cancelled .refl gathers (by decide +kernel)
  exact ⟨by decide +kernel, by decide +kernel, fails, raises, once, again⟩

end Rewind
