/-
Timers.

A timer that a loop has started sleeps until it is done.  A poll ends those whose time has come, each
when all that wake before it have ended, and nothing else ends a timer but a cancellation: one that
reaches it in the loop ends it at once, and one that only flags it lets it sleep on.

* `World.Sleeps`, `World.Spares` — the timers of a loop, and transitions that let them be;
* `World.Timed` — the sleepers are the timers that sleep, in the order in which they wake;
* `Timed.finish`, `Timed.start`, `Timed.cancel`, `Timed.poll` — each transition keeps them so;
* `Step.timed`, `Reachable.timed` — and so does each step;
* `timers_in_order` — which timer is done when, in every session.
-/
import Rewind.Proofs.Cancellation
import Rewind.Proofs.Yielding
import Rewind.Session

namespace Rewind

open Coroutine World

/-! ### Timers that are let be -/

/-- If either is a timer, both wake at the same time, and they are both done or both not. -/
structure Coroutine.Ticks (c c' : Coroutine) : Prop where
  timer {wake : Nat} : c'.kind = .timer wake ↔ c.kind = .timer wake
  done {wake : Nat} : c.kind = .timer wake → c'.isDone = c.isDone

theorem Coroutine.Ticks.refl (c : Coroutine) : c.Ticks c := ⟨Iff.rfl, fun _ => rfl⟩

theorem Coroutine.Ticks.trans {c₁ c₂ c₃ : Coroutine} (h : c₁.Ticks c₂) (h' : c₂.Ticks c₃) :
    c₁.Ticks c₃ :=
  ⟨h'.timer.trans h.timer, fun hk => (h'.done (h.timer.2 hk)).trans (h.done hk)⟩

namespace World

/-- A timer sleeps: the loop has started it, and it is not done. -/
structure Sleeps (w : World) (wake : Nat) (t : Ref .coroutine) : Prop where
  started : t ∈ w.loop.started
  kind : (w.coroutines.get t).kind = .timer wake
  waits : (w.coroutines.get t).isDone = false

/-- Whoever has joined a loop is a timer as before, and done as before, unless it is in `out`. -/
structure Spares (out : List (Ref .coroutine)) (w w' : World) : Prop where
  joined {r : Ref .coroutine} : (w.coroutines.get r).stage ≠ .new →
    (w'.coroutines.get r).stage ≠ .new
  ticks {r : Ref .coroutine} : (w.coroutines.get r).stage ≠ .new → r ∉ out →
    (w.coroutines.get r).Ticks (w'.coroutines.get r)

variable {out : List (Ref .coroutine)} {u v w w' : World} {r : Ref .coroutine} {wake : Nat}

namespace Spares

theorem of_same (h : w'.coroutines = w.coroutines) : Spares out w w' := by
  refine ⟨fun hn => ?_, fun _ _ => ?_⟩
  · rwa [h]
  · rw [h]
    exact .refl _

theorem refl (w : World) : Spares out w w := of_same rfl

theorem trans (h : Spares out u v) (h' : Spares out v w) : Spares out u w :=
  ⟨fun hn => h'.joined (h.joined hn), fun hn ho => (h.ticks hn ho).trans (h'.ticks (h.joined hn) ho)⟩

theorem append {out' : List (Ref .coroutine)} (h : Spares out u v) (h' : Spares out' v w) :
    Spares (out ++ out') u w := by
  refine ⟨fun hn => h'.joined (h.joined hn), fun hn ho => ?_⟩
  obtain ⟨ho, ho'⟩ := not_or.1 fun hm => ho (List.mem_append.2 hm)
  exact (h.ticks hn ho).trans (h'.ticks (h.joined hn) ho')

/-- The same after a change that the records do not show. -/
theorem after (h : Spares out v w) (hc : v.coroutines = u.coroutines) : Spares out u w :=
  (of_same hc).trans h

theorem foldl {α : Type} {f : World → α → World} (h : ∀ w a, Spares out w (f w a)) (w : World)
    (l : List α) : Spares out w (l.foldl f w) := by
  induction l generalizing w with
  | nil => exact refl w
  | cons a l ih => exact (h w a).trans (ih (f w a))

/-- One record changes, and stays the timer that it was if it was one. -/
theorem modify (w : World) (r : Ref .coroutine) (f : Coroutine → Coroutine)
    (hn : (w.coroutines.get r).stage ≠ .new → (f (w.coroutines.get r)).stage ≠ .new)
    (hf : (w.coroutines.get r).stage ≠ .new → (w.coroutines.get r).Ticks (f (w.coroutines.get r))) :
    Spares out w (w.modifyCoroutine r f) := by
  refine ⟨fun {s} hs => ?_, fun {s} hs _ => ?_⟩
  · obtain he | ⟨rfl, -, he⟩ := get_modified w r f s
    · rwa [he]
    · rw [he]
      exact hn hs
  · obtain he | ⟨rfl, -, he⟩ := get_modified w r f s
    · rw [he]
      exact .refl _
    · rw [he]
      exact hf hs

end Spares

/-! ### Ends -/

/-- Whoever is in `out`, or is no timer, may end. -/
theorem spares_settle (w : World) {r : Ref .coroutine} (outcome : Outcome)
    (hd : (w.coroutines.get r).isDone = false)
    (ho : r ∈ out ∨ ∀ wake, (w.coroutines.get r).kind ≠ .timer wake) :
    Spares out w (w.settle r outcome) := by
  have hev := evolves_settle w r outcome hd
  refine ⟨fun hn => hev.not_new hn, fun {s} hn hs => ?_⟩
  by_cases hsr : s = r
  · subst hsr
    have hk := ho.resolve_left hs
    obtain ⟨hkind, -⟩ := bare_settle w outcome (get?_of_stage hn)
    exact ⟨fun {wake} => by rw [hkind], fun {wake} hw => absurd hw (hk wake)⟩
  · obtain ⟨he, -⟩ | ⟨-, hst, heap, he⟩ := get_settle_of_ne w outcome hsr
    · rw [he]
      exact .refl _
    · rw [he]
      exact ⟨Iff.rfl, fun _ => by simp [isDone, hst]⟩

theorem spares_report (w : World) (outcome : Outcome) (r : Ref .coroutine) (slot : Nat) :
    Spares out w (w.report outcome r slot) := by
  refine Spares.after (v := (w.copyOutcome outcome).2) (.modify _ r _ (fun hn => ?_) fun _ => ?_) rfl
  · split
    · split <;> exact hn
    · exact hn
  · split
    · rename_i g hk
      split
      · exact .refl _
      · exact ⟨fun {wake} => by simp [hk], fun _ => rfl⟩
    · exact .refl _

theorem spares_finishWithin (depth : Nat) (w : World) {r : Ref .coroutine} (outcome : Outcome)
    (ho : r ∈ out ∨ ∀ wake, (w.coroutines.get r).kind ≠ .timer wake) :
    Spares out w (finishWithin depth w r outcome) := by
  induction depth generalizing w r outcome with
  | zero => exact .refl w
  | succ depth ih =>
    simp only [finishWithin]
    split
    · exact .refl w
    · rename_i hd
      refine (spares_settle w _ (Bool.eq_false_iff.2 hd) ho).trans (.foldl (fun v x => ?_) _ _)
      have reported : Spares out v _ :=
        spares_report v (finalOutcome (w.coroutines.get r) outcome) x.1 x.2
      split
      · rename_i g hg
        -- the ones that end in turn are gather tasks
        obtain ⟨hk, -⟩ := completeGather?_eq_some.1 hg
        exact reported.trans (Spares.after
          (ih _ _ (.inr fun wake hw => absurd (hk.symm.trans hw) (by simp))) rfl)
      · exact reported

theorem spares_finish (w : World) {r : Ref .coroutine} (outcome : Outcome)
    (ho : r ∈ out ∨ ∀ wake, (w.coroutines.get r).kind ≠ .timer wake) :
    Spares out w (w.finish r outcome) := spares_finishWithin _ w outcome ho

/-- The same sleepers, and the same coroutines that have been started. -/
structure SameLists (w w' : World) : Prop where
  sleepers : w'.loop.sleepers = w.loop.sleepers
  started : w'.loop.started = w.loop.started

namespace SameLists

theorem of_loop (h : w'.loop = w.loop) : SameLists w w' := ⟨by rw [h], by rw [h]⟩

theorem trans (h : SameLists u v) (h' : SameLists v w) : SameLists u w :=
  ⟨h'.sleepers.trans h.sleepers, h'.started.trans h.started⟩

/-- The same after a change that the loop does not show. -/
theorem after (h : SameLists v w) (hl : v.loop = u.loop) : SameLists u w := (of_loop hl).trans h

theorem foldl {α : Type} {f : World → α → World} (h : ∀ w a, SameLists w (f w a)) (w : World)
    (l : List α) : SameLists w (l.foldl f w) := by
  induction l generalizing w with
  | nil => exact of_loop rfl
  | cons a l ih => exact (h w a).trans (ih (f w a))

theorem settle (w : World) (r : Ref .coroutine) (outcome : Outcome) :
    SameLists w (w.settle r outcome) := by
  obtain ⟨ready, h⟩ := loop_settle w r outcome
  exact ⟨by rw [h], by rw [h]⟩

theorem finishWithin (depth : Nat) (w : World) (r : Ref .coroutine) (outcome : Outcome) :
    SameLists w (finishWithin depth w r outcome) := by
  induction depth generalizing w r outcome with
  | zero => exact of_loop rfl
  | succ depth ih =>
    simp only [World.finishWithin]
    split
    · exact of_loop rfl
    · refine (settle w r _).trans (foldl (fun v x => ?_) _ _)
      have reported : SameLists v (v.report (finalOutcome (w.coroutines.get r) outcome) x.1 x.2) :=
        of_loop rfl
      split
      · rename_i g _
        exact reported.trans ((ih _ x.1 _).after rfl)
      · exact reported

theorem finish (w : World) (r : Ref .coroutine) (outcome : Outcome) :
    SameLists w (w.finish r outcome) := finishWithin _ w r outcome

end SameLists

/-! ### Sleepers -/

/-- The sleepers of a loop are its timers that sleep, in the order in which they wake; those in `out`
have been taken off before they end. -/
structure Timed (out : List (Ref .coroutine)) (w : World) : Prop where
  sleeping {wake : Nat} {r : Ref .coroutine} :
    (wake, r) ∈ w.loop.sleepers ↔ w.Sleeps wake r ∧ r ∉ out
  sorted : w.loop.sleepers.Pairwise (Before w.loop.started)
  once : w.loop.started.Nodup
  joined {r : Ref .coroutine} : r ∈ w.loop.started → (w.coroutines.get r).stage ≠ .new

theorem Spares.sleeps_iff (h : Spares out w w') (hl : w'.loop.started = w.loop.started)
    (hn : r ∈ w.loop.started → (w.coroutines.get r).stage ≠ .new) (ho : r ∉ out) :
    w'.Sleeps wake r ↔ w.Sleeps wake r := by
  constructor
  · intro hs
    have hm : r ∈ w.loop.started := hl ▸ hs.started
    have ht := h.ticks (hn hm) ho
    have hk := ht.timer.1 hs.kind
    exact ⟨hm, hk, (ht.done hk).symm.trans hs.waits⟩
  · intro hs
    have ht := h.ticks (hn hs.started) ho
    exact ⟨hl.symm ▸ hs.started, ht.timer.2 hs.kind, (ht.done hs.kind).trans hs.waits⟩

namespace Timed

/-- All timers are let be, apart from those that are off the list. -/
theorem spare (h : w.Timed out) (hp : Spares out w w') (hl : SameLists w w') :
    w'.Timed out := by
  refine ⟨fun {wake r} => ?_, ?_, ?_, fun {r} hr => ?_⟩
  · rw [hl.sleepers, h.sleeping]
    exact and_congr_left fun ho => (hp.sleeps_iff hl.started h.joined ho).symm
  · rw [hl.sleepers, hl.started]
    exact h.sorted
  · rw [hl.started]
    exact h.once
  · exact hp.joined (h.joined (hl.started ▸ hr))

/-- A loop with nothing in it. -/
theorem empty (hs : w.loop.sleepers = []) (hn : w.loop.started = []) : w.Timed out := by
  refine ⟨fun {wake r} => ?_, ?_, ?_, fun {r} hr => ?_⟩
  · rw [hs]
    refine iff_of_false List.not_mem_nil fun hs => ?_
    have hm := hs.1.started
    rw [hn] at hm
    contradiction
  · rw [hs]
    exact .nil
  · rw [hn]
    exact List.nodup_nil
  · rw [hn] at hr
    contradiction

/-- Those that are done need not be kept apart any more. -/
theorem home (h : w.Timed out) (hd : ∀ r ∈ out, (w.coroutines.get r).isDone = true) :
    w.Timed [] := by
  refine { h with sleeping := fun {wake r} => h.sleeping.trans ?_ }
  refine and_congr_right fun hs => iff_of_true (fun ho => ?_) (by simp)
  exact absurd ((hd r ho).symm.trans hs.waits) (by simp)

/-- Timers are taken off the list. -/
theorem takeOff (h : w.Timed []) {sleepers : List (Nat × Ref .coroutine)}
    (hsub : sleepers.Sublist w.loop.sleepers)
    (ho : ∀ x ∈ w.loop.sleepers, x ∈ sleepers ↔ x.2 ∉ out) :
    Timed out { w with loop := { w.loop with sleepers } } := by
  refine ⟨fun {wake r} => ?_, h.sorted.sublist hsub, h.once, h.joined⟩
  have same : Sleeps { w with loop := { w.loop with sleepers } } wake r ↔ w.Sleeps wake r :=
    ⟨fun hs => ⟨hs.started, hs.kind, hs.waits⟩, fun hs => ⟨hs.started, hs.kind, hs.waits⟩⟩
  rw [same]
  constructor
  · intro hm
    have hm' := hsub.subset hm
    exact ⟨(h.sleeping.1 hm').1, (ho _ hm').1 hm⟩
  · rintro ⟨hs, hn⟩
    exact (ho (wake, r) (h.sleeping.2 ⟨hs, by simp⟩)).2 hn

/-- The timers that are due are sleepers no more. -/
theorem due (h : w.Timed []) :
    Timed ((w.loop.sleepers.takeWhile (·.1 ≤ w.loop.now)).map Prod.snd) { w with
      loop := { w.loop with sleepers := w.loop.sleepers.dropWhile (·.1 ≤ w.loop.now) } } := by
  refine h.takeOff (List.dropWhile_sublist _) fun x hx => ⟨fun hlate hm => ?_, fun hn => ?_⟩
  · obtain ⟨y, hy, he⟩ := List.mem_map.1 hm
    -- both are entries of the same timer
    have hk := (h.sleeping.1 ((List.takeWhile_sublist _).subset hy)).1.kind
    have hk' := (h.sleeping.1 hx).1.kind
    rw [he, hk'] at hk
    have hlt := lt_of_mem_dropWhile h.sorted hlate
    rw [CoroutineKind.timer.inj hk] at hlt
    exact absurd (le_of_mem_takeWhile hy) (Nat.not_le_of_lt hlt)
  · rw [← List.takeWhile_append_dropWhile (p := (·.1 ≤ w.loop.now)) (l := w.loop.sleepers)] at hx
    exact (List.mem_append.1 hx).resolve_left fun hm => hn (List.mem_map_of_mem hm)

/-- A timer that is cancelled is no sleeper any more. -/
theorem rouse (h : w.Timed []) (r : Ref .coroutine) :
    Timed [r] { w with
      loop := { w.loop with sleepers := w.loop.sleepers.filter (·.2 != r) } } :=
  h.takeOff List.filter_sublist fun x hx => by simp [List.mem_filter, hx]

/-! ### Transitions -/

/-- A coroutine that is off the list, or is no timer, comes to its end. -/
theorem finish (h : w.Timed out) (outcome : Outcome)
    (ho : r ∈ out ∨ ∀ wake, (w.coroutines.get r).kind ≠ .timer wake) :
    (w.finish r outcome).Timed out :=
  h.spare (spares_finish w outcome ho) (.finish w r outcome)

/-- A new coroutine joins the loop, and a timer its place among the sleepers. -/
theorem join (h : w.Timed []) {stage : Stage} (hr : w.Has r)
    (hn : (w.coroutines.get r).stage = .new) (hs : stage ≠ .new ∧ stage ≠ .done)
    (hc : w'.coroutines = (w.enroll r stage).coroutines)
    (hstarted : w'.loop.started = r :: w.loop.started)
    (hsleepers : w'.loop.sleepers = match (w.coroutines.get r).kind with
      | .timer wake => insertSleeper w.loop.sleepers wake r
      | _ => w.loop.sleepers) : w'.Timed [] := by
  have self : w'.coroutines.get r = { w.coroutines.get r with stage } := by
    rw [hc]
    exact get_modifyCoroutine w r _ hr
  have other {s : Ref .coroutine} (hsr : s ≠ r) : w'.coroutines.get s = w.coroutines.get s := by
    rw [hc]
    exact get_enroll_of_ne w r stage hsr
  -- a new one has not joined, so it is not on the list
  have hout : r ∉ w.loop.started := fun hm => h.joined hm hn
  have asleep {wake : Nat} : (wake, r) ∉ w.loop.sleepers := fun hm =>
    hout (h.sleeping.1 hm).1.started
  refine ⟨fun {wake s} => ?_, ?_, ?_, fun {s} hm => ?_⟩
  · by_cases hsr : s = r
    · subst hsr
      -- what sleeps is exactly a timer that has joined and is not done
      have sleeps : w'.Sleeps wake s ↔ (w.coroutines.get s).kind = .timer wake := by
        refine ⟨fun hs' => ?_, fun hk => ⟨hstarted ▸ List.mem_cons_self, ?_, ?_⟩⟩
        · have hk := hs'.kind
          rwa [self] at hk
        · rw [self]
          exact hk
        · rw [self, isDone]
          simpa using hs.2
      rw [hsleepers, sleeps]
      cases hk : (w.coroutines.get s).kind with
      | timer wake' =>
        simp only [Accounts.mem_insertSleeper, asleep]
        simp [eq_comm]
      | _ => simp [asleep]
    · have sleeps : w'.Sleeps wake s ↔ w.Sleeps wake s := by
        refine ⟨fun hs' => ⟨?_, other hsr ▸ hs'.kind, other hsr ▸ hs'.waits⟩, fun hs' =>
          ⟨?_, (other hsr).symm ▸ hs'.kind, (other hsr).symm ▸ hs'.waits⟩⟩
        · exact (List.mem_cons.1 (hstarted ▸ hs'.started)).resolve_left hsr
        · exact hstarted ▸ List.mem_cons_of_mem r hs'.started
      rw [sleeps, ← h.sleeping, hsleepers]
      split
      · rw [Accounts.mem_insertSleeper]
        simp [hsr]
      · rfl
  · -- the list stays in order, since who has joined before comes before the new one
    have later := h.sorted.imp fun hb => hb.cons r
    rw [hsleepers, hstarted]
    split
    · exact sorted_insertSleeper h.sorted (fun x hx => (h.sleeping.1 hx).1.started) _ r
    · exact later
  · rw [hstarted]
    exact List.nodup_cons.2 ⟨hout, h.once⟩
  · by_cases hsr : s = r
    · rw [hsr, self]
      exact hs.1
    · rw [other hsr]
      exact h.joined ((List.mem_cons.1 (hstarted ▸ hm)).resolve_left hsr)

end Timed

/-- Whoever is of the loop then and had joined one before was of the loop before, and all of that one
are still there in the same order. -/
def Carries (w w' : World) : Prop :=
  ∀ r ∈ w'.loop.started, (w.coroutines.get r).stage ≠ .new →
    r ∈ w.loop.started ∧ w.loop.started.Sublist w'.loop.started

theorem Carries.of_eq (h : w'.loop.started = w.loop.started) : Carries w w' := fun _ hr _ =>
  ⟨h ▸ hr, h ▸ .refl _⟩

theorem Carries.trans (h : Carries u v) (hp : Spares out u v) (h' : Carries v w) :
    Carries u w := by
  intro r hr hn
  obtain ⟨hm, hs⟩ := h' r hr (hp.joined hn)
  obtain ⟨hm', hs'⟩ := h r hm hn
  exact ⟨hm', hs'.trans hs⟩

/-- The timers of a loop are in order and have been let be since another moment. -/
structure Prolongs (w₀ w : World) : Prop where
  timed : w.Timed []
  spares : Spares [] w₀ w
  carries : Carries w₀ w

namespace Prolongs

variable {w₀ : World}

theorem next (h : Prolongs w₀ w) (hp : Spares [] w w') (hl : SameLists w w') : Prolongs w₀ w' :=
  ⟨h.timed.spare hp hl, h.spares.trans hp, h.carries.trans h.spares (.of_eq hl.started)⟩

theorem join (h : Prolongs w₀ w) {stage : Stage} (hr : w.Has r)
    (hn : (w.coroutines.get r).stage = .new) (hs : stage ≠ .new ∧ stage ≠ .done)
    (hc : w'.coroutines = (w.enroll r stage).coroutines)
    (hstarted : w'.loop.started = r :: w.loop.started)
    (hsleepers : w'.loop.sleepers = match (w.coroutines.get r).kind with
      | .timer wake => insertSleeper w.loop.sleepers wake r
      | _ => w.loop.sleepers) : Prolongs w₀ w' := by
  have hp : Spares [] w w' := by
    refine Spares.trans (.modify w r (fun c => { c with stage }) ?_ ?_) (.of_same hc)
    · exact fun hn' => absurd hn hn'
    · exact fun hn' => absurd hn hn'
  refine ⟨h.timed.join hr hn hs hc hstarted hsleepers, h.spares.trans hp,
    h.carries.trans h.spares fun s hm hn' => ?_⟩
  rw [hstarted] at hm ⊢
  refine ⟨(List.mem_cons.1 hm).resolve_left ?_, List.sublist_cons_self r _⟩
  rintro rfl
  exact hn' hn

end Prolongs

/-- Timers are let be through everything that follows from a start. -/
theorem prolongs_kept (past : Heap → Prop) (w₀ : World) :
    Kept fun f dues w => w.Accounts past f dues ∧ Prolongs w₀ w := by
  have books := accounts_kept past
  refine ⟨fun h => books.fresh h.1, fun h => books.has h.1, fun f h => ⟨books.attend f h.1, h.2⟩,
    fun h hs => ⟨books.begun h.1 hs, h.2⟩, fun h hr => ⟨books.rest h.1 hr, h.2⟩,
    fun {dues w r g} h hg => ⟨books.conclude h.1 hg, ?_⟩,
    fun {dues w d outcome} h hd ho => ⟨books.report h.1 hd ho, ?_⟩,
    fun {dues w d} h hd => ⟨books.link h.1 hd, ?_⟩,
    fun h hr hn hk => ⟨books.line h.1 hr hn hk, ?_⟩,
    fun h hr hn hk => ⟨books.sleep h.1 hr hn hk, ?_⟩,
    fun h hr hn hk => ⟨books.join h.1 hr hn hk, ?_⟩⟩
  · obtain ⟨hk, hd, -⟩ := completeGather?_eq_some.1 hg
    let total := (w.onHeap g.outcome).1
    let w₁ := (w.onHeap g.outcome).2
    have hp : Spares [] w₁ (w₁.settle r (finalOutcome (w₁.coroutines.get r) total)) :=
      spares_settle w₁ _ hd (.inr fun wake hw => absurd (hk.symm.trans hw) (by simp))
    exact h.2.next (hp.after rfl) ((SameLists.settle w₁ r _).after rfl)
  · exact h.2.next (spares_report w outcome d.task d.slot) (.of_loop rfl)
  · exact h.2.next (.modify w d.child _ id fun _ => ⟨Iff.rfl, fun _ => rfl⟩) (.of_loop rfl)
  · exact h.2.join hr hn ⟨by simp, by simp⟩ rfl rfl (by rw [hk]; rfl)
  · exact h.2.join hr hn ⟨by simp, by simp⟩ rfl rfl (by rw [hk]; rfl)
  · exact h.2.join hr hn ⟨by simp, by simp⟩ rfl rfl (by rw [hk]; rfl)

theorem Timed.start {past : Heap → Prop} (h : w.Timed []) (ha : w.Accounts past .nobody [])
    (hr : w.Has r) : Prolongs w (w.start r) :=
  ((prolongs_kept past w).start hr ⟨ha, h, .refl w, .of_eq rfl⟩).2

/-! ### Cancellations -/

theorem Timed.flag (h : w.Timed []) (r : Ref .coroutine) :
    Spares [] w (w.flagCancelled r).2 ∧ SameLists w (w.flagCancelled r).2 ∧
      (w.flagCancelled r).2.Timed [] := by
  have hp : Spares [] w (w.flagCancelled r).2 ∧ SameLists w (w.flagCancelled r).2 :=
    flagWithin_keeps (P := fun v => Spares [] w v ∧ SameLists w v)
      (fun v s hv _ _ => ⟨hv.1.trans (.modify v s _ id fun _ => ⟨Iff.rfl, fun _ => rfl⟩),
        hv.2.trans (.of_loop rfl)⟩) _ r ⟨.refl w, .of_loop rfl⟩
  exact ⟨hp.1, hp.2, h.spare hp.1 hp.2⟩

/-- A coroutine that is flagged now and was not before is among those that are newly flagged. -/
theorem mem_flagWithin (depth : Nat) {w : World} {r s : Ref .coroutine}
    (hc : ((flagWithin depth w r).2.coroutines.get s).isCancelled = true) :
    (w.coroutines.get s).isCancelled = true ∨ s ∈ (flagWithin depth w r).1 := by
  induction depth generalizing w r with
  | zero => exact .inl hc
  | succ depth ih =>
    by_cases hst : (w.coroutines.get r).isStopped = true
    · rw [flagWithin_of_stopped hst] at hc
      exact .inl hc
    · rw [flagWithin_succ hst] at hc ⊢
      have children (l : List (Ref .coroutine)) (p : List (Ref .coroutine) × World)
          (hp : (p.2.coroutines.get s).isCancelled = true →
            (w.coroutines.get s).isCancelled = true ∨ s ∈ p.1) :
          let q := l.foldl (fun p child =>
            (p.1 ++ (flagWithin depth p.2 child).1, (flagWithin depth p.2 child).2)) p
          (q.2.coroutines.get s).isCancelled = true →
            (w.coroutines.get s).isCancelled = true ∨ s ∈ q.1 := by
        induction l generalizing p with
        | nil => exact hp
        | cons child l ihl =>
          refine ihl _ fun hs => ?_
          obtain hs | hs := ih hs
          · exact (hp hs).imp_right fun hm => List.mem_append_left _ hm
          · exact .inr (List.mem_append_right _ hs)
      refine children _ _ (fun hs => ?_) hc
      obtain he | ⟨rfl, -, -⟩ := get_modified w r (fun c => { c with isCancelled := true }) s
      · rw [he] at hs
        exact .inl hs
      · exact .inr (List.mem_singleton_self s)

/-- A timer is done: with nothing, or with the cancellation if it was cancelled. -/
structure Rung (w : World) (t : Ref .coroutine) : Prop where
  done : (w.coroutines.get t).isDone = true
  outcome : (w.coroutines.get t).outcome =
    if (w.coroutines.get t).isCancelled then .error (cancellation 0 0) else .ok .null

/-- A timer that has come to its end. -/
theorem rung_finish {t : Ref .coroutine} (ht : w.Has t)
    (hd : (w.coroutines.get t).isDone = false) (he : (w.coroutines.get t).exception = none) :
    (w.finish t (.ok .null)).Rung t := by
  let outcome := finalOutcome (w.coroutines.get t) (.ok .null)
  obtain ⟨hdone, -⟩ := outcome_settle w outcome ht he
  have hev := evolves_finish w t (.ok .null) hd
  have hs : (w.settle t outcome).coroutines.get t = (w.complete t outcome).coroutines.get t := by
    obtain ⟨hst, -⟩ := get_complete w outcome ht he
    exact get_settle w outcome (by rw [hst]; simp)
  refine ⟨(hev.done hdone).1, ?_⟩
  rw [(hev.done hdone).2, hs, (get_complete w outcome ht he).2.2.2.2,
    (SameFlags.finish w t (.ok .null) t).1]
  show (Heap.duplicateOutcome (if _ then _ else _) w.heap).1 = _
  split <;> rfl

theorem Rung.evolves {t : Ref .coroutine} (h : w.Rung t) (he : Evolves w w')
    (hf : (w'.coroutines.get t).isCancelled = (w.coroutines.get t).isCancelled) : w'.Rung t := by
  obtain ⟨hd, ho⟩ := he.done h.done
  exact ⟨hd, by rw [ho, hf, h.outcome]⟩

theorem has_of_sleeps {past : Heap → Prop} (ha : w.Accounts past .nobody []) (h : w.Timed [])
    (hs : w.Sleeps wake r) : w.Has r := (ha.sleepers _ (h.sleeping.2 ⟨hs, by simp⟩)).1

/-- A cancellation reaches a coroutine: if that one is a timer that sleeps it is done at once, and all
other timers are let be. -/
theorem Timed.deliver {past : Heap → Prop} (h : w.Timed []) (ha : w.Accounts past .nobody [])
    (r : Ref .coroutine) :
    (w.deliverCancellation r).Timed [] ∧ Spares [r] w (w.deliverCancellation r) ∧
      (w.deliverCancellation r).loop.started = w.loop.started ∧
      ∀ wake, w.Sleeps wake r → (w.deliverCancellation r).Rung r := by
  -- whoever sleeps is in the stage of a timer, so nothing else is reached while it sleeps
  have restless {stage : Stage} (hst : (w.coroutines.get r).stage = stage)
      (hn : stage ≠ .suspendedTimer) (wake : Nat) (hs : w.Sleeps wake r) : False := by
    have hfit := (ha.regular r).fits
    unfold Coroutine.Fits at hfit
    rw [hs.kind] at hfit
    obtain hfit | hfit | hfit := hfit
    · exact h.joined hs.started hfit
    · exact hn (hst.symm.trans hfit)
    · have hw := hs.waits
      rw [isDone, hfit] at hw
      contradiction
  cases hst : (w.coroutines.get r).stage with
  | suspendedAwait =>
    have hp : Spares [] w (w.deliverCancellation r) := by
      refine ⟨fun {s} hn => ?_, fun {s} hn _ => ?_⟩
      · obtain ⟨waiters, -, -, he⟩ := get_deliverCancellation hst s
        rw [he]
        split
        · simp
        · exact hn
      · obtain ⟨waiters, -, -, he⟩ := get_deliverCancellation hst s
        rw [he]
        split
        · rename_i hsr
          subst hsr
          exact ⟨Iff.rfl, fun _ => by simp [isDone, hst]⟩
        · exact ⟨Iff.rfl, fun _ => rfl⟩
    obtain ⟨ready, hloop⟩ := loop_deliverCancellation hst
    have hl : SameLists w (w.deliverCancellation r) := ⟨by rw [hloop], by rw [hloop]⟩
    exact ⟨h.spare hp hl, ⟨hp.joined, fun hn _ => hp.ticks hn (by simp)⟩, hl.started,
      fun wake hs => (restless hst (by simp) wake hs).elim⟩
  -- the timer is taken off the list and ends as if it were due
  | suspendedTimer =>
    let w₁ : World := { w with
      loop := { w.loop with sleepers := w.loop.sleepers.filter (·.2 != r) } }
    have hr : w₁.Has r := get?_of_stage (by rw [show (w₁.coroutines.get r).stage = _ from hst]; simp)
    have hd : (w₁.coroutines.get r).isDone = false := by
      rw [isDone, show (w₁.coroutines.get r).stage = _ from hst]
      rfl
    have ended := isDone_finish (w := w₁) (.ok .null) hr
    have finished : (w₁.finish r (.ok .null)).Timed [r] :=
      (h.rouse r).finish (.ok .null) (.inl (List.mem_singleton_self r))
    simp only [deliverCancellation, hst]
    refine ⟨finished.home fun s hs => by rwa [List.mem_singleton.1 hs],
      (spares_finish w₁ _ (.inl (List.mem_singleton_self r))).after rfl,
      (SameLists.finish w₁ r _).started, fun wake hs => ?_⟩
    exact rung_finish hr hd ((ha.regular r).fresh hd)
  | _ =>
    simp only [deliverCancellation, hst]
    exact ⟨h, .refl w, trivial, fun wake hs => (restless hst (by simp) wake hs).elim⟩

/-- A timer sleeps through cancellations that reach others. -/
theorem Timed.delivers {past : Heap → Prop} (h : w.Timed []) (ha : w.Accounts past .nobody [])
    {l : List (Ref .coroutine)} (hl : Flagged (l, w)) :
    let w' := l.foldl deliverCancellation w
    w'.Timed [] ∧ Spares l w w' ∧ w'.loop.started = w.loop.started ∧
      ∀ wake, ∀ r ∈ l, w.Sleeps wake r → w'.Rung r := by
  induction l generalizing w with
  | nil => exact ⟨h, .refl w, rfl, by simp⟩
  | cons x l ih =>
    have hx : ∀ c, w.coroutines.get? x = some c → c.isCancelled = true := hl x List.mem_cons_self
    obtain ⟨ht, hp, hs, hrung⟩ := h.deliver ha x
    let w₁ := w.deliverCancellation x
    have hl₁ : Flagged (l, w₁) := Flagged.events (a := none)
      (fun s hs => hl s (List.mem_cons_of_mem x hs))
      (events_deliverCancellation w x (active_none w) hx)
    obtain ⟨ht', hp', hs', hrung'⟩ := ih ht (ha.deliverCancellation x) hl₁
    refine ⟨ht', hp.append hp', hs'.trans hs, fun wake r hr hsleeps => ?_⟩
    by_cases hrx : r = x
    · subst hrx
      -- whatever reaches the others, this one stays done
      exact deliver_keeps (P := fun v => v.Rung r) (fun v s hv hs => hv.evolves
        (events_deliverCancellation (a := none) v s (active_none v) hs).evolves
        (isCancelled_deliverCancellation v s r)) (w := w.deliverCancellation r)
        (hrung wake hsleeps) hl₁
    · exact hrung' wake r ((List.mem_cons.1 hr).resolve_left hrx)
        ((hp.sleeps_iff hs h.joined (by simpa using hrx)).2 hsleeps)

/-- A timer sleeps on through a cancellation in which it is not newly flagged, and if it is, it is done
at once. -/
theorem Timed.cancel {past : Heap → Prop} (h : w.Timed []) (ha : w.Accounts past .nobody [])
    (r : Ref .coroutine) :
    (w.cancel r).2.Timed [] ∧ Spares (w.flagCancelled r).1 w (w.cancel r).2 ∧
      (w.cancel r).2.loop.started = w.loop.started ∧
      ∀ wake, ∀ t ∈ (w.flagCancelled r).1, w.Sleeps wake t → (w.cancel r).2.Rung t := by
  obtain ⟨hp, hl, ht⟩ := h.flag r
  obtain ⟨ht', hp', hs', hrung⟩ := ht.delivers (ha.flagCancelled r) (flagged_flagCancelled w r)
  exact ⟨ht', hp.append hp', hs'.trans hl.started, fun wake t hm hs =>
    hrung wake t hm ((hp.sleeps_iff hl.started h.joined (by simp)).2 hs)⟩

/-! ### Polls -/

/-- The world in a poll when as many as `k` of the timers that are due have ended. -/
def midPoll (w : World) (k : Nat) : World :=
  ((w.loop.sleepers.takeWhile (·.1 ≤ w.loop.now)).take k).foldl
    (fun w x => w.finish x.2 (.ok .null))
    { w with loop := { w.loop with sleepers := w.loop.sleepers.dropWhile (·.1 ≤ w.loop.now) } }

/-- A poll is over when all that are due have ended. -/
theorem midPoll_all (w : World) {k : Nat}
    (hk : (w.loop.sleepers.takeWhile (·.1 ≤ w.loop.now)).length ≤ k) :
    w.midPoll k = w.pollSleepers := by
  rw [midPoll, List.take_of_length_le hk]
  rfl

/-- Timers end one after the other. -/
theorem rung_finishes (l : List (Nat × Ref .coroutine)) {past : Heap → Prop}
    (ha : w.Accounts past .nobody []) (hl : ∀ x ∈ l, w.Has x.2 ∧
      (w.coroutines.get x.2).stage ≠ .new ∧ (w.coroutines.get x.2).kind = .timer x.1) :
    let w' := l.foldl (fun w x => w.finish x.2 (.ok .null)) w
    Spares (l.map Prod.snd) w w' ∧ SameLists w w' ∧ w'.loop.now = w.loop.now ∧
      ∀ x ∈ l, (w.coroutines.get x.2).isDone = false → w'.Rung x.2 := by
  have evolves (v : World) (x : Nat × Ref .coroutine) : Evolves v (v.finish x.2 (.ok .null)) :=
    (events_finish (a := none) v x.2 _ (active_none v) (by simp)).evolves
  induction l generalizing w with
  | nil => exact ⟨.refl w, .of_loop rfl, rfl, by simp⟩
  | cons x l ih =>
    obtain ⟨hx, -, hk⟩ := hl x List.mem_cons_self
    have hp : Spares [x.2] w (w.finish x.2 (.ok .null)) :=
      spares_finish w _ (.inl (List.mem_singleton_self x.2))
    obtain ⟨hp', hs', hnow', hrung⟩ := ih (w := w.finish x.2 (.ok .null))
      (ha.finish _ hx fun g hg => absurd (hk.symm.trans hg) (by simp)) fun y hy => by
        obtain ⟨hy, hn, hk'⟩ := hl y (List.mem_cons_of_mem x hy)
        obtain ⟨c, hc, hcc⟩ := (evolves w x).changes hy
        refine ⟨hy.evolves (evolves w x), (evolves w x).not_new hn, ?_⟩
        rw [get_of_get? hc, hcc.kind fun g hg => by rw [hk'] at hg; contradiction, hk']
    refine ⟨hp.append hp', (SameLists.finish w x.2 _).trans hs',
      hnow'.trans (appends_finish w x.2 _).now, fun y hy hd => ?_⟩
    by_cases hyx : y.2 = x.2
    · rw [hyx] at hd ⊢
      refine (rung_finish hx hd ((ha.regular x.2).fresh hd)).evolves (.foldl evolves _ l) ?_
      refine (SameFlags.foldl (fun v (z : Nat × Ref .coroutine) => ?_) _ l x.2).1
      exact SameFlags.finish v z.2 (.ok .null)
    · obtain ⟨-, hn, hk'⟩ := hl y hy
      refine hrung y ((List.mem_cons.1 hy).resolve_left fun he => hyx (he ▸ rfl)) ?_
      exact ((hp.ticks hn (by simpa using hyx)).done hk').trans hd

/-- What a poll has done by the time `k` of the timers that are due have ended. -/
theorem Timed.midPoll {past : Heap → Prop} (h : w.Timed []) (ha : w.Accounts past .nobody [])
    (k : Nat) :
    let due := (w.loop.sleepers.takeWhile (·.1 ≤ w.loop.now)).take k
    let w₁ : World :=
      { w with loop := { w.loop with sleepers := w.loop.sleepers.dropWhile (·.1 ≤ w.loop.now) } }
    Spares (due.map Prod.snd) w₁ (w.midPoll k) ∧ SameLists w₁ (w.midPoll k) ∧
      (w.midPoll k).loop.now = w.loop.now ∧ ∀ x ∈ due, (w.midPoll k).Rung x.2 := by
  intro due w₁
  have ha₁ : w₁.Accounts past .nobody [] :=
    ha.loop _ fun x hx => (List.dropWhile_suffix _).subset hx
  have asleep {x : Nat × Ref .coroutine} (hx : x ∈ due) : w.Sleeps x.1 x.2 :=
    (h.sleeping.1 ((List.takeWhile_sublist _).subset (List.take_subset k _ hx))).1
  have has {x : Nat × Ref .coroutine} (hx : x ∈ due) : w.Has x.2 := has_of_sleeps ha h (asleep hx)
  obtain ⟨hp, hs, hnow, hrung⟩ := rung_finishes (w := w₁) due ha₁ fun x hx =>
    ⟨has hx, h.joined (asleep hx).started, (asleep hx).kind⟩
  exact ⟨hp, hs, hnow, fun x hx => hrung x hx (asleep hx).waits⟩

/-- In a poll a timer has ended only when it was due and all that were before it have ended. -/
theorem Timed.before_of_midPoll {past : Heap → Prop} (h : w.Timed [])
    (ha : w.Accounts past .nobody []) {k : Nat} {y : Nat × Ref .coroutine}
    (hk : (w.coroutines.get y.2).kind = .timer y.1) (hn : (w.coroutines.get y.2).stage ≠ .new)
    (hw : (w.coroutines.get y.2).isDone = false)
    (hd : ((w.midPoll k).coroutines.get y.2).isDone = true) :
    w.Sleeps y.1 y.2 ∧ y.1 ≤ w.loop.now ∧ ∀ x, w.Sleeps x.1 x.2 → Before w.loop.started x y →
      ((w.midPoll k).coroutines.get x.2).isDone = true := by
  obtain ⟨hp, -, -, hrung⟩ := h.midPoll ha k
  let due := (w.loop.sleepers.takeWhile (·.1 ≤ w.loop.now)).take k
  obtain ⟨rest, hsplit⟩ : due <+: w.loop.sleepers :=
    (List.take_prefix k _).trans (List.takeWhile_prefix _)
  have asleep {x : Nat × Ref .coroutine} (hx : x ∈ due) : w.Sleeps x.1 x.2 :=
    (h.sleeping.1 (hsplit ▸ List.mem_append_left rest hx)).1
  have hmem : y ∈ due := by
    have hm : y.2 ∈ due.map Prod.snd := by
      refine Classical.byContradiction fun ho => ?_
      rw [(hp.ticks hn ho).done hk] at hd
      exact absurd (hw.symm.trans hd) (by simp)
    obtain ⟨z, hz, he⟩ := List.mem_map.1 hm
    have hkz := (asleep hz).kind
    rw [he, hk] at hkz
    obtain rfl : z = y := Prod.ext (CoroutineKind.timer.inj hkz).symm he
    exact hz
  refine ⟨asleep hmem, le_of_mem_takeWhile (List.take_subset k _ hmem), fun x hx hb => ?_⟩
  have hxm : x ∈ due ++ rest := hsplit ▸ h.sleeping.2 ⟨hx, by simp⟩
  obtain hxm | hxm := List.mem_append.1 hxm
  · exact (hrung x hxm).done
  · -- it would be behind
    have hsorted := h.sorted
    rw [← hsplit] at hsorted
    exact absurd hb (((List.pairwise_append.1 hsorted).2.2 y hmem x hxm).asymm h.once)

theorem evolves_midPoll (w : World) (k : Nat) :
    Evolves w (w.midPoll k) ∧ SameFlags w (w.midPoll k) := by
  let w₁ : World :=
    { w with loop := { w.loop with sleepers := w.loop.sleepers.dropWhile (·.1 ≤ w.loop.now) } }
  have finished (v : World) (x : Nat × Ref .coroutine) : Evolves v (v.finish x.2 (.ok .null)) :=
    (events_finish (a := none) v x.2 _ (active_none v) (by simp)).evolves
  have flags (v : World) (x : Nat × Ref .coroutine) : SameFlags v (v.finish x.2 (.ok .null)) :=
    .finish v x.2 _
  exact ⟨(Evolves.of_loop w w₁.loop).trans (.foldl finished _ _),
    (SameFlags.of_same rfl : SameFlags w w₁).trans (.foldl flags _ _)⟩

theorem Timed.poll {past : Heap → Prop} (h : w.Timed []) (ha : w.Accounts past .nobody []) :
    w.pollSleepers.Timed [] := by
  let due := w.loop.sleepers.takeWhile (·.1 ≤ w.loop.now)
  have hall : due.take due.length = due := List.take_length
  obtain ⟨hp, hs, -, hrung⟩ := h.midPoll ha due.length
  rw [midPoll_all w (Nat.le_refl _)] at hp hs hrung
  rw [show (w.loop.sleepers.takeWhile (·.1 ≤ w.loop.now)).take due.length = due from hall]
    at hp hrung
  refine (h.due.spare hp hs).home fun r hr => ?_
  obtain ⟨x, hx, rfl⟩ := List.mem_map.1 hr
  exact (hrung x hx).done

/-- Two timers that sleep are one before the other. -/
theorem Timed.before_or (h : w.Timed []) {x y : Nat × Ref .coroutine}
    (hx : w.Sleeps x.1 x.2) (hy : w.Sleeps y.1 y.2) (hne : x ≠ y) :
    Before w.loop.started x y ∨ Before w.loop.started y x := by
  have either : w.loop.sleepers.Pairwise fun x y =>
      Before w.loop.started x y ∨ Before w.loop.started y x := h.sorted.imp .inl
  have : Std.Symm fun x y => Before w.loop.started x y ∨ Before w.loop.started y x :=
    ⟨fun _ _ => Or.symm⟩
  exact either.forall (h.sleeping.2 ⟨hx, by simp⟩) (h.sleeping.2 ⟨hy, by simp⟩) hne

/-! ### A timer that sleeps -/

section Timer

variable {past : Heap → Prop} {t : Ref .coroutine}

/-- A new timer sleeps behind all that wake no later, and before all that wake later. -/
theorem Timed.sleeps_start (h : w.Timed []) (hs : w.Sleeps wake t) {t' : Ref .coroutine} {wake' : Nat}
    (hr : w.Has t') (hn : (w.coroutines.get t').stage = .new)
    (hk : (w.coroutines.get t').kind = .timer wake') :
    (w.start t').Sleeps wake' t' ∧ (w.start t').Sleeps wake t ∧
      (wake ≤ wake' → Before (w.start t').loop.started (wake, t) (wake', t')) ∧
      (wake' < wake → Before (w.start t').loop.started (wake', t') (wake, t)) := by
  rw [start_of_timer hk hn]
  have hne : t ≠ t' := by
    rintro rfl
    exact h.joined hs.started hn
  have self : (w.sleep t' wake').coroutines.get t' =
      { w.coroutines.get t' with stage := .suspendedTimer } := get_modifyCoroutine w t' _ hr
  have other : (w.sleep t' wake').coroutines.get t = w.coroutines.get t :=
    get_enroll_of_ne w t' .suspendedTimer hne
  have started : (w.sleep t' wake').loop.started = t' :: w.loop.started := rfl
  refine ⟨⟨started ▸ List.mem_cons_self, self ▸ hk, self ▸ rfl⟩,
    ⟨started ▸ List.mem_cons_of_mem t' hs.started, other ▸ hs.kind, other ▸ hs.waits⟩,
    fun hle => ?_, .inl⟩
  obtain hlt | heq := Nat.lt_or_eq_of_le hle
  · exact .inl hlt
  · exact .inr ⟨heq, (List.singleton_sublist.2 hs.started).cons_cons t'⟩

/-- A poll ends a timer exactly if its time has come. -/
theorem Timed.sleeps_poll (h : w.Timed []) (ha : w.Accounts past .nobody []) (hs : w.Sleeps wake t) :
    if wake ≤ w.loop.now then w.pollSleepers.Rung t else w.pollSleepers.Sleeps wake t := by
  let due := w.loop.sleepers.takeWhile (·.1 ≤ w.loop.now)
  obtain ⟨hp, hl, -, hrung⟩ := h.midPoll ha due.length
  rw [midPoll_all w (Nat.le_refl _)] at hp hl hrung
  rw [List.take_of_length_le (Nat.le_refl _)] at hp hrung
  have hm : (wake, t) ∈ w.loop.sleepers := h.sleeping.2 ⟨hs, by simp⟩
  split
  · rename_i hle
    rw [← List.takeWhile_append_dropWhile (p := (·.1 ≤ w.loop.now)) (l := w.loop.sleepers)] at hm
    refine hrung (wake, t) ((List.mem_append.1 hm).resolve_right fun hlate => ?_)
    exact absurd (lt_of_mem_dropWhile h.sorted hlate) (Nat.not_lt_of_le hle)
  · rename_i hlt
    refine (hp.sleeps_iff hl.started h.joined fun ho => hlt ?_).2 ⟨hs.started, hs.kind, hs.waits⟩
    obtain ⟨z, hz, rfl⟩ := List.mem_map.1 ho
    have hk := (h.sleeping.1 ((List.takeWhile_sublist _).subset hz)).1.kind
    rw [hs.kind] at hk
    rw [CoroutineKind.timer.inj hk]
    exact le_of_mem_takeWhile hz

/-- One that is neither done nor cancelled is flagged when it is cancelled. -/
theorem mem_flagCancelled (hd : (w.coroutines.get t).isDone = false)
    (hc : (w.coroutines.get t).isCancelled = false) : t ∈ (w.flagCancelled t).1 := by
  have hst : ¬ (w.coroutines.get t).isStopped = true := by simp [isStopped_iff, hd, hc]
  have children (depth : Nat) (l : List (Ref .coroutine)) (p : List (Ref .coroutine) × World)
      (hp : t ∈ p.1) : t ∈ (l.foldl (fun p child =>
        (p.1 ++ (flagWithin depth p.2 child).1, (flagWithin depth p.2 child).2)) p).1 := by
    induction l generalizing p with
    | nil => exact hp
    | cons child l ih => exact ih _ (List.mem_append_left _ hp)
  rw [flagCancelled, flagWithin_succ hst]
  exact children _ _ _ (List.mem_singleton_self t)

/-- A cancellation in the loop ends a timer at once if it flags it. -/
theorem Timed.sleeps_cancel (h : w.Timed []) (ha : w.Accounts past .nobody []) (hs : w.Sleeps wake t)
    (target : Ref .coroutine) :
    let w' := (w.cancel target).2
    w'.Sleeps wake t ∧ (w'.coroutines.get t).isCancelled = (w.coroutines.get t).isCancelled ∧
        (target = t → (w.coroutines.get t).isCancelled = true) ∨
      (w.coroutines.get t).isCancelled = false ∧ (w'.coroutines.get t).isCancelled = true ∧
        w'.Rung t := by
  obtain ⟨-, hp, hstarted, hrung⟩ := h.cancel ha target
  obtain ⟨-, hflag⟩ := evolves_cancel w target
  have hflags : Flags w (w.flagCancelled target).2 := flags_flagWithin _ w target
  by_cases hm : t ∈ (w.flagCancelled target).1
  · refine .inr ⟨isCancelled_of_flagged _ hm, ?_, hrung wake t hm hs⟩
    rw [hflag]
    exact flagged_flagCancelled w target t hm _ (hflags.has (has_of_sleeps ha h hs))
  · refine .inl ⟨(hp.sleeps_iff hstarted h.joined hm).2 hs, ?_, ?_⟩
    · rw [hflag]
      refine Bool.eq_iff_iff.2 ⟨fun hc => ?_, hflags.cancelled⟩
      exact (mem_flagWithin _ hc).resolve_right hm
    · rintro rfl
      exact Classical.byContradiction fun hc =>
        hm (mem_flagCancelled hs.waits (Bool.eq_false_iff.2 hc))

end Timer

end World

/-! ### Steps -/

/-- A step keeps the timers of a loop in order.  It lets them be, unless it is a poll or a
cancellation. -/
theorem Step.timed {past : Heap → Prop} {s s' : Situation} (h : Step s s') (hs : s.Coherent)
    (ha : s.world.Accounts past .nobody []) (ht : s.world.Timed []) :
    s'.world.Timed [] ∧ (Spares [] s.world s'.world ∧ Carries s.world s'.world ∨
      s.control = .looping ∧ s'.world = s.world.pollSleepers ∨
      ∃ target, s'.world = (s.world.cancel target).2) := by
  -- what lets the timers be keeps them in order
  have quiet {w' : World} (hp : Spares [] s.world w') (hl : SameLists s.world w') :
      w'.Timed [] ∧ (Spares [] s.world w' ∧ Carries s.world w' ∨
        s.control = .looping ∧ w' = s.world.pollSleepers ∨
        ∃ target, w' = (s.world.cancel target).2) :=
    ⟨ht.spare hp hl, .inl ⟨hp, .of_eq hl.started⟩⟩
  have script {w : World} {r : Ref .coroutine} {f : Ref .function} {owner : Option (Ref .blueprint)}
      (hk : (w.coroutines.get r).kind = .script f owner) (wake : Nat) :
      (w.coroutines.get r).kind ≠ .timer wake := by
    rw [hk]
    simp
  cases h with
  | compute _ hc hl => exact quiet (.of_same hc) (.of_loop hl)
  -- a new coroutine has not joined, so no timer sees it
  | @create c w serial name kind scope =>
    refine quiet ?_ (.of_loop rfl)
    have same {r : Ref .coroutine} (hn : (w.coroutines.get r).stage ≠ .new) :=
      get_push (get?_of_stage hn) { serial, name, kind, scope }
    refine ⟨fun hn => ?_, fun hn _ => ?_⟩
    · exact (congrArg Coroutine.stage (same hn)).trans_ne hn
    · dsimp only at hn ⊢
      rw [same hn]
      exact .refl _
  | tick => exact quiet (.of_same rfl) ⟨rfl, rfl⟩
  | start target hr =>
    have started := ht.start ha hr
    exact ⟨started.timed, .inl ⟨started.spares, started.carries⟩⟩
  | flag target =>
    obtain ⟨hp, hl, -⟩ := ht.flag target
    exact quiet hp hl
  | cancel target => exact ⟨(ht.cancel ha target).1, .inr (.inr ⟨target, rfl⟩)⟩
  | @notice r w => exact quiet (.modify w r _ id fun _ => ⟨Iff.rfl, fun _ => rfl⟩) (.of_loop rfl)
  | @wait r w target =>
    obtain ⟨hrun, -⟩ := hs.active r rfl
    refine quiet (.trans (.modify w r (fun c => { c with
      stage := .suspendedAwait, awaiting := some target }) (fun _ => by simp) fun _ =>
        ⟨Iff.rfl, fun _ => ?_⟩) (.modify _ target _ id fun _ => ⟨Iff.rfl, fun _ => rfl⟩)) (.of_loop rfl)
    rw [isDone, isDone, show (w.coroutines.get r).stage = _ from hrun]
    rfl
  | @opening w root hr =>
    have opened : w.openLoop.Timed [] := .empty rfl rfl
    have started := opened.start ha.openLoop hr
    refine ⟨started.timed, .inl ⟨started.spares.after rfl, fun r hm hn => ?_⟩⟩
    obtain ⟨hm, -⟩ := started.carries r hm hn
    exact absurd hm List.not_mem_nil
  | poll => exact ⟨ht.poll ha, .inr (.inl ⟨rfl, rfl⟩)⟩
  | pass | lose => exact quiet (.of_same rfl) ⟨rfl, rfl⟩
  -- the end of a script wakes nobody that sleeps
  | @drop w r rest _ _ hk =>
    obtain ⟨f, owner, hk⟩ := hk
    exact quiet (Spares.after (spares_finish { w with loop := { w.loop with ready := rest } } _
      (.inr (script hk))) rfl)
      (SameLists.trans (v := { w with loop := { w.loop with ready := rest } }) ⟨rfl, rfl⟩
        (.finish _ r _))
  | @resume w r rest scope f owner _ hk =>
    refine quiet (Spares.after (.modify { w with loop := { w.loop with ready := rest } } r (fun c =>
      { c with stage := .running, scope := none, frames := [], tape := {} })
      (fun _ => by simp) fun _ => ⟨Iff.rfl, fun hw => absurd hw (script hk _)⟩) rfl) ⟨rfl, rfl⟩
  | @keep w r body t =>
    obtain ⟨target, hst, -⟩ := hs.waiting rfl
    dsimp only at hst
    rw [show Eval.keepTurn r t w = _ from get_keepTurn t hst]
    exact quiet (.modify w r _ id fun _ => ⟨Iff.rfl, fun _ => rfl⟩) (.of_loop rfl)
  | @finish w r scope outcome =>
    obtain ⟨hst, f, owner, hk⟩ := hs.active r rfl
    exact quiet (Spares.after (spares_finish (w.clearScope scope) _ (.inr (script hk))) rfl)
      (SameLists.trans (v := w.clearScope scope) (.of_loop rfl) (.finish _ r outcome))
  -- what loses its links is no timer of the next loop, whose list is empty
  | @close c w =>
    have hev := evolves_teardown w
    have released (l : List (Ref .coroutine)) (v : World) :
        Spares [] v (l.foldl releaseLinks v) := by
      refine .foldl (fun v r => ?_) v l
      have links : Spares [] v (v.modifyCoroutine r fun c => { c with
          waiters := [], awaiting := none, scope := none, frames := [], tape := Tape.reset }) :=
        .modify v r _ id fun _ => ⟨Iff.rfl, fun _ => rfl⟩
      simp only [releaseLinks]
      split
      · exact links.trans (.of_same rfl)
      · exact links
    refine ⟨.empty rfl rfl, .inl ⟨(released w.loop.started w).trans (.of_same rfl), fun r hm _ => ?_⟩⟩
    exact absurd hm List.not_mem_nil

/-- The timers of a loop are in order in every session. -/
theorem Reachable.timed {env : Environment} {s : Situation} (h : Reachable env s) :
    s.world.Timed [] := by
  induction h with
  | refl => exact .empty rfl rfl
  | tail hs hstep ih =>
    have hr : Reachable env _ := hs
    exact (hstep.timed hr.coherent hr.accounts ih).1

/-! ### Runs -/

/-- A timer ends in its turn: unless it is cancelled, it is done only when its time has come and all
those are done that were ahead of it. -/
structure World.InTurn (ahead : Nat × Ref .coroutine → Prop) (y : Nat × Ref .coroutine)
    (w : World) : Prop where
  joined {x : Nat × Ref .coroutine} : x = y ∨ ahead x → (w.coroutines.get x.2).stage ≠ .new
  kind {x : Nat × Ref .coroutine} : x = y ∨ ahead x → (w.coroutines.get x.2).kind = .timer x.1
  order : y.2 ∈ w.loop.started → ∀ x, ahead x → x.2 ∈ w.loop.started ∧ Before w.loop.started x y
  ended : (w.coroutines.get y.2).isDone = true → (w.coroutines.get y.2).isCancelled = true ∨
    y.1 ≤ w.loop.now ∧ ∀ x, ahead x → (w.coroutines.get x.2).isDone = true

variable {ahead : Nat × Ref .coroutine → Prop} {y : Nat × Ref .coroutine}

theorem World.InTurn.midPoll {past : Heap → Prop} {w : World} (h : w.InTurn ahead y)
    (ht : w.Timed []) (ha : w.Accounts past .nobody []) {k : Nat}
    (hd : ((w.midPoll k).coroutines.get y.2).isDone = true) :
    ((w.midPoll k).coroutines.get y.2).isCancelled = true ∨
      y.1 ≤ (w.midPoll k).loop.now ∧
        ∀ x, ahead x → ((w.midPoll k).coroutines.get x.2).isDone = true := by
  obtain ⟨he, hf⟩ := evolves_midPoll w k
  obtain ⟨-, -, hnow, -⟩ := ht.midPoll ha k
  rw [(hf y.2).1, hnow]
  cases hw : (w.coroutines.get y.2).isDone with
  | true => exact (h.ended hw).imp_right fun ⟨hle, hx⟩ => ⟨hle, fun x hm => (he.done (hx x hm)).1⟩
  | false =>
    obtain ⟨hs, hle, hx⟩ :=
      ht.before_of_midPoll ha (h.kind (.inl rfl)) (h.joined (.inl rfl)) hw hd
    refine .inr ⟨hle, fun x hm => ?_⟩
    obtain ⟨hstarted, hb⟩ := h.order hs.started x hm
    cases hxd : (w.coroutines.get x.2).isDone with
    | true => exact (he.done hxd).1
    | false => exact hx x ⟨hstarted, h.kind (.inr hm), hxd⟩ hb

theorem Step.inTurn {env : Environment} {s s' : Situation} (h : Step s s') (hr : Reachable env s)
    (hy : s.world.InTurn ahead y) : s'.world.InTurn ahead y := by
  have has {x : Nat × Ref .coroutine} (hx : x = y ∨ ahead x) : s.world.Has x.2 :=
    get?_of_stage (hy.joined hx)
  have later {x : Nat × Ref .coroutine} (hx : x = y ∨ ahead x) := h.later hr.coherent (has hx)
  have self := later (.inl rfl)
  -- the clock does not go back, and who is done stays so
  have stays (hle : y.1 ≤ s.world.loop.now)
      (hx : ∀ x, ahead x → (s.world.coroutines.get x.2).isDone = true) :
      y.1 ≤ s'.world.loop.now ∧ ∀ x, ahead x → (s'.world.coroutines.get x.2).isDone = true :=
    ⟨hle.trans h.now_le, fun x hm => ((later (.inr hm)).done (hx x hm)).1⟩
  have carried (hc : Carries s.world s'.world) (hm : y.2 ∈ s'.world.loop.started)
      (x : Nat × Ref .coroutine) (hx : ahead x) :
      x.2 ∈ s'.world.loop.started ∧ Before s'.world.loop.started x y := by
    obtain ⟨hm, hsub⟩ := hc y.2 hm (hy.joined (.inl rfl))
    obtain ⟨hxm, hb⟩ := hy.order hm x hx
    exact ⟨hsub.subset hxm, hb.imp_right fun ⟨he, hs⟩ => ⟨he, hs.trans hsub⟩⟩
  obtain ⟨-, ⟨hp, hc⟩ | ⟨-, hw⟩ | ⟨target, hw⟩⟩ := h.timed hr.coherent hr.accounts hr.timed
  · -- nothing was done about timers: who is done was so before
    refine ⟨fun hx => (later hx).joined (hy.joined hx), fun hx => h.timer (hy.kind hx) (has hx),
      carried hc, fun hd => ?_⟩
    have hd' : (s.world.coroutines.get y.2).isDone = true := by
      rwa [(hp.ticks (hy.joined (.inl rfl)) (by simp)).done (hy.kind (.inl rfl))] at hd
    exact (hy.ended hd').imp self.cancelled fun ⟨hle, hx⟩ => stays hle hx
  · -- a poll ends all that are due, in order
    have hall := midPoll_all s.world (Nat.le_refl _)
    rw [← hw] at hall
    refine ⟨fun hx => (later hx).joined (hy.joined hx), fun hx => h.timer (hy.kind hx) (has hx),
      carried (.of_eq ?_), fun hd => ?_⟩
    · rw [← hall]
      exact (hr.timed.midPoll hr.accounts _).2.1.started
    · rw [← hall] at hd ⊢
      exact hy.midPoll hr.timed hr.accounts hd
  · -- somebody was cancelled: either the timer was among those that were flagged, or it is
    -- untouched
    obtain ⟨-, hp, hs, -⟩ := hr.timed.cancel hr.accounts target
    rw [← hw] at hp hs
    refine ⟨fun hx => (later hx).joined (hy.joined hx), fun hx => h.timer (hy.kind hx) (has hx),
      carried (.of_eq hs), fun hd => ?_⟩
    by_cases hm : y.2 ∈ (s.world.flagCancelled target).1
    · -- it has been flagged now
      have flagged := flagged_flagCancelled s.world target
      have hflags : Flags s.world (s.world.flagCancelled target).2 := flags_flagWithin _ _ _
      left
      rw [hw, (evolves_cancel s.world target).2]
      exact flagged y.2 hm _ (hflags.has (has (.inl rfl)))
    · have hd' : (s.world.coroutines.get y.2).isDone = true := by
        rwa [(hp.ticks (hy.joined (.inl rfl)) hm).done (hy.kind (.inl rfl))] at hd
      exact (hy.ended hd').imp self.cancelled fun ⟨hle, hx⟩ => stays hle hx

theorem Steps.inTurn {env : Environment} {s s' : Situation} (h : Steps s s') (hr : Reachable env s)
    (hy : s.world.InTurn ahead y) : s'.world.InTurn ahead y := by
  induction h with
  | refl => exact hy
  | tail hsteps hstep ih => exact hstep.inTurn (Relation.ReflTransGen.trans hr hsteps) ih

/-- The world in a situation, or in the midst of the poll that a loop makes there. -/
inductive Situation.Instant (s : Situation) : World → Prop
  | now : s.Instant s.world
  | poll (k : Nat) : s.control = .looping → s.Instant (s.world.midPoll k)

/-- A timer that sleeps, in any situation of any session.  Of two that sleep one is before the other,
and a new timer is behind those that wake no later.  A poll ends the timer if its time has come and
lets it sleep on if not.  A cancellation in the loop ends it at once if it flags it, which it does if
the timer itself is cancelled for the first time, and one that only flags lets it sleep on.  However
the session goes on, at no instant is the timer done and not cancelled before its time has come and
all those are done that were before it; and once it is done, it sleeps no more and what it has come to
stays. -/
theorem timers_in_order {env : Environment} {s : Situation} (reachable : Reachable env s) {wake : Nat}
    {t : Ref .coroutine} (sleeps : s.world.Sleeps wake t) :
    (∀ x, s.world.Sleeps x.1 x.2 → x ≠ (wake, t) →
      Before s.world.loop.started x (wake, t) ∨ Before s.world.loop.started (wake, t) x) ∧
    (∀ wake' t', s.world.Has t' → (s.world.coroutines.get t').stage = .new →
      (s.world.coroutines.get t').kind = .timer wake' →
      let w' := s.world.start t'
      w'.Sleeps wake' t' ∧ w'.Sleeps wake t ∧
        (wake ≤ wake' → Before w'.loop.started (wake, t) (wake', t')) ∧
        (wake' < wake → Before w'.loop.started (wake', t') (wake, t))) ∧
    (if wake ≤ s.world.loop.now then s.world.pollSleepers.Rung t
      else s.world.pollSleepers.Sleeps wake t) ∧
    (∀ target, let w' := (s.world.cancel target).2
      (w'.Sleeps wake t ∧
          (w'.coroutines.get t).isCancelled = (s.world.coroutines.get t).isCancelled ∧
          (target = t → (s.world.coroutines.get t).isCancelled = true) ∨
        (s.world.coroutines.get t).isCancelled = false ∧
          (w'.coroutines.get t).isCancelled = true ∧ w'.Rung t) ∧
      (s.world.flagCancelled target).2.Sleeps wake t) ∧
    ∀ s', Steps s s' →
      (∀ w', s'.Instant w' → (w'.coroutines.get t).isDone = true →
        (w'.coroutines.get t).isCancelled = true ∨ wake ≤ w'.loop.now ∧
          ∀ x, s.world.Sleeps x.1 x.2 → Before s.world.loop.started x (wake, t) →
            (w'.coroutines.get x.2).isDone = true) ∧
      ((s'.world.coroutines.get t).isDone = true → ∀ s'', Steps s' s'' →
        (s''.world.coroutines.get t).isDone = true ∧
          (s''.world.coroutines.get t).outcome = (s'.world.coroutines.get t).outcome ∧
          ∀ wake', (wake', t) ∉ s''.world.loop.sleepers) := by
  have timed := reachable.timed
  have accounts := reachable.accounts
  have has : s.world.Has t := has_of_sleeps accounts timed sleeps
  -- `t` has its turn behind all that stand before it on the list
  have behind : s.world.InTurn
      (fun x => s.world.Sleeps x.1 x.2 ∧ Before s.world.loop.started x (wake, t)) (wake, t) := by
    refine ⟨fun {x} hx => ?_, fun {x} hx => ?_, fun _ x hx => ⟨hx.1.started, hx.2⟩, fun hd => ?_⟩
    · obtain rfl | hx := hx
      · exact timed.joined sleeps.started
      · exact timed.joined hx.1.started
    · obtain rfl | hx := hx
      · exact sleeps.kind
      · exact hx.1.kind
    · exact absurd (hd.symm.trans sleeps.waits) (by simp)
  refine ⟨fun x hx hne => timed.before_or hx sleeps hne,
    fun wake' t' hr hn hk => timed.sleeps_start sleeps hr hn hk, timed.sleeps_poll accounts sleeps,
    fun target => ⟨timed.sleeps_cancel accounts sleeps target, ?_⟩,
    fun s' hs' => ⟨fun w' hw' hd => ?_, fun hd s'' hs'' => ?_⟩⟩
  · obtain ⟨hp, hl, -⟩ := timed.flag target
    exact (hp.sleeps_iff hl.started timed.joined (by simp)).2 sleeps
  · have reached : Reachable env s' := Relation.ReflTransGen.trans reachable hs'
    have turn := hs'.inTurn reachable behind
    have ended : (w'.coroutines.get t).isCancelled = true ∨ wake ≤ w'.loop.now ∧
        ∀ x, s.world.Sleeps x.1 x.2 ∧ Before s.world.loop.started x (wake, t) →
          (w'.coroutines.get x.2).isDone = true := by
      cases hw' with
      | now => exact turn.ended hd
      | poll k => exact turn.midPoll reached.timed reached.accounts hd
    exact ended.imp_right fun ⟨hle, hx⟩ => ⟨hle, fun x hx' hb => hx x ⟨hx', hb⟩⟩
  · have reached : Reachable env s' := Relation.ReflTransGen.trans reachable hs'
    have reached' : Reachable env s'' := Relation.ReflTransGen.trans reached hs''
    obtain ⟨hd', ho⟩ := (hs''.later reached.coherent (hs'.has has)).done hd
    refine ⟨hd', ho, fun wake' hm => ?_⟩
    exact absurd (hd'.symm.trans (reached'.timed.sleeping.1 hm).1.waits) (by simp)

/-- A loop in which a gather task waits for a timer that sleeps. -/
theorem timers_in_order_of_gatheringTurn :
    gatheringTurn.world.Sleeps 5 ⟨1⟩ ∧ gatheringTurn.world.pollSleepers.Sleeps 5 ⟨1⟩ ∧
      (gatheringTurn.world.cancel ⟨1⟩).2.Rung ⟨1⟩ ∧
      ∀ s, Steps gatheringTurn s → (s.world.coroutines.get ⟨1⟩).isDone = true →
        (s.world.coroutines.get ⟨1⟩).isCancelled = true ∨ 5 ≤ s.world.loop.now := by
  have sleeps : gatheringTurn.world.Sleeps 5 ⟨1⟩ := ⟨by decide +kernel, rfl, by decide +kernel⟩
  obtain ⟨-, -, poll, cancel, run⟩ := timers_in_order reachable_gatheringTurn sleeps
  refine ⟨sleeps, ?_, ?_, fun s hs hd => ((run s hs).1 _ .now hd).imp_right And.left⟩
  · rwa [if_neg (by decide +kernel)] at poll
  · obtain ⟨-, -, flagged⟩ | ⟨-, -, rung⟩ := (cancel ⟨1⟩).1
    · exact absurd (flagged rfl) (by decide +kernel)
    · exact rung

/-- A module with a timer, and a module that cancels it. -/
def cancellingModules : FileTree where
  current := ["", "w"]
  files := [
    (["", "w", "t.ecc"], "load: weaver as w\nlet: t = w.rest(60)\n".toUTF8),
    (["", "w", "c.ecc"], "load: weaver as w\nload: t as b\nw.cancel(b.t)\n".toUTF8)]

/-- A program that waits for the timer in one coroutine, and in another loads the canceller and then
rests for less time than is left to the timer. -/
def loadsCanceller : String :=
  "load: weaver as w\nload: t as b\nasync funct: f():\n    load: c\n    await w.rest(20)\n" ++
  "    show(\"rested\")\nasync funct: g():\n    w.spawn_task(f())\n    try:\n        await b.t\n" ++
  "    catch as e:\n        show(e)\nw.weave(g())\n"

/-- The timer ends with the cancellation, but only when its time has come: a timer that is started after
it has been cancelled ends first. -/
theorem cancelled_and_asleep :
    account ((Machine.new { files := cancellingModules }).runSource loadsCanceller 14) =
      ("rested\nError: Coroutine cancelled\n", none) := by
  decide +kernel

end Rewind
