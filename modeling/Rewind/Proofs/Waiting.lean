/-
Who waits for whom.

The links of the event loop agree with each other: whoever is on the list of a coroutine's waiters is
suspended and waits for that very coroutine, or has dropped out of the loop, and nobody is in the
queue who waits.

* `Coroutine.Waits`, `Coroutine.Lost` — a coroutine is suspended, or can never run again;
* `World.Coherent`, `Situation.Coherent` — the links agree;
* `Event.coherent`, `Step.coherent`, `Steps.coherent` — and they do so for good.
-/
import Rewind.Proofs.Step

namespace Rewind

open Coroutine World

namespace Coroutine

/-- The coroutine is suspended until `t` is done. -/
def Waits (c : Coroutine) (t : Ref .coroutine) : Prop :=
  c.stage = .suspendedAwait ∧ c.awaiting = some t

/-- The coroutine has nothing to go on with. -/
def Lost (c : Coroutine) : Prop := c.scope = none ∧ c.awaiting = none ∧ c.stage ≠ .running

end Coroutine

namespace World

/-- The queue and the links between coroutines agree with their stages. -/
structure Coherent (w : World) : Prop where
  nodup : w.loop.ready.Nodup
  queued : ∀ {r : Ref .coroutine}, r ∈ w.loop.ready →
    (w.coroutines.get r).stage = .runnable ∨ (w.coroutines.get r).stage = .done
  linked : ∀ {t r : Ref .coroutine}, r ∈ (w.coroutines.get t).waiters →
    w.Has r ∧ ((w.coroutines.get r).Waits t ∨ (w.coroutines.get r).Lost)
  fresh : ∀ {r : Ref .coroutine}, (w.coroutines.get r).isDone = false →
    (w.coroutines.get r).exception = none

namespace Coherent

variable {w w' : World}

theorem not_mem (h : w.Coherent) {r : Ref .coroutine} (hr : (w.coroutines.get r).stage ≠ .runnable)
    (hd : (w.coroutines.get r).stage ≠ .done) : r ∉ w.loop.ready :=
  fun hm => (h.queued hm).elim hr hd

/-- The queue may lose some of its members. -/
theorem shorten (h : w.Coherent) (hc : w'.coroutines = w.coroutines)
    (hr : List.Sublist w'.loop.ready w.loop.ready) : w'.Coherent := by
  refine ⟨h.nodup.sublist hr, fun hm => ?_, fun hm => ?_, fun hd => ?_⟩
  · rw [hc]
    exact h.queued (hr.subset hm)
  · rw [hc] at hm ⊢
    have := h.linked hm
    rwa [Has, hc]
  · rw [hc] at hd ⊢
    exact h.fresh hd

theorem congr (h : w.Coherent) (hc : w'.coroutines = w.coroutines)
    (hr : w'.loop.ready = w.loop.ready) : w'.Coherent :=
  h.shorten hc (hr ▸ List.Sublist.refl _)

/-- One coroutine changes: if it was queued it may still be, if it was on a list of waiters it still
waits or is lost, and nobody is added to its own list. -/
theorem update (h : w.Coherent) (r : Ref .coroutine) (hr : w'.loop.ready = w.loop.ready)
    (hsize : w'.coroutines.size = w.coroutines.size)
    (hne : ∀ s, s ≠ r → w'.coroutines.get s = w.coroutines.get s)
    (hq : r ∈ w.loop.ready →
      (w'.coroutines.get r).stage = .runnable ∨ (w'.coroutines.get r).stage = .done)
    (hl : ∀ t, (w.coroutines.get r).Waits t ∨ (w.coroutines.get r).Lost →
      (w'.coroutines.get r).Waits t ∨ (w'.coroutines.get r).Lost)
    (hw : (w'.coroutines.get r).waiters ⊆ (w.coroutines.get r).waiters)
    (hf : (w'.coroutines.get r).isDone = false → (w.coroutines.get r).isDone = false ∧
      (w'.coroutines.get r).exception = (w.coroutines.get r).exception) : w'.Coherent := by
  -- everybody but `r` is as it was
  have same (s : Ref .coroutine) : w'.coroutines.get s = w.coroutines.get s ∨ s = r :=
    (Classical.em (s = r)).symm.imp_left (hne s)
  refine ⟨hr ▸ h.nodup, fun {s} hm => ?_, fun {t s} hm => ?_, fun {s} hd => ?_⟩
  · rw [hr] at hm
    obtain he | rfl := same s
    · rw [he]; exact h.queued hm
    · exact hq hm
  · have hm : s ∈ (w.coroutines.get t).waiters := by
      obtain he | rfl := same t
      · rwa [he] at hm
      · exact hw hm
    obtain ⟨hs, hlink⟩ := h.linked hm
    refine ⟨by rwa [has_iff, hsize, ← has_iff], ?_⟩
    obtain he | rfl := same s
    · rwa [he]
    · exact hl t hlink
  · obtain he | rfl := same s
    · rw [he] at hd ⊢; exact h.fresh hd
    · obtain ⟨hd', he⟩ := hf hd
      rw [he]; exact h.fresh hd'

/-- The same for an update of the record in place. -/
theorem modify (h : w.Coherent) (r : Ref .coroutine) (f : Coroutine → Coroutine)
    (hq : r ∈ w.loop.ready →
      (f (w.coroutines.get r)).stage = .runnable ∨ (f (w.coroutines.get r)).stage = .done)
    (hl : ∀ t, (w.coroutines.get r).Waits t ∨ (w.coroutines.get r).Lost →
      (f (w.coroutines.get r)).Waits t ∨ (f (w.coroutines.get r)).Lost)
    (hw : (f (w.coroutines.get r)).waiters ⊆ (w.coroutines.get r).waiters)
    (hf : (f (w.coroutines.get r)).isDone = false → (w.coroutines.get r).isDone = false ∧
      (f (w.coroutines.get r)).exception = (w.coroutines.get r).exception) :
    (w.modifyCoroutine r f).Coherent := by
  have self : (w.modifyCoroutine r f).coroutines.get r = f (w.coroutines.get r) ∨
      (w.modifyCoroutine r f).coroutines.get r = w.coroutines.get r := by
    cases hg : w.coroutines.get? r with
    | none =>
      right
      simp [Arena.get, modifyCoroutine, Arena.get?_modify, hg]
    | some c =>
      left
      rw [get_modifyCoroutine w r f hg, get_of_get? hg]
  refine h.update r rfl (Arena.size_modify _ _ _) (fun s hs => get_modifyCoroutine_of_ne w r f hs)
    ?_ ?_ ?_ ?_
  -- there is nothing to show of a coroutine that is not there
  all_goals obtain he | he := self
  all_goals rw [he]
  · exact hq
  · exact h.queued
  · exact hl
  · exact fun _ => id
  · exact hw
  · exact List.Subset.refl _
  · exact hf
  · exact fun hd => ⟨hd, rfl⟩

theorem enqueue (h : w.Coherent) {r : Ref .coroutine} (hr : r ∉ w.loop.ready)
    (hs : (w.coroutines.get r).stage = .runnable) : (w.enqueue r).Coherent := by
  refine ⟨?_, fun {s} hm => ?_, h.linked, h.fresh⟩
  · exact List.nodup_append.2 ⟨h.nodup, by simp, by grind⟩
  · obtain hm | hm := List.mem_append.1 hm
    · exact h.queued hm
    · obtain rfl := List.mem_singleton.1 hm
      exact .inl hs

/-! ### Events -/

theorem releaseLinks (h : w.Coherent) (r : Ref .coroutine) : (w.releaseLinks r).Coherent := by
  have released : (w.modifyCoroutine r fun c => { c with
      waiters := [], awaiting := none, scope := none, frames := [], tape := Tape.reset }).Coherent := by
    refine h.modify r _ h.queued (fun t hlink => .inr ⟨rfl, rfl, ?_⟩) (by simp) fun hd => ⟨hd, rfl⟩
    obtain ⟨hs, -⟩ | ⟨-, -, hs⟩ := hlink
    · simp [hs]
    · exact hs
  simp only [World.releaseLinks]
  split
  · exact released.congr rfl rfl
  · exact released

theorem teardown (h : w.Coherent) : w.teardown.Coherent := by
  have released (l : List (Ref .coroutine)) : (l.foldl World.releaseLinks w).Coherent := by
    induction l generalizing w with
    | nil => exact h
    | cons r l ih => exact ih (h.releaseLinks r)
  exact (released w.loop.started).shorten rfl (List.nil_sublist _)

theorem complete (h : w.Coherent) (r : Ref .coroutine) (outcome : Outcome)
    (hd : (w.coroutines.get r).isDone = false) : (w.complete r outcome).Coherent := by
  have hready : (w.complete r outcome).loop.ready = w.loop.ready := by
    simp only [World.complete, World.releaseLinks]
    split <;> rfl
  have hsize : (w.complete r outcome).coroutines.size = w.coroutines.size :=
    (evolves_complete w r outcome hd).size
  cases hg : w.coroutines.get? r with
  -- nothing is written where no coroutine is
  | none =>
    have hsame : ∀ s, (w.complete r outcome).coroutines.get s = w.coroutines.get s := by
      intro s
      by_cases hs : s = r
      · subst hs
        simp [Arena.get, hg, (evolves_complete w s outcome hd).get?_none hg]
      · exact get_complete_of_ne w outcome hs
    refine h.update r hready hsize (fun s _ => hsame s) ?_ ?_ ?_ ?_
    all_goals rw [hsame]
    · exact h.queued
    · exact fun _ => id
    · exact List.Subset.refl _
    · exact fun hd => ⟨hd, rfl⟩
  | some c =>
    -- an end drops the links to others, so nothing is asked of those that are waited for
    have he : c.exception = none := by rw [← get_of_get? hg]; exact h.fresh hd
    obtain ⟨hstage, hscope, hawait, hwait, -⟩ := get_complete w outcome hg he
    refine h.update r hready hsize (fun s hs => get_complete_of_ne w outcome hs) ?_ ?_ ?_ ?_
    · exact fun _ => .inr hstage
    · exact fun _ _ => .inr ⟨hscope, hawait, by simp [hstage]⟩
    · rw [hwait]; simp
    · intro hd
      simp [isDone, hstage] at hd

/-- Coroutines wake that have waited for one with no list of waiters any more, or that are lost. -/
theorem wakes (h : w.Coherent) (outcome : Outcome) {r : Ref .coroutine} {l : List (Ref .coroutine)}
    (hr : (w.coroutines.get r).waiters = [])
    (hl : ∀ s ∈ l, (w.coroutines.get s).Waits r ∨ (w.coroutines.get s).Lost) :
    (l.foldl (wakeWithCopy outcome) w).Coherent := by
  have hget := get_wakes outcome w l
  obtain ⟨hnodup, hready⟩ := ready_wakes outcome w l h.nodup fun s hs hst => by
    obtain hq | hq := h.queued hs <;> simp [hq] at hst
  refine ⟨hnodup, fun {s} hm => ?_, fun {t s} hm => ?_, fun {s} hd => ?_⟩
  · -- the queue has those that were in it, and those that have been woken
    obtain ⟨he, hn⟩ | ⟨-, -, heap, he⟩ := hget s
    · rw [he]
      obtain hm | ⟨hs, hst⟩ := hready s hm
      · exact h.queued hm
      · exact absurd hst (hn hs)
    · rw [he]
      exact .inl rfl
  · have hm : s ∈ (w.coroutines.get t).waiters := by
      obtain ⟨he, -⟩ | ⟨-, -, heap, he⟩ := hget t <;> rw [he] at hm <;> exact hm
    have hne : t ≠ r := by
      rintro rfl
      simp [hr] at hm
    obtain ⟨hs, hlink⟩ := h.linked hm
    have hsize := (Evolves.foldl (evolves_wakeWithCopy outcome) w l).size
    refine ⟨by rwa [has_iff, hsize, ← has_iff], ?_⟩
    obtain ⟨he, -⟩ | ⟨hsl, hst, heap, he⟩ := hget s
    · rwa [he]
    · -- it has waited for `r` and for nobody else
      rw [he]
      obtain ⟨-, hawait⟩ | ⟨hscope, -, -⟩ := hl s hsl
      · obtain ⟨-, hawait'⟩ | ⟨-, hawait', -⟩ := hlink
        · exact absurd (Option.some.inj (hawait'.symm.trans hawait)) hne
        · rw [hawait] at hawait'
          contradiction
      · exact .inr ⟨hscope, rfl, by simp [woken]⟩
  · -- nobody is made undone, and only the done have an exception
    obtain ⟨he, -⟩ | ⟨-, hst, heap, he⟩ := hget s
    · rw [he] at hd ⊢
      exact h.fresh hd
    · rw [he]
      exact h.fresh (by simp [isDone, hst])

theorem waiters_complete (h : w.Coherent) (r : Ref .coroutine) (outcome : Outcome)
    (hd : (w.coroutines.get r).isDone = false) :
    ((w.complete r outcome).coroutines.get r).waiters = [] := by
  cases hg : w.coroutines.get? r with
  | none => simp [Arena.get, (evolves_complete w r outcome hd).get?_none hg, default]
  | some c =>
    have he : c.exception = none := by rw [← get_of_get? hg]; exact h.fresh hd
    exact (get_complete w outcome hg he).2.2.2.1

/-- Whoever is woken by a coroutine that is done has waited for that one and for no other. -/
theorem settle (h : w.Coherent) (r : Ref .coroutine) (outcome : Outcome)
    (hd : (w.coroutines.get r).isDone = false) : (w.settle r outcome).Coherent := by
  refine (h.complete r outcome hd).wakes outcome (h.waiters_complete r outcome hd) fun s hs => ?_
  obtain ⟨-, hlink⟩ := h.linked hs
  by_cases hsr : s = r
  · subst hsr
    have hg : w.Has s := (h.linked hs).1
    obtain ⟨hstage, hscope, hawait, -⟩ := get_complete w outcome hg (h.fresh hd)
    exact .inr ⟨hscope, hawait, by simp [hstage]⟩
  · rwa [get_complete_of_ne w outcome hsr]

/-- A coroutine changes in a way that no link or stage shows. -/
theorem aside (h : w.Coherent) (r : Ref .coroutine) (f : Coroutine → Coroutine)
    (hf : ∀ c, (f c).stage = c.stage ∧ (f c).awaiting = c.awaiting ∧ (f c).scope = c.scope ∧
      (f c).waiters = c.waiters ∧ (f c).exception = c.exception) :
    (w.modifyCoroutine r f).Coherent := by
  obtain ⟨hstage, hawait, hscope, hwait, hexc⟩ := hf (w.coroutines.get r)
  refine h.modify r f ?_ ?_ ?_ ?_
  · rw [hstage]
    exact h.queued
  · simp only [Waits, Lost, hstage, hawait, hscope]
    exact fun _ => id
  · rw [hwait]
    exact List.Subset.refl _
  · rw [hexc, isDone, hstage]
    exact fun hd => ⟨hd, rfl⟩

theorem enroll (h : w.Coherent) (r : Ref .coroutine) (stage : Stage)
    (hn : (w.coroutines.get r).stage = .new) (hs : stage ≠ .running) :
    (w.enroll r stage).Coherent := by
  have changed : (w.modifyCoroutine r fun c => { c with stage }).Coherent := by
    refine h.modify r _ ?_ ?_ (List.Subset.refl _) fun _ => ⟨by simp [isDone, hn], rfl⟩
    · exact fun hm => absurd hm (h.not_mem (by simp [hn]) (by simp [hn]))
    · rintro t (⟨hst, -⟩ | ⟨hscope, hawait, -⟩)
      · simp [hn] at hst
      · exact .inr ⟨hscope, hawait, hs⟩
  exact changed.congr rfl rfl

theorem line (h : w.Coherent) {r : Ref .coroutine} (hn : (w.coroutines.get r).stage = .new)
    (hg : w.Has r) : ((w.enroll r .runnable).enqueue r).Coherent := by
  refine (h.enroll r .runnable hn (by decide)).enqueue ?_ ?_
  · exact h.not_mem (by simp [hn]) (by simp [hn])
  · exact congrArg stage (get_modifyCoroutine w r _ hg)

/-- A cancellation takes the coroutine off the list it was on. -/
theorem deliver (h : w.Coherent) {r : Ref .coroutine}
    (hs : (w.coroutines.get r).stage = .suspendedAwait) : (w.deliverCancellation r).Coherent := by
  have hget := get_deliverCancellation hs
  have hready := ready_deliverCancellation hs
  refine ⟨?_, fun {s} hm => ?_, fun {t s} hm => ?_, fun {s} hd => ?_⟩
  · rw [hready]
    have hr : r ∉ w.loop.ready := h.not_mem (by simp [hs]) (by simp [hs])
    exact List.nodup_append.2 ⟨h.nodup, by simp, by grind⟩
  · -- the one that was reached is runnable, and last in the queue
    obtain ⟨waiters, -, -, he⟩ := hget s
    rw [he]
    split
    · exact .inl rfl
    · rename_i hne
      rw [hready] at hm
      exact h.queued ((List.mem_append.1 hm).resolve_right (by simpa using hne))
  · -- it is struck off the list of the one it waited for, and was on no other
    obtain ⟨waiters, hsub, hout, he⟩ := hget t
    rw [he] at hm
    replace hm : s ∈ waiters := by split at hm <;> exact hm
    obtain ⟨hs', hlink⟩ := h.linked (hsub hm)
    have hsize := (evolves_deliverCancellation_of_waits w r hs).size
    refine ⟨by rwa [has_iff, hsize, ← has_iff], ?_⟩
    obtain ⟨waiters', -, -, he'⟩ := hget s
    rw [he']
    split
    · rename_i hsr
      subst hsr
      obtain ⟨-, hawait⟩ | ⟨hscope, -, -⟩ := hlink
      · exact absurd hm (hout hawait)
      · exact .inr ⟨hscope, rfl, by simp [woken]⟩
    · exact hlink
  · obtain ⟨waiters, -, -, he⟩ := hget s
    rw [he] at hd ⊢
    split at hd
    · rename_i hsr
      subst hsr
      simp only [if_true]
      exact h.fresh (by simp [isDone, hs])
    · rename_i hsr
      rw [if_neg hsr]
      exact h.fresh hd

end Coherent

variable {a : Option (Ref .coroutine)}

theorem Event.coherent {w w' : World} (h : Event a w w') (hw : w.Coherent) : w'.Coherent := by
  cases h with
  | aside _ _ hc hr => exact hw.congr hc hr
  | settle r outcome _ hd => exact hw.settle r outcome hd
  | fill r slot outcome =>
    refine hw.aside r _ fun c => ?_
    split
    · split <;> simp
    · simp
  | line r hn hg => exact hw.line hn hg
  | join r stage hn hs =>
    obtain rfl | rfl := hs <;> exact hw.enroll r _ hn (by decide)
  | parent child r slot => exact hw.aside child _ fun _ => ⟨rfl, rfl, rfl, rfl, rfl⟩
  | flag r => exact hw.aside r _ fun _ => ⟨rfl, rfl, rfl, rfl, rfl⟩
  | deliver r hs => exact hw.deliver hs
  | dequeue hr =>
    refine hw.shorten rfl ?_
    rw [hr]
    exact List.sublist_cons_self _ _
  | clear => exact hw.shorten rfl (List.nil_sublist _)

theorem Events.coherent {w w' : World} (h : Events a w w') (hw : w.Coherent) : w'.Coherent := by
  induction h with
  | refl => exact hw
  | tail _ he ih => exact he.coherent ih

/-! ### Situations -/

theorem get_push {w : World} {r : Ref .coroutine} (h : w.Has r) (x : Coroutine) :
    (w.coroutines.push x).get r = w.coroutines.get r := by
  simp [Arena.get, Arena.get?_push_of_lt w.coroutines x (has_iff.1 h)]

theorem has_push {w : World} {r : Ref .coroutine} (h : w.Has r) (x : Coroutine) :
    Has { w with coroutines := w.coroutines.push x } r := by
  rw [has_iff] at h ⊢
  exact Nat.lt_of_lt_of_eq (Nat.lt_succ_of_lt h) (Arena.size_push _ _).symm

theorem Acts.push {w : World} {r : Ref .coroutine} (h : w.Acts r) (x : Coroutine) :
    Acts { w with coroutines := w.coroutines.push x } r := by
  unfold Acts
  dsimp only
  rw [get_push h.has]
  exact h

/-- With a new coroutine all others are as they were. -/
theorem get_pushed (w : World) (x : Coroutine) (r : Ref .coroutine) :
    (w.coroutines.push x).get r = w.coroutines.get r ∨
      (w.coroutines.push x).get r = x ∧ ¬ w.Has r := by
  by_cases hr : w.Has r
  · exact .inl (get_push hr x)
  · rw [has_iff] at hr ⊢
    by_cases hx : r.index = w.coroutines.size
    · right
      exact ⟨by simp_all [Arena.get, Arena.get?, Arena.push, Arena.size], hr⟩
    · left
      have hn : (w.coroutines.push x).get? r = none := by
        refine Array.getElem?_eq_none ?_
        simp only [Arena.size] at hr hx
        simp only [Arena.push, Array.size_push]
        omega
      have ho : w.coroutines.get? r = none := Array.getElem?_eq_none (Nat.le_of_not_lt hr)
      simp [Arena.get, hn, ho]

theorem Coherent.push {w : World} (h : w.Coherent) {x : Coroutine} (he : x.exception = none)
    (hw : x.waiters = []) : Coherent { w with coroutines := w.coroutines.push x } := by
  have hget := get_pushed w x
  refine ⟨h.nodup, fun {r} hm => ?_, fun {t r} hm => ?_, fun {r} hd => ?_⟩
  · obtain hr | ⟨-, hr⟩ := hget r
    · exact hr ▸ h.queued hm
    · obtain hq | hq := h.queued hm
      · exact absurd (get?_of_stage (by simp [hq])) hr
      · exact absurd (get?_of_stage (by simp [hq])) hr
  · have hm : r ∈ (w.coroutines.get t).waiters := by
      obtain ht | ⟨ht, -⟩ := hget t
      · exact ht ▸ hm
      · simp only [ht, hw, List.not_mem_nil] at hm
    obtain ⟨hr, hlink⟩ := h.linked hm
    obtain hx | ⟨-, hx⟩ := hget r
    · exact ⟨has_push hr x, hx ▸ hlink⟩
    · exact absurd hr hx
  · obtain hr | ⟨hr, -⟩ := hget r
    · rw [show World.coroutines { w with coroutines := w.coroutines.push x } =
        w.coroutines.push x from rfl, hr] at hd ⊢
      exact h.fresh hd
    · exact (congrArg exception hr).trans he

/-- The one that begins to wait is marked so, and is put on the list of the one it waits for. -/
theorem get_suspendOn {w : World} {r target : Ref .coroutine} (hr : w.Has r) (hne : r ≠ target)
    (s : Ref .coroutine) : ∃ waiters,
      (∀ x ∈ waiters, x ∈ (w.coroutines.get s).waiters ∨ x = r ∧ s = target) ∧
      (w.suspendOn r target).coroutines.get s =
        if s = r then { w.coroutines.get r with
          stage := .suspendedAwait, awaiting := some target, waiters }
        else { w.coroutines.get s with waiters } := by
  let w₁ := w.modifyCoroutine r fun c => { c with
    stage := .suspendedAwait, awaiting := some target }
  by_cases hs : s = r
  · subst hs
    refine ⟨_, fun x hx => .inl hx, ?_⟩
    rw [if_pos rfl]
    exact (get_modifyCoroutine_of_ne w₁ target _ hne).trans (get_modifyCoroutine w s _ hr)
  · have hw₁ : w₁.coroutines.get s = w.coroutines.get s := get_modifyCoroutine_of_ne w r _ hs
    simp only [if_neg hs]
    by_cases ht : s = target
    · subst ht
      cases hg : w₁.coroutines.get? s with
      -- a target that is not there has no list either
      | none =>
        have hn : (w₁.modifyCoroutine s fun c =>
            { c with waiters := c.waiters ++ [r] }).coroutines.get? s = none := by
          simp [modifyCoroutine, Arena.get?_modify, hg]
        have hs₁ : (w.suspendOn r s).coroutines.get s = w₁.coroutines.get s := by
          rw [Arena.get, Arena.get, hg]
          exact congrArg (Option.getD · default) hn
        exact ⟨_, fun x hx => .inl hx, hs₁.trans hw₁⟩
      | some c =>
        refine ⟨(w.coroutines.get s).waiters ++ [r], by simp, ?_⟩
        rw [← hw₁, get_of_get? hg]
        exact get_modifyCoroutine w₁ s _ hg
    · exact ⟨_, fun x hx => .inl hx, (get_modifyCoroutine_of_ne w₁ target _ ht).trans hw₁⟩

/-- A running coroutine is on no list, so it may begin to wait. -/
theorem Coherent.suspendOn {w : World} (h : w.Coherent) {r target : Ref .coroutine}
    (hr : (w.coroutines.get r).stage = .running) (hne : r ≠ target) :
    (w.suspendOn r target).Coherent := by
  have hg : w.Has r := get?_of_stage (by simp [hr])
  have hget := get_suspendOn hg hne
  have hn : r ∉ w.loop.ready := h.not_mem (by simp [hr]) (by simp [hr])
  refine ⟨h.nodup, fun {s} hm => ?_, fun {t s} hm => ?_, fun {s} hd => ?_⟩
  · -- the running one is not in the queue
    obtain ⟨waiters, -, he⟩ := hget s
    have hs : s ≠ r := by
      rintro rfl
      exact hn hm
    rw [he, if_neg hs]
    exact h.queued hm
  · have hsize : (w.suspendOn r target).coroutines.size = w.coroutines.size :=
      (Arena.size_modify _ _ _).trans (Arena.size_modify _ _ _)
    rw [has_iff, hsize, ← has_iff]
    obtain ⟨waiters, hold, he⟩ := hget t
    rw [he] at hm
    replace hm : s ∈ waiters := by split at hm <;> exact hm
    obtain ⟨waiters', -, he'⟩ := hget s
    rw [he']
    -- it is on the list of the target now and waits for it; all others were on that list before
    obtain hm | ⟨rfl, rfl⟩ := hold s hm
    · obtain ⟨hs, hlink⟩ := h.linked hm
      have hsr : s ≠ r := by
        rintro rfl
        obtain ⟨hst, -⟩ | ⟨-, -, hst⟩ := hlink
        · simp [hr] at hst
        · exact hst hr
      rw [if_neg hsr]
      exact ⟨hs, hlink⟩
    · rw [if_pos rfl]
      exact ⟨hg, .inl ⟨rfl, rfl⟩⟩
  · obtain ⟨waiters, -, he⟩ := hget s
    rw [he] at hd ⊢
    split at hd
    · rename_i hs
      subst hs
      rw [if_pos rfl]
      exact h.fresh (by simp [isDone, hr])
    · rename_i hs
      rw [if_neg hs]
      exact h.fresh hd

/-- One that waits keeps what it goes on with. -/
theorem get_keepTurn {w : World} {r : Ref .coroutine} (t : Thread)
    (h : (w.coroutines.get r).stage = .suspendedAwait) :
    Eval.keepTurn r t w = w.modifyCoroutine r fun c =>
      { c with scope := some t.scope, frames := t.parked, tape := t.tape } := by
  simp only [Eval.keepTurn]
  rw [if_neg]
  rw [get_modifyCoroutine w r _ (get?_of_stage (by simp [h])), h]
  decide

end World

namespace Situation

/-- The links agree, the coroutine that has the turn is marked as running, and one that has just
begun to wait is marked so. -/
structure Coherent (s : Situation) : Prop where
  world : s.world.Coherent
  active : Running s.control.actor s.world
  waiting : ∀ {r}, s.control = .waiting r → ∃ t, (s.world.coroutines.get r).Waits t

end Situation

theorem Step.coherent {s s' : Situation} (h : Step s s') (hs : s.Coherent) : s'.Coherent := by
  obtain ⟨c, w⟩ := s
  obtain ⟨c', w'⟩ := s'
  obtain ⟨hw, ha, hwait⟩ := hs
  dsimp only at hw ha hwait
  obtain ⟨he, hc⟩ | ⟨hc, hl, -, rfl, hg⟩ | ⟨x, -, hx, hxw, -, -, -, rfl, hg, rfl⟩ | ⟨r, -, rfl, rfl, rfl⟩ |
    ⟨r, t, rfl, rfl, hne, -, rfl⟩ | ⟨r, rest, scope, f, owner, rfl, rfl, hr, hd, hsc, hk, rfl⟩ |
    ⟨r, body, t, rfl, rfl, -, -, rfl⟩ | ⟨rfl, rfl⟩ := h.cases
  · -- one event after another, none of which reads the links
    have hw' := (he none (.inl rfl) (active_none w)).coherent hw
    obtain ⟨rfl, hg⟩ | ⟨rfl, -⟩ | rfl := hc
    · exact ⟨hw', (he _ (.inr rfl) ha.active).running ha, fun hr => absurd hr (hg _)⟩
    all_goals exact ⟨hw', running_none w', by simp⟩
  · -- values change, which no link depends on
    refine ⟨hw.congr hc (by rw [hl]), ?_, fun hr => absurd hr (hg _)⟩
    intro r hr
    rw [hc]
    exact ha r hr
  · -- a new coroutine has no links
    refine ⟨hw.push hx hxw, ?_, fun hr => absurd hr (hg _)⟩
    intro r hr
    have hactive := ha r hr
    have hg : w.Has r := get?_of_stage (by simp [hactive.1])
    rwa [← get_push hg x] at hactive
  · refine ⟨hw.aside r _ fun _ => ⟨rfl, rfl, rfl, rfl, rfl⟩, ?_, by simp⟩
    rintro _ ⟨⟩
    have hg : w.Has r := get?_of_stage (by simp [(ha r rfl).1])
    rw [get_modifyCoroutine w r _ hg]
    exact ha r rfl
  · -- the running one goes on the list of its target
    have hg : w.Has r := get?_of_stage (by simp [(ha r rfl).1])
    refine ⟨hw.suspendOn (ha r rfl).1 hne, running_none _, ?_⟩
    rintro _ ⟨⟩
    obtain ⟨waiters, -, he⟩ := get_suspendOn hg hne r
    refine ⟨t, ?_⟩
    rw [he, if_pos rfl]
    exact ⟨rfl, rfl⟩
  · -- the head of the queue is taken off, which is on it once
    have hg : w.Has r := by
      refine get?_of_get_ne fun he => ?_
      rw [he] at hsc
      contradiction
    have hw' : World.Coherent { w with loop := { w.loop with ready := rest } } :=
      hw.shorten rfl (by rw [hr]; exact List.sublist_cons_self r rest)
    have hnodup : r ∉ rest := (List.nodup_cons.1 (hr ▸ hw.nodup)).1
    -- it has a scope and is ready, so it is on no list of waiters
    have hready : (w.coroutines.get r).stage = .runnable :=
      (hw.queued (by simp [hr])).resolve_right (by simpa [isDone] using hd)
    refine ⟨hw'.modify r _ (fun hm => absurd hm hnodup) ?_ (List.Subset.refl _)
      fun _ => ⟨hd, rfl⟩, ?_, by simp⟩
    · rintro t (⟨hst, -⟩ | ⟨hscope, -⟩)
      · exact absurd (hready.symm.trans hst) (by decide)
      · exact absurd (hsc.symm.trans hscope) (by simp)
    · rintro _ ⟨⟩
      rw [get_modifyCoroutine { w with loop := { w.loop with ready := rest } } r _ hg]
      exact ⟨rfl, f, owner, hk⟩
  · -- who waits keeps what its next turn goes on with, and goes on waiting
    obtain ⟨target, hst, hawait⟩ := hwait rfl
    refine ⟨?_, running_none _, by simp⟩
    show (Eval.keepTurn r t w).Coherent
    rw [get_keepTurn t hst]
    refine hw.modify r _ hw.queued ?_ (List.Subset.refl _) fun hd => ⟨hd, rfl⟩
    rintro t' (hlink | ⟨-, hnone, -⟩)
    · exact .inl hlink
    · exact absurd (hawait.symm.trans hnone) (by simp)
  · exact ⟨hw.teardown, running_none _, by simp⟩

theorem Steps.coherent {s s' : Situation} (h : Steps s s') (hs : s.Coherent) : s'.Coherent := by
  induction h with
  | refl => exact hs
  | tail _ hstep ih => exact hstep.coherent ih

end Rewind
