/-
What becomes of a suspended coroutine.

A coroutine that is suspended is woken by the one it waits for or by its own cancellation, and by
nothing else.  However long the session goes on without it, it keeps the frames and the scope it was
suspended with, and its tape gets one outcome more: the one it has waited for.

* `Suspension` — what a suspended coroutine has kept;
* `World.Sent`, `World.Fate` — the outcome that wakes it, and where it stands;
* `mirrors_settle` — who waits for a coroutine that ends gets a copy that holds the same;
* `Event.fate`, `Step.fate` — one step lets it wait, or wakes it with what is sent to it;
* `Without` — the session goes on without the coroutine; `Brings` — it is woken on the way;
* `Without.fate` — nothing else can happen;
* `Fate.at_turn` — what it has when its turn comes.
-/
import Rewind.Proofs.Dues
import Rewind.Proofs.Waiting

namespace Rewind

open Coroutine World

/-- What a suspended coroutine has kept, and which one it waits for. -/
structure Suspension where
  target : Ref .coroutine
  frames : List Frame
  scope : Ref .scope
  tape : Tape

/-- Only a suspended coroutine waits, and updates by the loop make it wait for nothing new. -/
theorem Coroutine.Changes.waits {c c' : Coroutine} {t : Ref .coroutine} (h : Changes c c')
    (hw : c'.Waits t) : c.Waits t := by
  induction h with
  | refl => exact hw
  | tail _ hc ih =>
    cases hc with
    | wake | result | exception => exact absurd hw.1 (by simp)
    | start _ _ _ _ hn => exact absurd hw.1 hn
    | release | deliver => exact absurd hw.2 (by simp)
    | _ => exact ih hw

namespace World

/-- The outcome that wakes `r`: a copy of what `target` has come to, which holds the same in the heap
there is, or its own cancellation. -/
def Sent (w : World) (r target : Ref .coroutine) (outcome : Outcome) : Prop :=
  ((w.coroutines.get target).isDone = true ∧
    w.heap.MirrorsOutcome (w.coroutines.get target).outcome outcome) ∨
  ((w.coroutines.get r).isCancelled = true ∧ outcome = .error (cancellation 0 0))

/-- Where the coroutine `r` stands after it was suspended: it still waits, it was woken with one of
the outcomes that `came`, or something else has ended it. -/
inductive Fate (w : World) (r : Ref .coroutine) (k : Suspension) (came : Outcome → Prop) : Prop
  | waiting : (w.coroutines.get r).Waits k.target → (w.coroutines.get r).frames = k.frames →
      (w.coroutines.get r).scope = some k.scope → (w.coroutines.get r).tape = k.tape →
      Fate w r k came
  | woken (outcome : Outcome) : (w.coroutines.get r).stage = .runnable →
      (w.coroutines.get r).frames = k.frames → (w.coroutines.get r).scope = some k.scope →
      (w.coroutines.get r).tape = k.tape.inject outcome → came outcome → Fate w r k came
  | done : (w.coroutines.get r).isDone = true → Fate w r k came

variable {w w' : World} {r : Ref .coroutine} {k : Suspension} {came came' : Outcome → Prop}

theorem has_of_isCancelled (h : (w.coroutines.get r).isCancelled = true) : w.Has r :=
  get?_of_get_ne fun he => by
    rw [he] at h
    contradiction

/-- As long as nothing is taken away, what was sent is what is there. -/
theorem Sent.evolves {target : Ref .coroutine} {outcome : Outcome} (h : w.Sent r target outcome)
    (he : Evolves w w') : w'.Sent r target outcome := by
  obtain ⟨hd, hm⟩ | ⟨hc, ho⟩ := h
  · obtain ⟨hd', ho⟩ := he.done hd
    exact .inl ⟨hd', ho ▸ hm.mono he.heap⟩
  · obtain ⟨c, hget, hcc⟩ := he.changes (has_of_isCancelled hc)
    rw [← get_of_get? hget] at hcc
    exact .inr ⟨hcc.isCancelled hc, ho⟩

theorem Fate.imp (h : Fate w r k came) (hi : ∀ outcome, came outcome → came' outcome) :
    Fate w r k came' := by
  cases h with
  | waiting hw hf hs ht => exact .waiting hw hf hs ht
  | woken outcome hw hf hs ht hc => exact .woken outcome hw hf hs ht (hi outcome hc)
  | done hd => exact .done hd

theorem Fate.has (h : Fate w r k came) : w.Has r := by
  cases h with
  | waiting hw => exact get?_of_stage (by simp [hw.1])
  | woken _ hs => exact get?_of_stage (by simp [hs])
  | done hd => exact get?_of_stage fun hs => by simp [isDone, hs] at hd

theorem Fate.not_new (h : Fate w r k came) : (w.coroutines.get r).stage ≠ .new := by
  cases h with
  | waiting hw => simp [hw.1]
  | woken _ hs => simp [hs]
  | done hd => exact fun hs => by simp [isDone, hs] at hd

/-- Changes that the record of `r` does not show where it matters. -/
theorem Fate.keep (h : Fate w r k came)
    (hstage : (w'.coroutines.get r).stage = (w.coroutines.get r).stage)
    (hawait : (w'.coroutines.get r).awaiting = (w.coroutines.get r).awaiting)
    (hframes : (w'.coroutines.get r).frames = (w.coroutines.get r).frames)
    (hscope : (w'.coroutines.get r).scope = (w.coroutines.get r).scope)
    (htape : (w'.coroutines.get r).tape = (w.coroutines.get r).tape) : Fate w' r k came := by
  cases h with
  | waiting hw hf hs ht =>
    exact .waiting ⟨hstage.trans hw.1, hawait.trans hw.2⟩ (hframes.trans hf) (hscope.trans hs)
      (htape.trans ht)
  | woken outcome hw hf hs ht hc =>
    exact .woken outcome (hstage.trans hw) (hframes.trans hf) (hscope.trans hs) (htape.trans ht) hc
  | done hd =>
    refine .done ?_
    rwa [isDone, hstage]

/-- The same, if all of the coroutine is as it was, but for those that wait for it. -/
theorem Fate.keep_of_eq (h : Fate w r k came) {waiters : List (Ref .coroutine)}
    (hr : w'.coroutines.get r = { w.coroutines.get r with waiters }) : Fate w' r k came :=
  h.keep (by rw [hr]) (by rw [hr]) (by rw [hr]) (by rw [hr]) (by rw [hr])

/-- The same, for a change of one coroutine in a way that does not matter. -/
theorem Fate.modify (h : Fate w r k came) (s : Ref .coroutine) (f : Coroutine → Coroutine)
    (hf : ∀ c, (f c).stage = c.stage ∧ (f c).awaiting = c.awaiting ∧ (f c).frames = c.frames ∧
      (f c).scope = c.scope ∧ (f c).tape = c.tape) : Fate (w.modifyCoroutine s f) r k came := by
  refine h.keep ?_ ?_ ?_ ?_ ?_
  · exact field_modifyCoroutine w s f Coroutine.stage (fun c => (hf c).1) r
  · exact field_modifyCoroutine w s f Coroutine.awaiting (fun c => (hf c).2.1) r
  · exact field_modifyCoroutine w s f Coroutine.frames (fun c => (hf c).2.2.1) r
  · exact field_modifyCoroutine w s f Coroutine.scope (fun c => (hf c).2.2.2.1) r
  · exact field_modifyCoroutine w s f Coroutine.tape (fun c => (hf c).2.2.2.2) r

/-- An outcome reaches a suspended coroutine. -/
theorem Fate.wake (h : Fate w r k came) (outcome : Outcome)
    (hs : (w.coroutines.get r).stage = .suspendedAwait)
    (hw : (w'.coroutines.get r).stage = .runnable ∧
      (w'.coroutines.get r).frames = (w.coroutines.get r).frames ∧
      (w'.coroutines.get r).scope = (w.coroutines.get r).scope ∧
      (w'.coroutines.get r).tape = (w.coroutines.get r).tape.inject outcome)
    (hsent : (w.coroutines.get r).Waits k.target → came' outcome) : Fate w' r k came' := by
  obtain ⟨hstage, hframes, hscope, htape⟩ := hw
  cases h with
  | waiting hw hf hsc ht =>
    exact .woken outcome hstage (hframes.trans hf) (hscope.trans hsc) (by rw [htape, ht])
      (hsent hw)
  | woken _ hw => simp [hw] at hs
  | done hd => simp [isDone, hs] at hd

/-- Whoever is suspended and on the list gets a copy that holds the same as the outcome. -/
theorem mirrors_wakes (outcome : Outcome) {w : World} {l : List (Ref .coroutine)}
    {s : Ref .coroutine} (hm : s ∈ l) (hs : (w.coroutines.get s).stage = .suspendedAwait) :
    ∃ copy, (l.foldl (wakeWithCopy outcome) w).coroutines.get s = (w.coroutines.get s).woken copy ∧
      (l.foldl (wakeWithCopy outcome) w).heap.MirrorsOutcome outcome copy := by
  induction l generalizing w with
  | nil => contradiction
  | cons r l ih =>
    by_cases hsr : s = r
    · subst hsr
      -- it wakes here, and the rest of the list finds it awake
      have hself := get_wakeWithCopy outcome hs
      have heap : (wakeWithCopy outcome w s).heap = (Heap.duplicateOutcome outcome w.heap).2 := by
        simp only [wakeWithCopy, wake]
        split <;> rfl
      have he : Evolves (wakeWithCopy outcome w s) (l.foldl (wakeWithCopy outcome) _) :=
        Evolves.foldl (evolves_wakeWithCopy outcome) _ _
      refine ⟨(Heap.duplicateOutcome outcome w.heap).1, ?_, ?_⟩
      · obtain ⟨hsame, -⟩ | ⟨-, hst, -⟩ := get_wakes outcome (wakeWithCopy outcome w s) l s
        · exact hsame.trans hself
        · rw [hself] at hst
          contradiction
      · exact (heap ▸ Heap.mirrors_duplicateOutcome outcome w.heap).mono he.heap
    · have hother := get_wakeWithCopy_of_ne (w := w) (r := r) outcome hsr
      rw [← hother] at hs ⊢
      exact ih ((List.mem_cons.1 hm).resolve_left hsr) hs

/-- Whoever waits for a coroutine that ends gets a copy of what it keeps, which holds the same in the
heap there is then. -/
theorem mirrors_settle (w : World) {r s : Ref .coroutine} (outcome : Outcome) (hr : w.Has r)
    (he : (w.coroutines.get r).exception = none) (hne : s ≠ r)
    (hm : s ∈ (w.coroutines.get r).waiters) (hs : (w.coroutines.get s).stage = .suspendedAwait) :
    ∃ copy, (w.settle r outcome).coroutines.get s = (w.coroutines.get s).woken copy ∧
      (w.settle r outcome).heap.MirrorsOutcome ((w.settle r outcome).coroutines.get r).outcome
        copy := by
  rw [← get_complete_of_ne w outcome hne] at hs ⊢
  obtain ⟨copy, hget, hcopy⟩ := mirrors_wakes outcome hm hs
  exact ⟨copy, hget, (outcome_settle w outcome hr he).2.trans hcopy⟩

/-- The outcomes that may have woken the coroutine, if it still waits in `w` and it is `w'` by now. -/
def Adds (w w' : World) (r target : Ref .coroutine) (came : Outcome → Prop) (outcome : Outcome) :
    Prop :=
  came outcome ∨ ((w.coroutines.get r).Waits target ∧ w'.Sent r target outcome)

theorem Fate.settle (h : Fate w r k came) (hw : w.Coherent) {s : Ref .coroutine} {outcome : Outcome}
    (hd : (w.coroutines.get s).isDone = false) :
    Fate (w.settle s outcome) r k (w.Adds (w.settle s outcome) r k.target came) := by
  by_cases hs : r = s
  · subst hs
    exact .done (outcome_settle w outcome h.has (hw.fresh hd)).1
  · obtain ⟨hsame, -⟩ | ⟨hm, hst, -⟩ := get_settle_of_ne w outcome hs
    · exact (h.keep_of_eq hsame).imp fun _ => .inl
    · have ht : w.Has s := by
        refine get?_of_get_ne fun hdef => ?_
        rw [hdef] at hm
        exact absurd hm (by simp [default])
      obtain ⟨copy, hget, hcopy⟩ := mirrors_settle w outcome ht (hw.fresh hd) hs hm hst
      refine h.wake copy hst ?_ fun hwait => .inr ⟨hwait, ?_⟩
      · rw [hget]
        exact ⟨rfl, rfl, rfl, rfl⟩
      · -- it has waited for the one whose list it is on
        obtain ⟨-, hlink⟩ := hw.linked hm
        obtain rfl : k.target = s := by
          obtain ⟨-, ha⟩ | ⟨-, ha, -⟩ := hlink
          · exact Option.some.inj (hwait.2.symm.trans ha)
          · exact absurd (hwait.2.symm.trans ha) (by simp)
        exact .inl ⟨(outcome_settle w outcome ht (hw.fresh hd)).1, hcopy⟩

theorem Fate.deliver (h : Fate w r k came) {s : Ref .coroutine}
    (hs : (w.coroutines.get s).stage = .suspendedAwait)
    (hc : (w.coroutines.get s).isCancelled = true) :
    Fate (w.deliverCancellation s) r k (w.Adds (w.deliverCancellation s) r k.target came) := by
  obtain ⟨waiters, -, -, hget⟩ := get_deliverCancellation hs r
  by_cases hrs : r = s
  · subst hrs
    rw [if_pos rfl] at hget
    refine h.wake (.error (cancellation 0 0)) hs ?_ fun hwait => .inr ⟨hwait, .inr ?_⟩
    · rw [hget]
      exact ⟨rfl, rfl, rfl, rfl⟩
    · rw [hget]
      exact ⟨hc, rfl⟩
  · rw [if_neg hrs] at hget
    exact (h.keep_of_eq hget).imp fun _ => .inl

/-- A new coroutine joins the loop. -/
theorem Fate.enroll (h : Fate w r k came) {s : Ref .coroutine} {stage : Stage}
    (hn : (w.coroutines.get s).stage = .new) : Fate (w.enroll s stage) r k came := by
  refine h.keep_of_eq (get_enroll_of_ne w s stage ?_)
  rintro rfl
  exact h.not_new hn

/-- What one event does to a coroutine that was suspended: if it wakes it, the outcome is sent to it. -/
theorem Event.fate {a : Option (Ref .coroutine)} (h : Event a w w') (hw : w.Coherent)
    (hr : Fate w r k came) : Fate w' r k (w.Adds w' r k.target came) := by
  have same (hr : Fate w' r k came) : Fate w' r k (w.Adds w' r k.target came) := hr.imp fun _ => .inl
  cases h with
  | settle s outcome _ hd => exact hr.settle hw hd
  | deliver s hs hc => exact hr.deliver hs hc
  | aside _ _ hc => exact same (hr.keep_of_eq (by rw [hc]))
  | fill s slot outcome =>
    refine same (hr.modify s _ fun c => ?_)
    split
    · split <;> simp
    · simp
  | line s hn => exact same ((hr.enroll hn).keep_of_eq rfl)
  | join s stage hn => exact same (hr.enroll hn)
  | parent child s slot => exact same (hr.modify child _ fun _ => ⟨rfl, rfl, rfl, rfl, rfl⟩)
  | flag s => exact same (hr.modify s _ fun _ => ⟨rfl, rfl, rfl, rfl, rfl⟩)
  | dequeue | clear => exact same (hr.keep_of_eq rfl)

/-- And so do several: it does not begin to wait again. -/
theorem Events.fate {a : Option (Ref .coroutine)} (h : Events a w w') (hw : w.Coherent)
    (hr : Fate w r k came) : Fate w' r k (w.Adds w' r k.target came) := by
  induction h with
  | refl => exact hr.imp fun _ => .inl
  | @tail w₁ w₂ hs he ih =>
    refine (he.fate (Events.coherent hs hw) ih).imp fun outcome ho => ?_
    obtain (hc | ⟨hwait, hsent⟩) | ⟨hwait, hsent⟩ := ho
    · exact .inl hc
    · exact .inr ⟨hwait, hsent.evolves he.evolves⟩
    · obtain ⟨c, hget, hcc⟩ := (Events.evolves hs).changes hr.has
      rw [← get_of_get? hget] at hcc
      exact .inr ⟨hcc.waits hwait, hsent⟩

end World

/-! ### The session without the coroutine -/

/-- The coroutine `r` acts. -/
def Control.By (r : Ref .coroutine) : Control → Prop
  | .turn s => s = r
  | .waiting s => s = r
  | _ => False

/-- The loop goes on, and `r` has no turn. -/
def Without (r : Ref .coroutine) : Situation → Situation → Prop :=
  Relation.ReflTransGen fun s s' => Step s s' ∧ ¬ s.control.By r ∧ ¬ s'.control.By r ∧
    s'.control ≠ .idle

theorem Without.steps {r : Ref .coroutine} {s s' : Situation} (h : Without r s s') :
    Steps s s' := by
  induction h with
  | refl => exact .refl
  | tail _ hstep ih => exact .tail ih hstep.1

/-- In one step of the session the coroutine that was suspended goes on waiting, or is woken with what
is sent to it. -/
theorem Step.fate {r : Ref .coroutine} {k : Suspension} {came : Outcome → Prop} {s s' : Situation}
    (h : Step s s') (hs : s.Coherent) (hb : ¬ s.control.By r) (hb' : ¬ s'.control.By r)
    (hi : s'.control ≠ .idle) (hr : Fate s.world r k came) :
    Fate s'.world r k (s.world.Adds s'.world r k.target came) := by
  obtain ⟨c, w⟩ := s
  obtain ⟨c', w'⟩ := s'
  obtain ⟨hw, ha, hwait⟩ := hs
  dsimp only at hw ha hwait hb hb' hi hr ⊢
  have same (hr : Fate w' r k came) : Fate w' r k (w.Adds w' r k.target came) := hr.imp fun _ => .inl
  -- neither side of the step is this coroutine's own, so it is another's or nobody's
  obtain ⟨he, -⟩ | ⟨hc, -, -, -⟩ | ⟨x, -, -, -, -, -, -, -, -, rfl⟩ | ⟨s, -, -, -, rfl⟩ |
    ⟨s, t, rfl, rfl, hne, -, rfl⟩ | ⟨s, rest, scope, f, owner, rfl, rfl, -, hd, -, -, rfl⟩ |
    ⟨s, body, t, rfl, -, -, -, rfl⟩ | ⟨rfl, -⟩ := h.cases
  · exact (he none (.inl rfl) (active_none w)).fate hw hr
  · exact same (hr.keep_of_eq (by rw [hc]))
  · exact same (hr.keep_of_eq (get_push hr.has x))
  · exact same (hr.modify s _ fun _ => ⟨rfl, rfl, rfl, rfl, rfl⟩)
  · have hg : w.Has s := get?_of_stage (by simp [(ha s rfl).1])
    obtain ⟨waiters, -, he⟩ := get_suspendOn hg hne r
    rw [if_neg fun h => hb h.symm] at he
    exact same (hr.keep_of_eq he)
  · exact same (hr.keep_of_eq (get_modifyCoroutine_of_ne _ s _ fun h => hb' h.symm))
  · obtain ⟨target, hst, -⟩ := hwait rfl
    rw [get_keepTurn t hst] at same ⊢
    exact same (hr.keep_of_eq (get_modifyCoroutine_of_ne _ s _ fun h => hb h.symm))
  · exact absurd rfl hi

/-- On the way from `s` to `s'`, on which `r` has no turn, there is a step in which it is woken with
the outcome: what `target` has come to, as it is in the heap behind that step, or its own
cancellation.  From then on the outcome is on the tape of `r`, whose containers nobody else has. -/
def Brings (r target : Ref .coroutine) (outcome : Outcome) (s s' : Situation) : Prop :=
  ∃ s₀ s₁, Without r s s₀ ∧ (s₀.world.coroutines.get r).Waits target ∧ Step s₀ s₁ ∧
    s₁.world.Sent r target outcome ∧ Without r s₁ s'

/-- A coroutine that is suspended goes on waiting, or is woken on the way, or something has ended it. -/
theorem Without.fate {r : Ref .coroutine} {k : Suspension} {s s' : Situation} (h : Without r s s')
    (hs : s.Coherent) (hr : Fate s.world r k fun _ => False) :
    Fate s'.world r k fun outcome => Brings r k.target outcome s s' := by
  induction h with
  | refl => exact hr.imp fun _ => False.elim
  | @tail s₁ s₂ hsteps hstep ih =>
    have coherent := (Without.steps hsteps).coherent hs
    obtain ⟨h, hb, hb', hi⟩ := id hstep
    refine (h.fate coherent hb hb' hi ih).imp fun outcome ho => ?_
    obtain ⟨s₀, s₀', before, waits, wakes, sent, after⟩ | ⟨waits, sent⟩ := ho
    · exact ⟨s₀, s₀', before, waits, wakes, sent, .tail after hstep⟩
    · exact ⟨s₁, s₂, hsteps, waits, h, sent, .refl⟩

/-- A coroutine that has kept what it goes on with waits. -/
theorem fate_keepTurn {w : World} {r target : Ref .coroutine} (t : Thread)
    (h : (w.coroutines.get r).Waits target) :
    Fate (Eval.keepTurn r t w) r ⟨target, t.parked, t.scope, t.tape⟩ fun _ => False := by
  have hget : (Eval.keepTurn r t w).coroutines.get r = { w.coroutines.get r with
      scope := some t.scope, frames := t.parked, tape := t.tape } := by
    rw [get_keepTurn t h.1]
    exact get_modifyCoroutine w r _ (get?_of_stage (by simp [h.1]))
  refine .waiting ?_ ?_ ?_ ?_
  all_goals rw [hget]
  exact h

/-- When its turn comes, a coroutine that was suspended has all it has kept, and behind the outcomes
of its tape the one it was woken with. -/
theorem World.Fate.at_turn {w : World} {r : Ref .coroutine} {k : Suspension} {came : Outcome → Prop}
    (h : Fate w r k came) (hw : w.Coherent) (hq : r ∈ w.loop.ready)
    (hd : (w.coroutines.get r).isDone = false) :
    (w.coroutines.get r).scope = some k.scope ∧ (w.coroutines.get r).frames = k.frames ∧
      ∃ outcome, (w.coroutines.get r).tape = k.tape.inject outcome ∧ came outcome := by
  cases h with
  | waiting hwait => exact absurd hq (hw.not_mem (by simp [hwait.1]) (by simp [hwait.1]))
  | woken outcome _ hf hsc ht hc => exact ⟨hsc, hf, outcome, ht, hc⟩
  | done h => exact absurd (h.symm.trans hd) (by simp)

end Rewind
