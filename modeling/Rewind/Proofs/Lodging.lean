/-
Who has a scope to go on in.

A coroutine that runs a body keeps the scope of the body between its turns.  It gives the scope up
when it ends, and when the loop it belongs to ends before it.  So as long as one loop runs, whoever is
not done and has no scope had none when the loop began, or has the turn.

* `Coroutine.Stranded` — a coroutine is not done and has no scope to go on in;
* `Situation.Lodged` — all who are stranded are among some given ones, or have the turn;
* `Step.lodged` — nobody else is stranded by a step, as long as the loop is not over;
* `World.Manned`, `Step.manned` — who runs a body, runs one that is written in the program;
* `Uninterrupted` — the session goes on, and the turn is not passed on;
* `Proceeds` — the session goes on, and if a loop runs it is not over meanwhile and strands nobody.
-/
import Rewind.Proofs.Waiting

namespace Rewind

open Coroutine World

/-! ### One coroutine -/

namespace Coroutine

/-- The coroutine runs a body written in the program. -/
def HasBody (c : Coroutine) : Prop := ∃ f owner, c.kind = .script f owner

/-- The coroutine of this name is not done and has no scope to go on in. -/
structure Stranded (c : Coroutine) (name : String) : Prop where
  named : c.name = name
  body : c.HasBody
  live : c.isDone = false
  scope : c.scope = none

theorem Changes.hasBody {c c' : Coroutine} (h : Changes c c') (hb : c'.HasBody) : c.HasBody := by
  induction h with
  | refl => exact hb
  | tail _ hc ih =>
    refine ih ?_
    obtain ⟨f, owner, hk⟩ := hb
    cases hc with
    | fill => contradiction
    | _ => exact ⟨f, owner, hk⟩

end Coroutine

/-! ### Events -/

namespace World

variable {a : Option (Ref .coroutine)} {w w' : World} {r : Ref .coroutine} {name : String}

theorem has_of_stranded (h : (w.coroutines.get r).Stranded name) : w.Has r := by
  refine get?_of_get_ne fun hd => ?_
  obtain ⟨f, owner, hk⟩ := h.body
  rw [hd] at hk
  contradiction

/-- A coroutine that has come to its end is done. -/
theorem isDone_settle (w : World) (outcome : Outcome) (hr : w.Has r) :
    ((w.settle r outcome).coroutines.get r).isDone = true := by
  have complete : ((w.complete r outcome).coroutines.get r).stage = .done := by
    have hg (f : Coroutine → Coroutine) :
        ((w.copyOutcome outcome).2.modifyCoroutine r f).coroutines.get? r =
          some (f (w.coroutines.get r)) := by
      simp only [modifyCoroutine, Arena.get?_modify, if_true]
      exact congrArg (Option.map f) hr
    simp only [World.complete]
    rw [get_releaseLinks _ (hg _)]
    cases (w.copyOutcome outcome).1 <;> rfl
  rw [get_settle w outcome (by simp [complete]), Coroutine.isDone, complete]
  rfl

/-- Nothing but reports comes after the end itself. -/
theorem evolves_finish (w : World) (r : Ref .coroutine) (outcome : Outcome)
    (hd : (w.coroutines.get r).isDone = false) :
    Evolves (w.settle r (finalOutcome (w.coroutines.get r) outcome)) (w.finish r outcome) := by
  simp only [World.finish, finishWithin, hd]
  refine Evolves.foldl (fun v x => ?_) _ _
  have reported : Events none v (v.report (finalOutcome (w.coroutines.get r) outcome) x.1 x.2) :=
    events_report _ v x.1 x.2
  split
  · rename_i g _
    exact (reported.trans ((events_onHeap _ g.extends_outcome).trans
      (events_finishWithin _ _ _ _ (active_none _) (by simp)))).evolves
  · exact reported.evolves

/-- A coroutine that comes to its end is done. -/
theorem isDone_finish (outcome : Outcome) (hr : w.Has r) :
    ((w.finish r outcome).coroutines.get r).isDone = true := by
  by_cases hd : (w.coroutines.get r).isDone = true
  · rwa [finish, finishWithin, if_pos hd]
  · have settled := isDone_settle w (finalOutcome (w.coroutines.get r) outcome) hr
    exact ((evolves_finish w r outcome (Bool.eq_false_iff.2 hd)).done settled).1

/-- An update of one coroutine shows in that one only. -/
theorem stranded_of_modify (s : Ref .coroutine) (f : Coroutine → Coroutine)
    (h : ((w.modifyCoroutine s f).coroutines.get r).Stranded name) :
    r ≠ s ∧ (w.coroutines.get r).Stranded name ∨ r = s ∧ (f (w.coroutines.get r)).Stranded name := by
  by_cases hs : r = s
  · subst hs
    have hg : w.Has r := by
      have := has_of_stranded h
      rwa [has_iff, modifyCoroutine, Arena.size_modify, ← has_iff] at this
    rw [get_modifyCoroutine w r f hg] at h
    exact .inr ⟨rfl, h⟩
  · rw [get_modifyCoroutine_of_ne w s f hs] at h
    exact .inl ⟨hs, h⟩

/-- No event strands a coroutine: whoever loses its scope is done. -/
theorem Event.stranded (h : Event a w w') (hr : (w'.coroutines.get r).Stranded name) :
    (w.coroutines.get r).Stranded name := by
  have hg : w.Has r := by
    have := has_of_stranded hr
    rwa [has_iff, h.evolves.size, ← has_iff] at this
  cases h with
  | aside _ _ hc => rwa [hc] at hr
  | settle s outcome =>
    by_cases hs : r = s
    · subst hs
      -- whoever is settled is done, and no longer stranded
      have hl := hr.live
      rw [isDone_settle w outcome hg] at hl
      contradiction
    · -- a waiter that is woken keeps all that it is stranded by
      obtain ⟨hsame, -⟩ | ⟨-, hst, heap, hw⟩ := get_settle_of_ne w outcome hs
      · rwa [hsame] at hr
      · rw [hw] at hr
        exact ⟨hr.named, hr.body, by simp [isDone, hst], hr.scope⟩
  | fill s slot outcome =>
    obtain ⟨-, h⟩ | ⟨-, h⟩ := stranded_of_modify s _ hr
    · exact h
    · split at h
      · split at h
        · exact h
        · obtain ⟨f, owner, hk⟩ := h.body
          contradiction
      · exact h
  | line s hn =>
    obtain ⟨-, h⟩ | ⟨rfl, h⟩ := stranded_of_modify (w := w) s _ hr
    · exact h
    · exact ⟨h.named, h.body, by simp [isDone, hn], h.scope⟩
  | join s stage hn =>
    obtain ⟨-, h⟩ | ⟨rfl, h⟩ := stranded_of_modify (w := w) s _ hr
    · exact h
    · exact ⟨h.named, h.body, by simp [isDone, hn], h.scope⟩
  | parent child s slot =>
    obtain ⟨-, h⟩ | ⟨-, h⟩ := stranded_of_modify child _ hr
    · exact h
    · exact ⟨h.named, h.body, h.live, h.scope⟩
  | flag s =>
    obtain ⟨-, h⟩ | ⟨-, h⟩ := stranded_of_modify s _ hr
    · exact h
    · exact ⟨h.named, h.body, h.live, h.scope⟩
  | deliver s hs =>
    obtain ⟨waiters, -, -, hget⟩ := get_deliverCancellation hs r
    rw [hget] at hr
    split at hr
    · rename_i hrs
      rw [hrs]
      exact ⟨hr.named, hr.body, by simp [isDone, hs], hr.scope⟩
    · exact ⟨hr.named, hr.body, hr.live, hr.scope⟩
  | dequeue | clear => exact hr

theorem Events.stranded (h : Events a w w') (hr : (w'.coroutines.get r).Stranded name) :
    (w.coroutines.get r).Stranded name := by
  induction h with
  | refl => exact hr
  | tail _ he ih => exact ih (he.stranded hr)

/-- What a coroutine keeps for its next turn is a scope to go on in. -/
theorem stranded_of_keepTurn (s : Ref .coroutine) (t : Thread)
    (h : ((Eval.keepTurn s t w).coroutines.get r).Stranded name) :
    r ≠ s ∧ (w.coroutines.get r).Stranded name := by
  have kept (h : ((w.modifyCoroutine s fun c => { c with
      scope := some t.scope, frames := t.parked, tape := t.tape }).coroutines.get r).Stranded name) :
      r ≠ s ∧ (w.coroutines.get r).Stranded name := by
    obtain h | ⟨-, h⟩ := stranded_of_modify s _ h
    · exact h
    · exact absurd h.scope (by simp)
  simp only [Eval.keepTurn] at h
  split at h
  · rename_i hrun
    obtain ⟨-, h⟩ | ⟨rfl, h⟩ := stranded_of_modify s _ h
    · exact kept h
    · exact kept ⟨h.named, h.body, by simp [isDone, hrun], h.scope⟩
  · exact kept h

theorem size_keepTurn (r : Ref .coroutine) (t : Thread) (w : World) :
    (Eval.keepTurn r t w).coroutines.size = w.coroutines.size := by
  simp only [Eval.keepTurn]
  split
  · exact (Arena.size_modify _ _ _).trans (Arena.size_modify _ _ _)
  · exact Arena.size_modify _ _ _

end World

/-! ### Steps -/

/-- The coroutine whose turn it is, also if it has just begun to wait. -/
def Control.holder : Control → Option (Ref .coroutine)
  | .turn r => some r
  | .waiting r => some r
  | _ => none

/-- Whoever is stranded is as `S` says or has the turn. -/
def Situation.Lodged (S : Ref .coroutine → String → Prop) (s : Situation) : Prop :=
  ∀ r name, (s.world.coroutines.get r).Stranded name → s.control.holder = some r ∨ S r name

namespace Step

variable {S : Ref .coroutine → String → Prop} {s s' : Situation}

/-- As long as the loop is not over a step strands nobody, if whoever is made with a body has a
scope. -/
theorem lodged (h : Step s s') (hi : s'.control ≠ .idle)
    (hnew : ∀ x, s'.world.coroutines = s.world.coroutines.push x → x.HasBody → x.scope ≠ none)
    (hs : s.Lodged S) : s'.Lodged S := by
  have events {a : Option (Ref .coroutine)} (he : Events a s.world s'.world)
      (hc : s.control.holder = none ∨ s'.control.holder = s.control.holder) : s'.Lodged S := by
    intro r name hr
    obtain hh | hS := hs r name (he.stranded hr)
    · obtain hc | hc := hc
      · rw [hc] at hh
        contradiction
      · exact .inl (hc.trans hh)
    · exact .inr hS
  cases h with
  | @compute c w w' _ hc =>
    intro r name hr
    dsimp only at hr
    rw [hc] at hr
    exact hs r name hr
  | @create c w serial made kind scope =>
    intro r name hr
    obtain he | ⟨he, -⟩ := get_pushed w { serial, name := made, kind, scope } r
    · rw [he] at hr
      exact hs r name hr
    · rw [he] at hr
      exact absurd hr.scope (hnew _ rfl hr.body)
  | tick => exact hs
  | @start r w target => exact events (events_start w target (active_none w)) (.inr rfl)
  | @flag c w target => exact events (a := none) (events_flagCancelled w target) (.inr rfl)
  | @cancel r w target => exact events (events_cancel w target (active_none w)) (.inr rfl)
  | @notice r w =>
    intro s name hr
    obtain ⟨-, h⟩ | ⟨-, h⟩ := stranded_of_modify r _ hr
    · exact hs s name h
    · exact hs s name ⟨h.named, h.body, h.live, h.scope⟩
  | @wait r w target =>
    intro s name hr
    -- the one that begins to wait still has the turn
    obtain ⟨-, h⟩ | ⟨-, h⟩ := stranded_of_modify target _ hr
    · obtain ⟨-, h⟩ | ⟨rfl, -⟩ := stranded_of_modify r _ h
      · exact hs s name h
      · exact .inl rfl
    · obtain ⟨-, h⟩ | ⟨rfl, -⟩ := stranded_of_modify r _ ⟨h.named, h.body, h.live, h.scope⟩
      · exact hs s name h
      · exact .inl rfl
  | @opening w root =>
    exact events ((events_openLoop w).trans (events_start _ root (active_none _))) (.inl rfl)
  | @poll w => exact events (events_pollSleepers w) (.inl rfl)
  | pass | lose => exact hs
  | @drop w r rest hr =>
    have gone : Events none w { w with loop := { w.loop with ready := rest } } :=
      .single (.dequeue hr)
    exact events (gone.trans (events_finish _ _ _ (active_none _) (by simp))) (.inl rfl)
  | @resume w r rest scope f owner =>
    intro s name hr
    obtain ⟨-, h⟩ | ⟨rfl, -⟩ := stranded_of_modify r _ hr
    · exact (hs s name h).imp_left fun h => by contradiction
    · exact .inl rfl
  | @keep w r body t hb =>
    intro s name hr
    obtain ⟨hne, h⟩ := stranded_of_keepTurn r t hr
    exact .inr ((hs s name h).resolve_left fun h => hne (Option.some.inj h).symm)
  | @finish w r scope outcome =>
    intro s name hr
    have cleared : Events none w (w.clearScope scope) := .single (.aside rfl (.refl _) rfl rfl)
    have ended := events_finish (w.clearScope scope) r outcome (active_none _) (by simp)
    have h := (cleared.trans ended).stranded hr
    refine .inr ((hs s name h).resolve_left fun hh => ?_)
    -- the coroutine whose turn is over is done
    obtain rfl := Option.some.inj hh
    have hd := isDone_finish (w := w.clearScope scope) outcome (has_of_stranded h)
    exact Bool.false_ne_true (hr.live.symm.trans hd)
  | close => exact absurd rfl hi

/-- A step that makes no coroutine. -/
theorem lodged_of_size (h : Step s s') (hi : s'.control ≠ .idle)
    (hsize : s'.world.coroutines.size = s.world.coroutines.size) (hs : s.Lodged S) :
    s'.Lodged S := by
  refine h.lodged hi (fun x hx => ?_) hs
  rw [hx, Arena.size_push] at hsize
  omega

end Step

/-! ### Bodies -/

namespace World

/-- A function that a coroutine of this kind runs is written in the program. -/
def Mans (w : World) (kind : CoroutineKind) : Prop :=
  ∀ f owner, kind = .script f owner → ∃ body, (w.functions.get f).body = .script body

/-- Every coroutine that runs a body runs one that is written in the program. -/
def Manned (w : World) : Prop := ∀ r, w.Mans (w.coroutines.get r).kind

variable {w w' : World}

theorem mans_timer (w : World) (wake : Nat) : w.Mans (.timer wake) := by
  intro f owner h
  contradiction

theorem mans_gather (w : World) (g : GatherState) : w.Mans (.gather g) := by
  intro f owner h
  contradiction

theorem Manned.adds (h : w.Manned) (hf : w.AddsFunctions w')
    (hk : ∀ r, (w'.coroutines.get r).kind = (w.coroutines.get r).kind) : w'.Manned := by
  intro r f owner hr
  obtain ⟨body, hb⟩ := h r f owner ((hk r).symm.trans hr)
  exact ⟨body, hf.script hb⟩

theorem Manned.evolves (h : w.Manned) (he : Evolves w w') : w'.Manned := by
  intro r f owner hr
  have hg : w'.Has r := get?_of_get_ne fun hd => by
    rw [hd] at hr
    contradiction
  obtain ⟨c, hc, hcc⟩ := he.before hg
  obtain ⟨f', owner', hk⟩ := hcc.hasBody ⟨f, owner, hr⟩
  obtain ⟨rfl, -⟩ := CoroutineKind.script.inj ((hcc.script hk).symm.trans hr)
  rw [← get_of_get? hc] at hk
  rw [he.functions]
  exact h r f' owner' hk

/-- An update of a coroutine that does not show in its kind. -/
theorem Manned.modify (h : w.Manned) (r : Ref .coroutine) (f : Coroutine → Coroutine)
    (hf : ∀ c, (f c).kind = c.kind) : (w.modifyCoroutine r f).Manned :=
  h.adds (.of_same rfl) (field_modifyCoroutine w r f Coroutine.kind hf)

theorem Manned.push (h : w.Manned) {x : Coroutine} (hx : w.Mans x.kind) :
    Manned { w with coroutines := w.coroutines.push x } := by
  intro r
  obtain he | ⟨he, -⟩ := get_pushed w x r
  · rw [he]
    exact h r
  · rw [he]
    exact hx

theorem Manned.keepTurn (h : w.Manned) (r : Ref .coroutine) (t : Thread) :
    (Eval.keepTurn r t w).Manned := by
  have kept := h.modify r (fun c =>
    { c with scope := some t.scope, frames := t.parked, tape := t.tape }) fun _ => rfl
  simp only [Eval.keepTurn]
  split
  · refine Manned.evolves ?_ (evolves_enqueue _ r)
    exact kept.modify r _ fun _ => rfl
  · exact kept

theorem Manned.suspendOn (h : w.Manned) (r target : Ref .coroutine) :
    (w.suspendOn r target).Manned := by
  refine Manned.modify ?_ target _ fun _ => rfl
  exact h.modify r _ fun _ => rfl

end World

/-- Whoever runs a body goes on to do so, if whoever is made does. -/
theorem Step.manned {s s' : Situation} (h : Step s s')
    (hnew : ∀ x, s'.world.coroutines = s.world.coroutines.push x → s.world.Mans x.kind)
    (hs : s.world.Manned) : s'.world.Manned := by
  obtain ⟨c, w⟩ := s
  obtain ⟨c', w'⟩ := s'
  obtain ⟨he, -⟩ | ⟨hc, -, hf, -⟩ | ⟨x, -, -, -, -, -, -, -, -, rfl⟩ | ⟨r, -, -, -, rfl⟩ |
    ⟨r, t, -, -, -, -, rfl⟩ | ⟨r, rest, scope, f, owner, -, -, -, -, -, -, rfl⟩ |
    ⟨r, body, t, -, -, -, -, rfl⟩ | ⟨-, rfl⟩ := h.cases
  · exact hs.evolves (he none (.inl rfl) (active_none w)).evolves
  · exact hs.adds hf fun r => by rw [hc]
  · exact hs.push (hnew x rfl)
  · exact hs.modify r _ fun _ => rfl
  · exact hs.suspendOn r t
  · exact (hs.evolves (.of_loop w _)).modify r _ fun _ => rfl
  · exact hs.keepTurn r t
  · exact hs.evolves (evolves_teardown w)

/-- A step that makes no coroutine. -/
theorem Step.manned_of_size {s s' : Situation} (h : Step s s')
    (hsize : s'.world.coroutines.size = s.world.coroutines.size) (hs : s.world.Manned) :
    s'.world.Manned := by
  refine h.manned (fun x hx => ?_) hs
  rw [hx, Arena.size_push] at hsize
  omega

/-- Functions stay as they are. -/
theorem Step.addsFunctions {s s' : Situation} (h : Step s s') :
    s.world.AddsFunctions s'.world := by
  obtain ⟨c, w⟩ := s
  obtain ⟨c', w'⟩ := s'
  obtain ⟨he, -⟩ | ⟨-, -, hf, -⟩ | ⟨x, -, -, -, -, -, -, -, -, rfl⟩ | ⟨r, -, -, -, rfl⟩ |
    ⟨r, t, -, -, -, -, rfl⟩ | ⟨r, rest, scope, f, owner, -, -, -, -, -, -, rfl⟩ |
    ⟨r, body, t, -, -, -, -, rfl⟩ | ⟨-, rfl⟩ := h.cases
  · exact .of_same (he none (.inl rfl) (active_none w)).evolves.functions
  · exact hf
  · exact .of_same rfl
  · exact .of_same rfl
  · exact .of_same rfl
  · exact .of_same rfl
  · refine .of_same ?_
    show (Eval.keepTurn r t w).functions = w.functions
    simp only [Eval.keepTurn]
    split <;> rfl
  · exact .of_same (evolves_teardown w).functions

theorem Steps.addsFunctions {s s' : Situation} (h : Steps s s') :
    s.world.AddsFunctions s'.world := by
  induction h with
  | refl => exact .of_same rfl
  | tail _ hstep ih => exact ih.trans hstep.addsFunctions

/-! ### The session goes on -/

/-- The session goes on while one coroutine has the turn, or has just begun to wait. -/
def Uninterrupted : Situation → Situation → Prop :=
  Relation.ReflTransGen fun s s' =>
    Step s s' ∧ s.control.holder ≠ none ∧ s'.control.holder = s.control.holder

/-- A step after which somebody still has the turn has not passed it on. -/
theorem Step.uninterrupted {s s' : Situation} (h : Step s s') (hs : s.control.holder ≠ none)
    (hs' : s'.control.holder ≠ none) : Uninterrupted s s' := by
  refine .single ⟨h, hs, ?_⟩
  cases h with
  | opening | resume => exact absurd rfl hs
  | keep | finish | close => exact absurd rfl hs'
  | _ => rfl

/-- The session goes on, and if a loop runs it is not over meanwhile and strands nobody; a turn that
goes on after it has not been interrupted. -/
structure Proceeds (s s' : Situation) : Prop where
  steps : Steps s s'
  within : s.control ≠ .idle → Within s s'
  uninterrupted : s.control.holder ≠ none → s'.control.holder ≠ none → Uninterrupted s s'
  lodged : s.control ≠ .idle → ∀ {S : Ref .coroutine → String → Prop}, s.Lodged S → s'.Lodged S
  manned : s.world.Manned → s'.world.Manned

namespace Proceeds

variable {s s' : Situation}

theorem refl (s : Situation) : Proceeds s s :=
  ⟨.refl, fun _ => .refl, fun _ _ => .refl, fun _ _ => id, id⟩

theorem trans {s₁ s₂ s₃ : Situation} (h : Proceeds s₁ s₂) (h' : Proceeds s₂ s₃)
    (hh : s₁.control.holder ≠ none → s₂.control.holder ≠ none) : Proceeds s₁ s₃ := by
  refine ⟨Relation.ReflTransGen.trans h.steps h'.steps, fun hs => ?_, fun hs hs' => ?_,
    fun hs _ hl => ?_, fun hm => h'.manned (h.manned hm)⟩
  · have hw := h.within hs
    exact Relation.ReflTransGen.trans hw (h'.within (hw.running hs))
  · exact Relation.ReflTransGen.trans (h.uninterrupted hs (hh hs)) (h'.uninterrupted (hh hs) hs')
  · exact h'.lodged ((h.within hs).running hs) (h.lodged hs hl)

/-- A step of a loop that is not over by it. -/
theorem single (h : Step s s') (hi : s'.control ≠ .idle)
    (hsize : s'.world.coroutines.size = s.world.coroutines.size) : Proceeds s s' :=
  ⟨.single h, fun _ => .single ⟨h, hi⟩, h.uninterrupted, fun _ _ => h.lodged_of_size hi hsize,
    h.manned_of_size hsize⟩

/-- A step after which the same one acts. -/
theorem act {c : Control} {w w' : World} (h : Step ⟨c, w⟩ ⟨c, w'⟩)
    (hsize : w'.coroutines.size = w.coroutines.size) : Proceeds ⟨c, w⟩ ⟨c, w'⟩ :=
  ⟨.single h, fun hi => .single ⟨h, hi⟩, h.uninterrupted, fun hi _ => h.lodged_of_size hi hsize,
    h.manned_of_size hsize⟩

/-- A coroutine is made.  If it runs a body, it has a scope for it. -/
theorem create {c : Control} {w : World} (serial : Nat) (name : String) {kind : CoroutineKind}
    {scope : Option (Ref .scope)} (hc : c.GoesOn) (hk : w.Admits kind) (hm : w.Mans kind)
    (hs : (∃ f owner, kind = .script f owner) → scope ≠ none) :
    Proceeds ⟨c, w⟩
      ⟨c, { w with coroutines := w.coroutines.push { serial, name, kind, scope } }⟩ := by
  have h : Step ⟨c, w⟩ ⟨c, { w with
      coroutines := w.coroutines.push { serial, name, kind, scope } }⟩ :=
    .create serial name kind scope hc hk
  have only {x : Coroutine}
      (hx : w.coroutines.push { serial, name, kind, scope } = w.coroutines.push x) :
      x = { serial, name, kind, scope } :=
    (Array.push_eq_push.1 (congrArg Arena.cells hx)).1.symm
  refine ⟨.single h, fun hi => .single ⟨h, hi⟩, h.uninterrupted,
    fun hi _ => h.lodged hi fun x hx hb => ?_, h.manned fun x hx => ?_⟩
  · obtain rfl := only hx
    exact hs hb
  · obtain rfl := only hx
    exact hm

/-- A loop is over. -/
theorem close (h : Steps s s') (hi : s.control = .idle) (hm : s.world.Manned → s'.world.Manned) :
    Proceeds s ⟨.idle, s'.world.teardown⟩ :=
  ⟨.tail h .close, fun hn => absurd hi hn, fun hn => absurd (congrArg Control.holder hi) hn,
    fun hn => absurd hi hn, fun hs => (hm hs).evolves (evolves_teardown _)⟩

end Proceeds

end Rewind
