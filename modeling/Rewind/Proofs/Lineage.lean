/-
Lines of blueprints and of scopes.

A blueprint inherits from an older one, so going from a blueprint to its parent always comes to an
end, and what is found on the way up is found at the nearest place.  Nothing but the definition of a
blueprint touches the blueprints there are, and that only adds one.  A scope, too, stays inside the
one it was made in, and its bindings can always be looked up.

* `World.Lineage` — every blueprint inherits from an older one;
* `World.Nearest`, `Lineage.findMember_iff` — what the search for a member finds;
* `World.Above` — a blueprint is strictly above another one;
* `Scopes.Grows`, `Scopes.Endures` — scopes stay where they are, and their bindings in order;
* `World.Stands` — the same, and blueprints stay as they are;
* `lineage_newBlueprint`, `stands_finish`, … — what becomes of them.
-/
import Rewind.Lifetime
import Rewind.Scheduler
import Rewind.Proofs.Entries
import Mathlib.Logic.Relation

namespace Rewind

/-! ### Scopes -/

/-- Every scope that stands inside another one stays there. -/
def Scopes.Grows (s s' : Scopes) : Prop := ∀ r p, s.parent r = some p → s'.parent r = some p

namespace Scopes.Grows

variable {s s' s'' : Scopes}

theorem refl (s : Scopes) : s.Grows s := fun _ _ h => h

theorem trans (h : s.Grows s') (h' : s'.Grows s'') : s.Grows s'' :=
  fun r p hp => h' r p (h r p hp)

theorem modify (s : Scopes) (r : Ref .scope) {f : Scope → Scope}
    (hf : ∀ scope, (f scope).parent = scope.parent) : s.Grows (Arena.modify s r f) := by
  intro q p hp
  simp only [Scopes.parent, Arena.get, Arena.get?_modify] at hp ⊢
  split
  · cases hq : s.get? q with
    | none =>
      rw [hq] at hp
      contradiction
    | some scope =>
      rw [hq] at hp
      exact (hf scope).trans hp
  · exact hp

theorem push (s : Scopes) (scope : Scope) : s.Grows (Arena.push s scope) := by
  intro r p hp
  obtain hr | hr := Nat.lt_or_ge r.index (Arena.size s)
  · simpa [Scopes.parent, Arena.get, Arena.get?_push_of_lt s scope hr] using hp
  · have none : Arena.get? s r = none := Array.getElem?_eq_none hr
    rw [Scopes.parent, Arena.get, none] at hp
    contradiction

end Scopes.Grows

/-- Scopes stay where they are, and their bindings can be looked up if they could before. -/
structure Scopes.Endures (s s' : Scopes) : Prop where
  grows : s.Grows s'
  indexed : ∀ r, (s.get r).vars.Indexed → (s'.get r).vars.Indexed

namespace Scopes.Endures

variable {s s' s'' : Scopes}

theorem refl (s : Scopes) : s.Endures s := ⟨.refl s, fun _ => id⟩

theorem trans (h : s.Endures s') (h' : s'.Endures s'') : s.Endures s'' :=
  ⟨h.grows.trans h'.grows, fun r => h'.indexed r ∘ h.indexed r⟩

/-- The bindings of one scope change. -/
theorem modify (s : Scopes) (r : Ref .scope) {f : Dict Value → Dict Value}
    (hf : ∀ d, d.Indexed → (f d).Indexed) :
    s.Endures (Arena.modify s r fun scope => { scope with vars := f scope.vars }) := by
  refine ⟨.modify s r fun _ => rfl, fun q here => ?_⟩
  simp only [Arena.get, Arena.get?_modify] at here ⊢
  split
  · cases hq : s.get? q with
    | none => exact Dict.indexed_empty
    | some scope =>
      rw [hq] at here
      exact hf _ here
  · exact here

theorem define (s : Scopes) (r : Ref .scope) (name : String) (v : Value) :
    s.Endures (s.define r name v) := modify s r fun _ hd => hd.set_any name v

theorem clear (s : Scopes) (r : Ref .scope) : s.Endures (s.clear r) :=
  modify s r fun _ _ => Dict.indexed_empty

/-- A scope without bindings is made. -/
theorem push (s : Scopes) (parent : Option (Ref .scope)) (blueprint : Option (Ref .blueprint)) :
    s.Endures (Arena.push s { parent, blueprint }) := by
  refine ⟨.push s _, fun q here => ?_⟩
  obtain hq | hq := Nat.lt_or_ge q.index (Arena.size s)
  · rw [Arena.get, Arena.get?_push_of_lt s _ hq]
    exact here
  · rw [Arena.get]
    cases hg : (Arena.push s { parent, blueprint }).get? q with
    | none => exact Dict.indexed_empty
    | some scope =>
      obtain ⟨hlt, hget⟩ := Array.getElem?_eq_some_iff.1 hg
      have hlast : q.index = s.cells.size := by
        simp only [Arena.push, Array.size_push] at hlt
        simp only [Arena.size] at hq
        omega
      simp only [Arena.push, hlast, Array.getElem_push_eq] at hget
      subst hget
      exact Dict.indexed_empty

theorem foldl {α : Type} {f : Scopes → α → Scopes} (hf : ∀ (s : Scopes) a, s.Endures (f s a))
    (s : Scopes)
    (l : List α) : s.Endures (l.foldl f s) := by
  induction l generalizing s with
  | nil => exact .refl s
  | cons a l ih => exact (hf s a).trans (ih _)

end Scopes.Endures

namespace World

/-- The blueprints are what they were, and scopes stand where they did. -/
structure Stands (w w' : World) : Prop where
  blueprints : w'.blueprints = w.blueprints
  scopes : w.scopes.Endures w'.scopes

namespace Stands

variable {w w' w'' : World}

/-- What neither touches blueprints nor scopes. -/
theorem same (hb : w'.blueprints = w.blueprints) (hs : w'.scopes = w.scopes) : w.Stands w' :=
  ⟨hb, hs ▸ .refl _⟩

theorem refl (w : World) : w.Stands w := .same rfl rfl

theorem trans (h : w.Stands w') (h' : w'.Stands w'') : w.Stands w'' :=
  ⟨h'.blueprints.trans h.blueprints, h.scopes.trans h'.scopes⟩

/-- What stands as in a world that differs in other things. -/
theorem of {v : World} (h : v.Stands w') (hb : v.blueprints = w.blueprints)
    (hs : v.scopes = w.scopes) : w.Stands w' :=
  (same hb hs).trans h

theorem foldl {α : Type} {f : World → α → World} (hf : ∀ (w : World) a, w.Stands (f w a))
    (w : World) (l : List α) : w.Stands (l.foldl f w) := by
  induction l generalizing w with
  | nil => exact .refl w
  | cons a l ih => exact (hf w a).trans (ih _)

theorem clearScope (w : World) (r : Ref .scope) : w.Stands (w.clearScope r) :=
  ⟨rfl, .clear _ _⟩

end Stands

/-! ### Blueprints -/

/-- Every blueprint inherits from an older one, if from any. -/
def Lineage (w : World) : Prop :=
  ∀ r b p, w.blueprints.get? r = some b → b.parent = some p → p.index < r.index

/-- The parent of a blueprint. -/
def Inherits (w : World) (r p : Ref .blueprint) : Prop := (w.blueprints.get r).parent = some p

/-- The blueprint `b` is strictly above `r`. -/
def Above (w : World) (r b : Ref .blueprint) : Prop := Relation.TransGen w.Inherits r b

/-- The member `name` of `r` or of the nearest blueprint above it is `v`, and stands on `b`. -/
inductive Nearest (w : World) (name : String) : Ref .blueprint → Value → Ref .blueprint → Prop
  | here {r : Ref .blueprint} {v : Value} :
      w.scopes.getLocal? (w.blueprints.get r).members name = some v → Nearest w name r v r
  | above {r p b : Ref .blueprint} {v : Value} :
      w.scopes.getLocal? (w.blueprints.get r).members name = none → w.Inherits r p →
        Nearest w name p v b → Nearest w name r v b

variable {w : World} {name : String} {r p b : Ref .blueprint} {v : Value}

/-! ### Going up -/

theorem Inherits.index_lt (h : w.Lineage) (hp : w.Inherits r p) : p.index < r.index := by
  unfold Inherits Arena.get at hp
  cases hb : w.blueprints.get? r with
  | none =>
    rw [hb] at hp
    contradiction
  | some b =>
    rw [hb] at hp
    exact h r b p hb hp

theorem Above.index_lt (h : w.Lineage) (hb : w.Above r b) : b.index < r.index := by
  induction hb with
  | single hp => exact hp.index_lt h
  | tail _ hp ih => exact Nat.lt_trans (hp.index_lt h) ih

/-- What is found is found on the blueprint itself or above it. -/
theorem Nearest.eq_or_above (h : w.Nearest name r v b) : b = r ∨ w.Above r b := by
  induction h with
  | here _ => exact .inl rfl
  | above _ hp _ ih =>
    obtain rfl | ha := ih
    · exact .inr (.single hp)
    · exact .inr (.head hp ha)

/-- What is found from the parent upwards is found strictly above. -/
theorem Nearest.above_of_inherits (h : w.Nearest name p v b) (hp : w.Inherits r p) :
    w.Above r b := by
  obtain rfl | ha := h.eq_or_above
  · exact .single hp
  · exact .head hp ha

/-- Where the blueprints and their members are the same, the same is found. -/
theorem Nearest.of_same {w' : World} (h : w.Nearest name r v b)
    (hb : w'.blueprints = w.blueprints) (hs : w'.scopes = w.scopes) : w'.Nearest name r v b := by
  induction h with
  | here hv => exact .here (by rwa [hb, hs])
  | above hn hp _ ih => exact .above (by rwa [hb, hs]) (by rwa [Inherits, hb]) ih

theorem findMemberWithin_iff (h : w.Lineage) {steps : Nat} (hr : r.index < steps) :
    w.findMemberWithin name steps r = some (v, b) ↔ w.Nearest name r v b := by
  induction steps generalizing r with
  | zero => exact absurd hr (Nat.not_lt_zero _)
  | succ steps ih =>
    unfold findMemberWithin
    dsimp only
    cases hm : w.scopes.getLocal? (w.blueprints.get r).members name with
    | some found =>
      dsimp only
      constructor
      · intro he
        obtain ⟨rfl, rfl⟩ := Prod.mk.inj (Option.some.inj he)
        exact .here hm
      · rintro (hv | ⟨hn, -, -⟩)
        · rw [Option.some.inj (hm.symm.trans hv)]
        · rw [hm] at hn
          contradiction
    | none =>
      dsimp only
      cases hp : (w.blueprints.get r).parent with
      | none =>
        dsimp only
        refine ⟨nofun, ?_⟩
        rintro (hv | ⟨-, hi, -⟩)
        · rw [hm] at hv
          contradiction
        · rw [Inherits, hp] at hi
          contradiction
      | some p =>
        -- parents were made earlier, so as many steps as there are blueprints suffice
        have hlt := Inherits.index_lt h hp
        dsimp only
        rw [ih (by omega)]
        constructor
        · exact .above hm hp
        · rintro (hv | ⟨-, hi, hn⟩)
          · rw [hm] at hv
            contradiction
          · rwa [Option.some.inj (hp.symm.trans hi)]

/-- The search for a member finds the one on the nearest blueprint. -/
theorem Lineage.findMember_iff (h : w.Lineage) :
    w.findMember r name = some (v, b) ↔ w.Nearest name r v b :=
  findMemberWithin_iff h (Nat.lt_succ_self _)

/-! ### What becomes of the blueprints -/

theorem lineage_empty : Lineage {} := fun r b p hb => by
  simp [Arena.get?] at hb

theorem Lineage.of_same {w' : World} (h : w.Lineage) (hb : w'.blueprints = w.blueprints) :
    w'.Lineage := by
  unfold Lineage
  rwa [hb]

theorem lineage_newBlueprint (h : w.Lineage) (parent : Option (Ref .blueprint))
    (outer : Ref .scope) : (w.newBlueprint name parent outer).2.Lineage := by
  intro r b p hb hp
  obtain hr | hr := Nat.lt_or_ge r.index w.blueprints.size
  · exact h r b p ((Arena.get?_push_of_lt _ _ hr).symm.trans hb) hp
  · have hnext : r = w.blueprints.next := by
      have hlt := (Array.getElem?_eq_some_iff.1 hb).1
      have hs : (w.newBlueprint name parent outer).2.blueprints.cells.size =
          w.blueprints.cells.size + 1 := Array.size_push _
      obtain ⟨i⟩ := r
      simp only [Arena.size] at hr
      exact congrArg Ref.mk (by dsimp only at *; omega)
    subst hnext
    obtain rfl := Option.some.inj ((Arena.get?_push_next _ _).symm.trans hb)
    simpa using (Option.filter_eq_some_iff.1 hp).2

theorem stands_releaseLinks (w : World) (r : Ref .coroutine) : w.Stands (w.releaseLinks r) := by
  unfold releaseLinks
  dsimp only
  split
  · exact .of (.clearScope _ _) rfl rfl
  · exact .same rfl rfl

theorem stands_wake (w : World) (r : Ref .coroutine) (outcome : Outcome) :
    w.Stands (w.wake r outcome) := by
  unfold wake
  split <;> exact .same rfl rfl

theorem stands_settle (w : World) (r : Ref .coroutine) (outcome : Outcome) :
    w.Stands (w.settle r outcome) := by
  have wakes (w : World) (r : Ref .coroutine) : w.Stands (wakeWithCopy outcome w r) :=
    .of (stands_wake _ _ _) rfl rfl
  have complete : w.Stands (w.complete r outcome) := .of (stands_releaseLinks _ _) rfl rfl
  exact complete.trans (.foldl wakes _ _)

theorem stands_finishWithin (depth : Nat) (w : World) (r : Ref .coroutine)
    (outcome : Outcome) : w.Stands (w.finishWithin depth r outcome) := by
  induction depth generalizing w r outcome with
  | zero => exact .refl w
  | succ depth ih =>
    unfold finishWithin
    dsimp only
    split
    · exact .refl w
    · refine (stands_settle _ _ _).trans (.foldl (fun w x => ?_) _ _)
      split
      · exact .of (ih _ _ _) rfl rfl
      · exact .same rfl rfl

theorem stands_finish (w : World) (r : Ref .coroutine) (outcome : Outcome) :
    w.Stands (w.finish r outcome) := stands_finishWithin _ _ _ _

theorem stands_startWithin (depth : Nat) (w : World) (r : Ref .coroutine) :
    w.Stands (w.startWithin depth r) := by
  induction depth generalizing w r with
  | zero => exact .refl w
  | succ depth ih =>
    have enlisted (w : World) (x : Ref .coroutine × Nat) :
        w.Stands (enlist (startWithin depth) r w x.1 x.2) := by
      unfold enlist
      dsimp only
      split
      · exact .same rfl rfl
      · exact .of (ih _ _) rfl rfl
    -- the children of a group are started one after another, each within one step less
    have children (w : World) (g : GatherState) :
        w.Stands (finishIfComplete (g.children.zipIdx.foldl (fun w x =>
          enlist (startWithin depth) r w x.1 x.2) w) r) := by
      refine Stands.trans (.foldl enlisted w g.children.zipIdx) ?_
      unfold finishIfComplete
      split
      · exact .of (stands_finish _ _ _) rfl rfl
      · exact .refl _
    unfold startWithin
    dsimp only
    split
    · exact .refl w
    · split
      · exact .same rfl rfl
      · exact .same rfl rfl
      · exact .of (children _ _) rfl rfl

theorem stands_start (w : World) (r : Ref .coroutine) : w.Stands (w.start r) :=
  stands_startWithin _ _ _

theorem stands_pollSleepers (w : World) : w.Stands w.pollSleepers :=
  .of (.foldl (fun _ _ => stands_finish _ _ _) _ _) rfl rfl

theorem stands_flagWithin (depth : Nat) (w : World) (r : Ref .coroutine) :
    w.Stands (w.flagWithin depth r).2 := by
  induction depth generalizing w r with
  | zero => exact .refl w
  | succ depth ih =>
    unfold flagWithin
    dsimp only
    split
    · exact .refl w
    · have flagged (x : List (Ref .coroutine) × World) (l : List (Ref .coroutine)) :
          x.2.Stands (l.foldl (fun x child =>
            (x.1 ++ (flagWithin depth x.2 child).1, (flagWithin depth x.2 child).2)) x).2 := by
        induction l generalizing x with
        | nil => exact .refl _
        | cons child l ihl =>
          exact (ih x.2 child).trans
            (ihl (x.1 ++ (flagWithin depth x.2 child).1, (flagWithin depth x.2 child).2))
      exact .of (flagged _ _) rfl rfl

theorem stands_flagCancelled (w : World) (r : Ref .coroutine) :
    w.Stands (w.flagCancelled r).2 := stands_flagWithin _ _ _

theorem stands_deliverCancellation (w : World) (r : Ref .coroutine) :
    w.Stands (w.deliverCancellation r) := by
  unfold deliverCancellation
  split
  · refine Stands.trans ?_ (stands_wake _ _ _)
    unfold forgo
    split <;> exact .same rfl rfl
  · exact .of (stands_finish _ _ _) rfl rfl
  · exact .refl w

theorem stands_cancel (w : World) (r : Ref .coroutine) : w.Stands (w.cancel r).2 :=
  (stands_flagCancelled w r).trans (.foldl stands_deliverCancellation _ _)

theorem stands_teardown (w : World) : w.Stands w.teardown :=
  Stands.trans (.foldl stands_releaseLinks w _) (.same rfl rfl)

theorem stands_dissolve (w : World) (roots : List Cell) : w.Stands (w.dissolve roots) :=
  ⟨rfl, .foldl (fun _ _ => .clear _ _) _ _⟩

end World

end Rewind
