/-
Worlds in good order.

A world is in good order with a hand if it holds what the hand says and the books of its event loop
agree.  The outcomes that the books speak of are in the world's own keeping, where no program can come
upon their containers.  So the books go on agreeing while programs change containers of their own, and
what they say is about the heap as it is, at any time.

* `Stays.mirrors` — what is out of sight holds the same as before;
* `Accounts.onStays` — the books agree when containers change that can be come upon;
* `World.Meets` — coroutines stand as a hand may say;
* `World.Safe` — a world in good order with a hand;
* `Safe.define`, `Safe.onHeap`, `Safe.finish`, `Safe.start`, … — it stays so.
-/
import Rewind.Proofs.Custody

namespace Rewind

open Coroutine World

/-! ### Out of sight -/

namespace Heap

variable {h₀ h : Heap} {hidden : Multiset Value} {v v' : Value}

/-- A container that is out of sight has the same in it as before, and that is out of sight too. -/
theorem Stays.contents (hs : h₀.Stays h hidden) (sound : h.Sound) {x : Contents}
    (hv : h.tree v ≤ h.forest hidden) (hx : h₀.contents? v = some x) :
    h.contents? v = some x ∧ ∀ item ∈ x.items, h.tree item ≤ h.forest hidden := by
  have box : v.box? ≠ none := by
    cases v <;> simp_all [contents?, Value.box?]
  obtain ⟨c, hc⟩ := Option.ne_none_iff_exists'.1 box
  have same := hs.same v x c hx hc (Multiset.mem_of_le hv (mem_tree_of_box? sound hc))
  refine ⟨same, fun item hi => (tree_le_of_mem_inside sound ?_).trans hv⟩
  rw [inside, same]
  exact hi

/-- Two values that are out of sight and held the same still do. -/
theorem Stays.mirrors (hs : h₀.Stays h hidden) (sound : h.Sound) (hv : h.tree v ≤ h.forest hidden)
    (hv' : h.tree v' ≤ h.forest hidden) (hm : h₀.Mirrors v v') : h.Mirrors v v' := by
  obtain ⟨depth, hm⟩ := hm
  refine ⟨depth, ?_⟩
  induction depth generalizing v v' with
  | zero => exact hm
  | succ depth ih =>
    obtain rfl | ⟨kind, keys, items, items', hc, hc', hi⟩ := hm
    · exact .inl rfl
    · obtain ⟨same, inner⟩ := hs.contents sound hv hc
      obtain ⟨same', inner'⟩ := hs.contents sound hv' hc'
      refine .inr ⟨kind, keys, items, items', same, same', ?_⟩
      clear hc hc' same same'
      induction hi with
      | nil => exact .nil
      | cons hx _ ihl =>
        refine .cons (ih (inner _ List.mem_cons_self) (inner' _ List.mem_cons_self) hx) ?_
        exact ihl (fun x hx => inner x (List.mem_cons_of_mem _ hx))
          fun x hx => inner' x (List.mem_cons_of_mem _ hx)

theorem Stays.mirrorsOutcome (hs : h₀.Stays h hidden) (sound : h.Sound) {o o' : Outcome}
    (ho : h.tree o.carried ≤ h.forest hidden) (ho' : h.tree o'.carried ≤ h.forest hidden)
    (hm : h₀.MirrorsOutcome o o') : h.MirrorsOutcome o o' := by
  cases o with
  | ok v =>
    cases o' with
    | ok v' => exact hs.mirrors sound ho ho' hm
    | error e' => exact hm
  | error e =>
    cases o' with
    | ok v' => exact hm
    | error e' => exact ⟨hm.1, hm.2.1, hs.mirrors sound ho ho' hm.2.2⟩

end Heap

/-- The total of the slots is still what the gather task came to, if all of it is out of sight. -/
theorem GatherState.Totals.stays {g : GatherState} {h₀ h : Heap} {hidden : Multiset Value}
    {outcome : Outcome} (ht : g.Totals h₀ outcome) (hs : h₀.Stays h hidden) (sound : h.Sound)
    (hslots : ∀ o, some o ∈ g.slots → h.tree o.carried ≤ h.forest hidden)
    (ho : h.tree outcome.carried ≤ h.forest hidden) : g.Totals h outcome := by
  have collected := @World.Holds.mem_of_collect g.returnExceptions g.slots
  unfold Totals at ht ⊢
  cases hc : collect g.returnExceptions g.slots with
  | ok values =>
    rw [hc] at ht collected
    obtain ⟨v, items, rfl, hi, hm⟩ := ht
    obtain ⟨same, inner⟩ := hs.contents sound ho hi
    refine ⟨v, items, rfl, same, ?_⟩
    -- each value of the total is that of a slot, or null
    have outer : ∀ x ∈ values, h.tree x ≤ h.forest hidden := by
      intro x hx
      obtain rfl | ⟨o, hmem, rfl⟩ := collected x hx
      · rw [Heap.tree_of_box? rfl]
        exact Multiset.zero_le _
      · exact hslots o hmem
    clear hc hi same collected ho
    induction hm with
    | nil => exact .nil
    | cons hx _ ih =>
      refine .cons (hs.mirrors sound (outer _ List.mem_cons_self) (inner _ List.mem_cons_self) hx) ?_
      exact ih (fun x hx => inner x (List.mem_cons_of_mem _ hx))
        fun x hx => outer x (List.mem_cons_of_mem _ hx)
  | error e =>
    rw [hc] at ht collected
    obtain ⟨e', rfl, hl, hcol, hm⟩ := ht
    obtain ⟨o, hmem, he⟩ := collected
    exact ⟨e', rfl, hl, hcol, hs.mirrors sound (he ▸ hslots o hmem) ho hm⟩

namespace World

/-- No heap there was before is of interest. -/
def Never : Heap → Prop := fun _ => False

variable {w w' : World} {H K : Hand} {u v : Value} {r : Ref .coroutine}

/-- The books agree when containers change that can be come upon. -/
theorem Accounts.onStays {heap : Heap} {hidden : Multiset Value} {f : Focus} {dues : List Due}
    (h : w.Accounts Never f dues) (hs : w.heap.Stays heap hidden) (sound : heap.Sound)
    (hstock : ∀ v, .owned v ∈ w.stock → v ∈ hidden) :
    World.Accounts Never f dues { w with heap } := by
  have now {g : Heap} (hg : w.Moments Never g) : g = w.heap := hg.resolve_left id
  have stored {v : Value} (hv : .owned v ∈ w.stock) : heap.tree v ≤ heap.forest hidden :=
    Heap.tree_le_forest (hstock v hv)
  have outcome (r : Ref .coroutine) :
      heap.tree (Outcome.carried (w.coroutines.get r).outcome) ≤ heap.forest hidden := by
    obtain hn | ho := w.owned_outcome r
    · rw [hn, Heap.tree_of_box? rfl]
      exact Multiset.zero_le _
    · exact stored ho
  refine { h with
    filled := fun {r child g i o} hk hc ho => ?_
    total := fun {r g} hk hd hn => ?_ }
  · obtain ⟨hd, g', hg', hm⟩ := h.filled hk hc ho
    obtain rfl := now hg'
    refine ⟨hd, heap, .inr rfl, hs.mirrorsOutcome sound (outcome child) ?_ hm⟩
    exact stored (owned_slot hk (List.mem_of_getElem? ho))
  · obtain ⟨g', hg', ht⟩ := h.total hk hd hn
    obtain rfl := now hg'
    exact ⟨heap, .inr rfl, ht.stays hs sound (fun o ho => stored (owned_slot hk ho)) (outcome r)⟩

/-! ### Worlds -/

/-- The coroutines of a world stand as is said. -/
def Meets (w : World) : Standing → Prop
  | .there r => w.Has r
  | .joined r => (w.coroutines.get r).stage ≠ .new

/-- Coroutines that stand in some way go on doing so. -/
def Lasts (w w' : World) : Prop := ∀ s, w.Meets s → w'.Meets s

theorem Lasts.of_same (hc : w'.coroutines = w.coroutines) : w.Lasts w' := by
  intro s hs
  cases s <;> simp only [Meets, Has, hc] at hs ⊢ <;> exact hs

theorem Evolves.lasts (he : Evolves w w') : w.Lasts w' := by
  intro s hs
  cases s with
  | there r => exact Has.evolves hs he
  | joined r => exact he.not_new hs

theorem Lasts.trans {w'' : World} (h : w.Lasts w') (h' : w'.Lasts w'') : w.Lasts w'' :=
  fun s hs => h' s (h s hs)

theorem lasts_modify {f : Coroutine → Coroutine} (hf : ∀ c, c.stage ≠ .new → (f c).stage ≠ .new) :
    w.Lasts (w.modifyCoroutine r f) := by
  intro s hs
  cases s with
  | there s =>
    have hs : w.Has s := hs
    rw [has_iff] at hs
    exact has_iff.2 (hs.trans_eq (Arena.size_modify _ _ _).symm)
  | joined s =>
    obtain he | ⟨rfl, -, he⟩ := get_modified w r f s
    · rw [Meets, he]
      exact hs
    · rw [Meets, he]
      exact hf _ hs

/-- A world in good order with what is in somebody's hand. -/
structure Safe (w : World) (H : Hand) : Prop where
  holds : w.Holds w.Meets H
  books : w.Accounts Never .nobody []

namespace Safe

/-- The world becomes another one that holds a hand, with books that agree. -/
theorem passes (h : w.Safe H) (hl : w.Lasts w') (hw : w.Holds w.Meets H → w'.Holds w.Meets K)
    (hb : w'.Accounts Never .nobody []) : w'.Safe K :=
  have holds := hw h.holds
  ⟨⟨holds.grants.of_facts fun s _ hs => hl s hs, holds.methodical⟩, hb⟩

/-- No coroutine takes part, and there may be new containers. -/
theorem of_holds (h : w.Safe H) (hw : w'.Holds w.Meets K) (he : w.heap.Extends w'.heap)
    (hc : w'.coroutines = w.coroutines) (hl : w'.loop.sleepers = w.loop.sleepers) : w'.Safe K :=
  h.passes (.of_same hc) (fun _ => hw) (h.books.congr he hc fun _ => hl ▸ id)

variable (h : w.Safe H)

include h

theorem of_gives (hg : H.Gives K) : w.Safe K := ⟨h.holds.of_gives hg, h.books⟩

theorem mono (hle : K ≤ H) : w.Safe K := h.of_gives (.of_le hle)

omit h in
theorem left (h : w.Safe (H + K)) : w.Safe H := h.mono (Multiset.le_add_right _ _)

theorem sound : w.heap.Sound := h.holds.sound

theorem knows (hv : .owned v ∈ H ∨ .seen v ∈ H ∨ .known v ∈ H ∨ .flat v ∈ H) : w.heap.Knows v :=
  h.holds.knows hv

omit h in
/-- What was learnt last is known. -/
theorem known (h : w.Safe (H + {.known v})) : w.heap.Knows v := h.holds.known

theorem learn (hv : w.heap.Knows v) : w.Safe (H + {.known v}) := ⟨h.holds.learn hv, h.books⟩

theorem add_flat (hv : v.box? = none) : w.Safe (H + {.owned v}) := h.of_gives (.flat hv)

/-- What is stored where programs look may be come upon. -/
theorem look (hv : v ∈ w.opened) : w.Safe (H + {.seen v}) := ⟨h.holds.look hv, h.books⟩

/-- It is noted how a coroutine stands. -/
theorem note {s : Standing} (hs : w.Meets s) : w.Safe (H + {.stands s}) :=
  ⟨⟨by rw [← add_assoc]; exact h.holds.grants.add rfl hs, h.holds.methodical⟩, h.books⟩

omit h in
theorem stands (h : w.Safe H) {s : Standing} (hs : .stands s ∈ H) : w.Meets s :=
  h.holds.grants.good (.stands s) (Multiset.mem_add.2 (.inr hs))

theorem of_same (hh : w'.heap = w.heap) (ho : w'.opened = w.opened) (hs : w'.stock = w.stock)
    (hm : w'.methods = w.methods) (hf : w'.functions = w.functions)
    (hc : w'.coroutines = w.coroutines) (hl : w'.loop.sleepers = w.loop.sleepers) : w'.Safe H :=
  h.of_holds (h.holds.of_same hh ho hs hm hf) (hh ▸ .refl _) hc hl

/-- The containers change that can be come upon. -/
theorem onHeap {heap : Heap}
    (hg : ∀ R, w.heap.Grants w.Meets w.opened (R + H) → heap.Grants w.Meets w.opened (R + K)) :
    { w with heap }.Safe K := by
  refine ⟨h.holds.onHeap hg, ?_⟩
  -- a look at the containers as they are tells that those of the stock do not change
  have captured := hg (w.stock + {.snapshot w.heap}) (by
    rw [add_right_comm]
    exact h.holds.grants.capture)
  have stays := captured.good (.snapshot w.heap) (by simp)
  refine h.books.onStays stays captured.sound fun v hv => ?_
  simp only [Hand.own_add]
  refine Multiset.mem_add.2 (.inl (Multiset.mem_add.2 (.inl (Multiset.mem_bind.2 ⟨_, hv, ?_⟩))))
  exact Multiset.mem_singleton_self v

theorem duplicate (hv : w.heap.Knows v) :
    (w.onHeap (Heap.duplicate v)).2.Safe (H + {.owned (w.onHeap (Heap.duplicate v)).1}) :=
  h.of_holds (h.holds.duplicate hv) (Heap.extends_duplicate v w.heap) rfl rfl

theorem copyOutcome {outcome : Outcome} (ho : w.heap.Knows (Outcome.carried outcome)) :
    (w.copyOutcome outcome).2.Safe (H + (w.copyOutcome outcome).1.hand) :=
  h.of_holds (h.holds.copyOutcome ho) (Heap.extends_duplicateOutcome outcome w.heap) rfl rfl

omit h in
theorem define (h : w.Safe (H + {.owned v})) (s : Ref .scope) (name : String) :
    (w.onScopes (·.define s name v)).Safe H := h.of_holds (h.holds.define s name) (.refl _) rfl rfl

omit h in
theorem setAttribute (h : w.Safe (H + {.owned v})) (o : Ref .object) (name : String) :
    { w with objects := w.objects.modify o fun o => { o with attrs := o.attrs.set name v } }.Safe H :=
  h.of_holds (h.holds.setAttribute o name) (.refl _) rfl rfl

theorem onScopes {f : Scopes → Scopes}
    (hf : (f w.scopes).total (fun s => (↑s.vars.values : Multiset Value)) ≤
      w.scopes.total fun s => ↑s.vars.values) : (w.onScopes f).Safe H :=
  h.of_holds (h.holds.onScopes hf) (.refl _) rfl rfl

theorem clear (r : Ref .scope) : (w.onScopes (·.clear r)).Safe H := h.onScopes (Holds.total_clear _ r)

theorem clearScope (r : Ref .scope) : (w.clearScope r).Safe H := h.clear r

theorem pushScope (parent : Option (Ref .scope)) (b : Option (Ref .blueprint)) :
    { w with scopes := w.scopes.push { parent, blueprint := b } }.Safe H :=
  h.of_holds (h.holds.pushScope parent b) (.refl _) rfl rfl

theorem dissolve (roots : List Cell) : (w.dissolve roots).Safe H :=
  h.of_holds (h.holds.dissolve roots) (.refl _) rfl rfl

omit h in
theorem pushFunction {f : Function} (h : w.Safe (H + f.hand)) :
    { w with functions := w.functions.push f }.Safe H := h.of_holds h.holds.pushFunction (.refl _) rfl rfl

omit h in
theorem pushMethod {m : Method} (h : w.Safe (H + {.seen m.receiver}))
    (hm : m.receiver.box? = none ∨
      ∃ f native, w.functions.get? m.function = some f ∧ f.body = .native native) :
    { w with methods := w.methods.push m }.Safe H := h.of_holds (h.holds.pushMethod hm) (.refl _) rfl rfl

theorem pushObject (serial : Nat) (b : Ref .blueprint) :
    { w with objects := w.objects.push { serial, blueprint := b } }.Safe H :=
  h.of_holds (h.holds.pushObject serial b) (.refl _) rfl rfl

theorem newBlueprint (name : String) (parent : Option (Ref .blueprint)) (outer : Ref .scope) :
    (w.newBlueprint name parent outer).2.Safe H :=
  h.of_holds (h.holds.newBlueprint name parent outer) (.refl _) rfl rfl

/-! ### Coroutines -/

/-- A coroutine is made. -/
theorem pushCoroutine {serial : Nat} {name : String} {kind : CoroutineKind}
    {scope : Option (Ref .scope)} (hk : w.Admits kind) (hh : kind.hand = 0) :
    { w with coroutines := w.coroutines.push { serial, name, kind, scope } }.Safe H := by
  refine h.passes ?_ (fun hw => (Holds.pushCoroutine ?_)) (h.books.push serial name scope hk)
  · intro s hs
    cases s with
    | there r => exact has_push hs _
    | joined r =>
      have hs : (w.coroutines.get r).stage ≠ .new := hs
      rw [← get_push (get?_of_stage hs) { serial, name, kind, scope }] at hs
      exact hs
  · have hand : ({ serial, name, kind, scope } : Coroutine).hand = {.owned .null} := by
      simp [Coroutine.hand, hh]
    rw [hand]
    exact hw.add_flat rfl

theorem knows_outcome (r : Ref .coroutine) :
    w.heap.Knows (Outcome.carried (w.coroutines.get r).outcome) := h.holds.knows_outcome r

theorem knows_of_stock {K : Hand} (hK : K ≤ w.stock) (hv : .owned v ∈ K) : w.heap.Knows v :=
  h.holds.knows_of_stock hK hv

theorem withLoop (loop : EventLoop) (hl : ∀ x ∈ loop.sleepers, x ∈ w.loop.sleepers) :
    { w with loop }.Safe H :=
  h.passes (.of_same rfl) (·.withLoop loop) (h.books.loop loop hl)

theorem openLoop : w.openLoop.Safe H :=
  h.passes (.of_same rfl) (·.withLoop _) h.books.openLoop

theorem start (hr : w.Has r) : (w.start r).Safe H :=
  h.passes (events_start (a := none) w r (active_none w)).evolves.lasts (·.start r) (h.books.start hr)

theorem finish {outcome : Outcome} (ho : w.heap.Knows (Outcome.carried outcome)) (hr : w.Has r)
    (hk : ∀ g, (w.coroutines.get r).kind ≠ .gather g) : (w.finish r outcome).Safe H :=
  h.passes (events_finish (a := none) w r outcome (active_none w) (by simp)).evolves.lasts
    (·.finish ho) (h.books.finish outcome hr hk)

theorem pollSleepers : w.pollSleepers.Safe H :=
  h.passes (events_pollSleepers w).evolves.lasts (·.pollSleepers) h.books.pollSleepers

theorem flagCancelled (r : Ref .coroutine) : (w.flagCancelled r).2.Safe H :=
  h.passes (events_flagCancelled (a := none) w r).evolves.lasts (·.flagCancelled r)
    (h.books.flagCancelled r)

theorem cancel (r : Ref .coroutine) : (w.cancel r).2.Safe H :=
  h.passes (events_cancel (a := none) w r (active_none w)).evolves.lasts (·.cancel r) (h.books.cancel r)

theorem teardown : w.teardown.Safe H :=
  h.passes (evolves_teardown w).lasts (·.teardown) h.books.teardown

/-- A coroutine in a turn begins to wait. -/
theorem suspendOn {target : Ref .coroutine} (hr : w.Acts r) (hne : r ≠ target)
    (hd : (w.coroutines.get target).isDone = false) (hn : (w.coroutines.get target).stage ≠ .new) :
    (w.suspendOn r target).Safe H :=
  h.passes ((lasts_modify fun _ _ => by simp).trans (lasts_modify fun _ => id)) (·.suspendOn r target)
    (h.books.suspendOn hr hne hd hn)

/-- A coroutine notices that it is cancelled. -/
theorem notice (r : Ref .coroutine) :
    (w.modifyCoroutine r fun c => { c with cancelDelivered := true }).Safe H :=
  h.passes (lasts_modify fun _ => id) (·.relink fun _ => by rfl) (h.books.notice r)

/-- A coroutine takes its turn, and what it goes on with is taken from it. -/
theorem resume {f : Ref .function} {owner : Option (Ref .blueprint)}
    (hk : (w.coroutines.get r).kind = .script f owner) (hd : (w.coroutines.get r).isDone = false)
    (hK : K = framesHand (w.coroutines.get r).frames + (w.coroutines.get r).tape.hand) :
    (w.modifyCoroutine r fun c =>
      { c with stage := .running, scope := none, frames := [], tape := {} }).Safe (H + K) := by
  have hg : w.Has r := get?_of_get_ne fun he => by
    rw [he] at hk
    contradiction
  refine h.passes (lasts_modify fun _ _ => by simp) (fun hw => hw.takeFrom hg ?_)
    (h.books.resume hk hd)
  rw [hK]
  simp only [Coroutine.hand, framesHand_nil, hand_empty]
  exact le_of_eq (by abel)

omit h in
/-- A coroutine ends its turn and keeps what it goes on with. -/
theorem keepTurn {t : Thread} (h : w.Safe (H + (t.tape.hand + framesHand t.parked))) (hr : w.Acts r) :
    (Eval.keepTurn r t w).Safe H := by
  have first : w.Lasts (w.modifyCoroutine r fun c =>
      { c with scope := some t.scope, frames := t.parked, tape := t.tape }) := lasts_modify fun _ => id
  have books := h.books.keepTurn hr t
  unfold Eval.keepTurn at books ⊢
  dsimp only at books ⊢
  have kept (hw : w.Holds w.Meets (H + (t.tape.hand + framesHand t.parked))) :
      (w.modifyCoroutine r fun c =>
        { c with scope := some t.scope, frames := t.parked, tape := t.tape }).Holds w.Meets H := by
    refine hw.modifyCoroutine fun c _ => ?_
    refine (Multiset.le_add_right _ (framesHand c.frames + c.tape.hand)).trans_eq ?_
    simp only [Coroutine.hand]
    abel
  split at books
  · rename_i hs
    rw [if_pos hs]
    exact h.passes (first.trans (lasts_modify fun _ _ => by simp)) (fun hw => ((kept hw).relink fun _ => by rfl).enqueue r)
      books
  · rename_i hs
    rw [if_neg hs]
    exact h.passes first kept books

end Safe
end World
end Rewind
