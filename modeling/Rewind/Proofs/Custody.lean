/-
What a world has in its keeping.

Variables and attributes are where programs look.  Everything else that is stored — defaults of
parameters, outcomes of coroutines and of what they wait for, tapes, and what parked constructs go on
with — belongs to the world like a value in somebody's hand.  So a world holds what a hand says if
its own stock and that hand together are granted, and what a transition of the world does is to pass
something from the one to the other.

* `Function.hand`, `Coroutine.hand`, … — what a record has in its keeping;
* `World.opened`, `World.stock` — where programs look, and the stock of a world;
* `World.Holds` — a world with a hand;
* `Holds.define`, `Holds.modifyCoroutine`, `Holds.duplicate`, … — storing, taking out and copying;
* `Holds.finish`, `Holds.start`, `Holds.cancel`, … — the transitions of the event loop.
-/
import Rewind.Proofs.Audit
import Rewind.Proofs.Grip

namespace Rewind

/-! ### Records -/

/-- The outcome and the value it carries. -/
def Outcome.hand (o : Outcome) : Hand := {.owned (Outcome.carried o)}

/-- The defaults of some parameters. -/
def paramsHand (params : List Param) : Hand := .ofValues ↑(params.filterMap (·.default))

/-- The defaults of its parameters. -/
def Function.hand (f : Function) : Hand :=
  match f.body with
  | .script s => paramsHand s.params
  | .native _ => 0

/-- The value a method was looked up on: an array that it may add items to. -/
def Method.hand (m : Method) : Hand := {.seen m.receiver}

/-- The outcomes of a tape. -/
def Tape.hand (t : Tape) : Hand := .ofValues ↑(t.entries.toList.map Outcome.carried)

/-- The values a signal carries. -/
def Signal.hand (s : Signal) : Hand := .ofValues ↑s.carried

/-- What a parked construct goes on with: the number of the round, the items that are left, or the
signal that waits for the end of `finally`. -/
def FrameKind.hand : FrameKind → Hand
  | rangeLoop l => {.flat l.current}
  | eachLoop l => Multiset.map .known ↑l.items.toList
  | attempt (.cleanup pending) => .ofValues ↑(pending.toList.flatMap Signal.carried)
  | _ => 0

/-- What parked constructs go on with. -/
def framesHand (frames : List Frame) : Hand := (↑frames : Multiset Frame).bind (·.kind.hand)

/-- The outcomes in the slots of a gather task. -/
def CoroutineKind.hand : CoroutineKind → Hand
  | gather g => (↑g.slots : Multiset (Option Outcome)).bind (·.elim 0 Outcome.hand)
  | _ => 0

/-- What a coroutine has: how it came out, what its children have reported, and what it goes on with. -/
def Coroutine.hand (c : Coroutine) : Hand :=
  {.owned c.result} + .ofValues ↑(c.exception.map (·.value)).toList + c.kind.hand +
    framesHand c.frames + c.tape.hand

@[simp] theorem framesHand_nil : framesHand [] = 0 := rfl

@[simp] theorem framesHand_cons (frame : Frame) (frames : List Frame) :
    framesHand (frame :: frames) = frame.kind.hand + framesHand frames := by
  rw [framesHand, ← Multiset.cons_coe, Multiset.cons_bind]
  rfl

@[simp] theorem hand_reset : Tape.reset.hand = 0 := rfl

@[simp] theorem hand_empty : ({} : Tape).hand = 0 := rfl

theorem hand_push (t : Tape) (outcome : Outcome) (position : Nat) :
    (⟨t.entries.push outcome, position⟩ : Tape).hand = t.hand + outcome.hand := by
  simp only [Tape.hand, Array.toList_push, List.map_append, ← Multiset.coe_add, Hand.ofValues_add]
  rfl

namespace World

/-! ### Worlds -/

/-- What is stored where programs look: in variables, among them the members of blueprints, and in
attributes of objects. -/
def opened (w : World) : Multiset Value :=
  w.scopes.total (fun s => ↑s.vars.values) + w.objects.total fun o => ↑o.attrs.values

/-- What else a world has in its keeping. -/
def stock (w : World) : Hand :=
  w.functions.total Function.hand + w.methods.total Method.hand + w.coroutines.total Coroutine.hand

/-- Methods of containers are built in. -/
def Methodical (w : World) : Prop :=
  ∀ m ∈ w.methods.cells.toList, m.receiver.box? = none ∨
    ∃ f native, w.functions.get? m.function = some f ∧ f.body = .native native

/-- A world with what is in somebody's hand: no container is stored twice, nor in anybody's hand if it
is stored. -/
structure Holds (w : World) (facts : Standing → Prop) (H : Hand) : Prop where
  grants : w.heap.Grants facts w.opened (w.stock + H)
  methodical : w.Methodical

variable {w w' : World} {facts facts' : Standing → Prop} {H K F : Hand} {u v : Value} {r : Ref .coroutine}

/-- What a coroutine has is in the stock. -/
theorem hand_le_stock {c : Coroutine} (hc : w.coroutines.get? r = some c) : c.hand ≤ w.stock :=
  (Arena.le_total _ hc).trans (Multiset.le_add_left _ _)

/-- What a coroutine came to, or will in place of it, is in the stock. -/
theorem owned_outcome (w : World) (r : Ref .coroutine) :
    Outcome.carried (w.coroutines.get r).outcome = .null ∨
      .owned (Outcome.carried (w.coroutines.get r).outcome) ∈ w.stock := by
  cases hc : w.coroutines.get? r with
  | none =>
    left
    rw [Arena.get, hc]
    rfl
  | some c =>
    refine .inr (Multiset.mem_of_le (hand_le_stock hc) ?_)
    rw [Arena.get, hc]
    simp only [Option.getD_some, Coroutine.outcome, Coroutine.hand, Multiset.mem_add]
    cases c.exception with
    | none => simp [Outcome.carried]
    | some e => simp [Outcome.carried, Hand.ofValues]

/-- What a child has reported is in the stock. -/
theorem owned_slot {g : GatherState} (hk : (w.coroutines.get r).kind = .gather g) {o : Outcome}
    (ho : some o ∈ g.slots) : .owned (Outcome.carried o) ∈ w.stock := by
  refine Multiset.mem_of_le (hand_le_stock (has_of_gather hk)) ?_
  simp only [Coroutine.hand, hk, CoroutineKind.hand, Multiset.mem_add]
  exact .inl (.inl (.inr (Multiset.mem_bind.2 ⟨_, Multiset.mem_coe.2 ho, by simp [Outcome.hand]⟩)))

namespace Holds

theorem of_gives (h : w.Holds facts H) (hg : H.Gives K) : w.Holds facts K := ⟨hg _ _ _ _ h.grants, h.methodical⟩

theorem mono (h : w.Holds facts H) (hle : K ≤ H) : w.Holds facts K := h.of_gives (.of_le hle)

theorem left (h : w.Holds facts (H + K)) : w.Holds facts H := h.mono (Multiset.le_add_right _ _)

theorem sound (h : w.Holds facts H) : w.heap.Sound := h.grants.sound

theorem knows (h : w.Holds facts H) (hv : .owned v ∈ H ∨ .seen v ∈ H ∨ .known v ∈ H ∨ .flat v ∈ H) :
    w.heap.Knows v := h.grants.knows (by
  simpa only [Multiset.mem_add] using hv.imp .inr (.imp .inr (.imp .inr .inr)))

/-- What was learnt last is known. -/
theorem known (h : w.Holds facts (H + {.known v})) : w.heap.Knows v := h.knows (by simp)

theorem learn (h : w.Holds facts H) (hv : w.heap.Knows v) : w.Holds facts (H + {.known v}) :=
  ⟨by rw [← add_assoc]; exact h.grants.learn hv, h.methodical⟩

theorem add_flat (h : w.Holds facts H) (hv : v.box? = none) : w.Holds facts (H + {.owned v}) :=
  h.of_gives (.flat hv)

/-- What is stored where programs look may be come upon. -/
theorem look (h : w.Holds facts H) (hv : v ∈ w.opened) : w.Holds facts (H + {.seen v}) :=
  ⟨by rw [← add_assoc]; exact h.grants.look hv, h.methodical⟩

/-- Something passes from the hand into the stock, or out of it. -/
theorem change (h : w.Holds facts H) (hh : w'.heap = w.heap) (ho : w'.opened ≤ w.opened)
    (hs : w'.stock + K ≤ w.stock + H) (hm : w'.Methodical) : w'.Holds facts K :=
  ⟨hh ▸ h.grants.mono ho hs, hm⟩

/-- The stock is the same. -/
theorem of_same (h : w.Holds facts H) (hh : w'.heap = w.heap) (ho : w'.opened = w.opened)
    (hs : w'.stock = w.stock) (hm : w'.methods = w.methods) (hf : w'.functions = w.functions) :
    w'.Holds facts H :=
  h.change hh ho.le (hs ▸ le_rfl) fun m hin => by
    rw [hf]
    exact h.methodical m (hm ▸ hin)

/-- The containers change. -/
theorem onHeap {heap : Heap} (h : w.Holds facts H)
    (hg : ∀ R, w.heap.Grants facts w.opened (R + H) → heap.Grants facts w.opened (R + K)) :
    { w with heap }.Holds facts K := ⟨hg _ h.grants, h.methodical⟩

theorem duplicate (h : w.Holds facts H) (hv : w.heap.Knows v) :
    (w.onHeap (Heap.duplicate v)).2.Holds facts (H + {.owned (w.onHeap (Heap.duplicate v)).1}) :=
  h.onHeap fun R hg => by
    have grown := hg.grow (Heap.fresh_duplicate hg.sound hv)
    rwa [Hand.ofValues_singleton, add_assoc] at grown

theorem copyOutcome {outcome : Outcome} (h : w.Holds facts H) (ho : w.heap.Knows (Outcome.carried outcome)) :
    (w.copyOutcome outcome).2.Holds facts (H + (w.copyOutcome outcome).1.hand) := by
  cases outcome with
  | ok v => exact h.duplicate ho
  | error e => exact h.duplicate ho

/-! ### Scopes and objects -/

/-- An owned value is stored where programs look. -/
theorem deposit (h : w.Holds facts (H + {.owned v})) (hh : w'.heap = w.heap)
    (ho : w'.opened ≤ w.opened + {v}) (hs : w'.stock = w.stock) (hm : w'.methods = w.methods)
    (hf : w'.functions = w.functions) : w'.Holds facts H := by
  refine ⟨?_, fun m hin => by rw [hf]; exact h.methodical m (hm ▸ hin)⟩
  have grants := h.grants
  rw [← add_assoc] at grants
  rw [hh, hs]
  exact grants.deposit ho

theorem define (h : w.Holds facts (H + {.owned v})) (s : Ref .scope) (name : String) :
    (w.onScopes (·.define s name v)).Holds facts H := by
  have stored : (w.scopes.define s name v).total (fun s => (↑s.vars.values : Multiset Value)) ≤
      w.scopes.total (fun s => ↑s.vars.values) + {v} :=
    Arena.total_modify_le _ fun x _ => by
      rw [add_comm, Multiset.singleton_add]
      exact x.vars.values_set_le name v
  exact h.deposit rfl ((add_le_add_left stored _).trans_eq (add_right_comm _ _ _)) rfl rfl rfl

theorem setAttribute (h : w.Holds facts (H + {.owned v})) (o : Ref .object) (name : String) :
    { w with objects := w.objects.modify o fun o => { o with attrs := o.attrs.set name v } }.Holds facts H := by
  have stored : (w.objects.modify o fun o => { o with attrs := o.attrs.set name v }).total
      (fun o => (↑o.attrs.values : Multiset Value)) ≤ w.objects.total (fun o => ↑o.attrs.values) + {v} :=
    Arena.total_modify_le _ fun x _ => by
      rw [add_comm, Multiset.singleton_add]
      exact x.attrs.values_set_le name v
  exact h.deposit rfl ((add_le_add_right stored _).trans_eq (add_assoc _ _ _).symm) rfl rfl rfl

/-- Scopes that hold no more than before. -/
theorem onScopes (h : w.Holds facts H) {f : Scopes → Scopes}
    (hf : (f w.scopes).total (fun s => (↑s.vars.values : Multiset Value)) ≤
      w.scopes.total fun s => ↑s.vars.values) : (w.onScopes f).Holds facts H :=
  h.change rfl (add_le_add_left hf _) le_rfl h.methodical

theorem total_clear (s : Scopes) (r : Ref .scope) :
    (s.clear r).total (fun s => (↑s.vars.values : Multiset Value)) ≤
      s.total fun s => ↑s.vars.values :=
  Arena.total_modify_le_self _ fun _ _ => Multiset.zero_le _

theorem clear (h : w.Holds facts H) (r : Ref .scope) : (w.onScopes (·.clear r)).Holds facts H :=
  h.onScopes (total_clear _ r)

theorem clearScope (h : w.Holds facts H) (r : Ref .scope) : (w.clearScope r).Holds facts H := h.clear r

theorem pushScope (h : w.Holds facts H) (parent : Option (Ref .scope)) (b : Option (Ref .blueprint)) :
    { w with scopes := w.scopes.push { parent, blueprint := b } }.Holds facts H :=
  h.change rfl (by simp [opened, Arena.total_push, Dict.values]) le_rfl h.methodical

theorem dissolve (h : w.Holds facts H) (roots : List Cell) : (w.dissolve roots).Holds facts H := by
  refine h.onScopes (f := fun s => _) ?_
  refine List.foldlRecOn (motive := fun s : Scopes =>
    s.total (fun s => (↑s.vars.values : Multiset Value)) ≤ w.scopes.total fun s => ↑s.vars.values)
    _ _ le_rfl fun s hs e _ => (total_clear s _).trans hs

/-! ### New cells -/

theorem pushFunction {f : Function} (h : w.Holds facts (H + f.hand)) :
    { w with functions := w.functions.push f }.Holds facts H := by
  refine h.change rfl le_rfl (le_of_eq ?_) fun m hm => ?_
  · simp only [stock, Arena.total_push]
    abel
  · obtain hb | ⟨g, native, hg, hn⟩ := h.methodical m hm
    · exact .inl hb
    · have hlt : m.function.index < w.functions.size := by
        by_contra hge
        have none := Array.getElem?_eq_none (Nat.le_of_not_lt hge)
        exact absurd (hg.symm.trans none) (Option.some_ne_none g)
      exact .inr ⟨g, native, (Arena.get?_push_of_lt _ _ hlt).trans hg, hn⟩

theorem pushMethod {m : Method} (h : w.Holds facts (H + {.seen m.receiver}))
    (hm : m.receiver.box? = none ∨
      ∃ f native, w.functions.get? m.function = some f ∧ f.body = .native native) :
    { w with methods := w.methods.push m }.Holds facts H := by
  refine h.change rfl le_rfl (le_of_eq ?_) fun m' hm' => ?_
  · simp only [stock, Arena.total_push, Method.hand]
    abel
  · rw [Arena.push, Array.toList_push] at hm'
    obtain hm' | hm' := List.mem_append.1 hm'
    · exact h.methodical m' hm'
    · rw [List.mem_singleton.1 hm']
      exact hm

theorem pushObject (h : w.Holds facts H) (serial : Nat) (b : Ref .blueprint) :
    { w with objects := w.objects.push { serial, blueprint := b } }.Holds facts H :=
  h.change rfl (by simp [opened, Arena.total_push, Dict.values]) le_rfl h.methodical

theorem pushCoroutine {c : Coroutine} (h : w.Holds facts (H + c.hand)) :
    { w with coroutines := w.coroutines.push c }.Holds facts H := by
  refine h.change rfl le_rfl (le_of_eq ?_) h.methodical
  simp only [stock, Arena.total_push]
  abel

theorem newBlueprint (h : w.Holds facts H) (name : String) (parent : Option (Ref .blueprint))
    (outer : Ref .scope) : (w.newBlueprint name parent outer).2.Holds facts H :=
  (h.pushScope (some outer) (some w.blueprints.next)).of_same rfl rfl rfl rfl rfl

/-! ### Coroutines -/

/-- A coroutine is given something. -/
theorem modifyCoroutine {f : Coroutine → Coroutine} (h : w.Holds facts (H + K))
    (hf : ∀ c, w.coroutines.get? r = some c → (f c).hand ≤ c.hand + K) :
    (w.modifyCoroutine r f).Holds facts H := by
  refine h.change rfl le_rfl ?_ h.methodical
  have total := Arena.total_modify_le Coroutine.hand (g := f) hf
  rw [stock, stock, add_assoc, add_assoc, add_assoc, add_assoc]
  refine add_le_add_right (add_le_add_right ?_ _) _
  rw [add_comm H, ← add_assoc]
  exact add_le_add_left total _

/-- A coroutine has no more than before. -/
theorem modifyCoroutine_of_le {f : Coroutine → Coroutine} (h : w.Holds facts H)
    (hf : ∀ c, (f c).hand ≤ c.hand) : (w.modifyCoroutine r f).Holds facts H :=
  modifyCoroutine (K := 0) (by rwa [add_zero]) fun c _ => by
    rw [add_zero]
    exact hf c

/-- A coroutine has the same as before. -/
theorem relink {f : Coroutine → Coroutine} (h : w.Holds facts H)
    (hf : ∀ c, (f c).hand = c.hand) : (w.modifyCoroutine r f).Holds facts H :=
  h.modifyCoroutine_of_le fun c => (hf c).le

/-- Something is taken from a coroutine. -/
theorem takeFrom {f : Coroutine → Coroutine} {c : Coroutine} (h : w.Holds facts H)
    (hc : w.coroutines.get? r = some c) (hf : (f c).hand + K ≤ c.hand) :
    (w.modifyCoroutine r f).Holds facts (H + K) := by
  refine h.change rfl le_rfl ?_ h.methodical
  have total := Arena.total_modify_add_le Coroutine.hand hc hf
  rw [stock, stock, add_assoc, add_assoc, add_assoc, add_assoc]
  refine add_le_add_right (add_le_add_right ?_ _) _
  rw [add_comm H, ← add_assoc]
  exact add_le_add_left total _

/-- Something of the stock is in the heap. -/
theorem knows_of_stock (h : w.Holds facts H) {K : Hand} (hK : K ≤ w.stock) (hv : .owned v ∈ K) :
    w.heap.Knows v :=
  h.grants.knows (.inl (Multiset.mem_add.2 (.inl (Multiset.mem_of_le hK hv))))

/-- How a coroutine came out is in the heap. -/
theorem knows_outcome (h : w.Holds facts H) (r : Ref .coroutine) :
    w.heap.Knows (Outcome.carried (w.coroutines.get r).outcome) := by
  obtain hn | hs := w.owned_outcome r
  · exact Heap.knows_of_box? (by rw [hn]; rfl)
  · exact h.knows_of_stock le_rfl hs

/-! ### Transitions of the event loop -/

theorem enqueue (h : w.Holds facts H) (r : Ref .coroutine) : (w.enqueue r).Holds facts H :=
  h.of_same rfl rfl rfl rfl rfl

theorem noteStarted (h : w.Holds facts H) (r : Ref .coroutine) : (w.noteStarted r).Holds facts H :=
  h.of_same rfl rfl rfl rfl rfl

theorem withLoop (h : w.Holds facts H) (loop : EventLoop) : { w with loop }.Holds facts H :=
  h.of_same rfl rfl rfl rfl rfl

theorem releaseLinks (h : w.Holds facts H) (r : Ref .coroutine) : (w.releaseLinks r).Holds facts H := by
  have released : (w.modifyCoroutine r fun c =>
      { c with waiters := [], awaiting := none, scope := none, frames := [],
               tape := Tape.reset }).Holds facts H :=
    h.modifyCoroutine_of_le fun c => by
      simp only [Coroutine.hand, framesHand_nil, hand_reset, add_zero]
      exact (Multiset.le_add_right _ _).trans (Multiset.le_add_right _ _)
  unfold World.releaseLinks
  dsimp only
  split
  · exact released.clearScope _
  · exact released

/-- What a coroutine has waited for comes in. -/
theorem wake {outcome : Outcome} (h : w.Holds facts (H + outcome.hand)) : (w.wake r outcome).Holds facts H := by
  unfold World.wake
  split
  · refine (modifyCoroutine h fun c _ => le_of_eq ?_).enqueue r
    simp only [Coroutine.hand, Tape.inject, hand_push]
    abel
  · exact h.left

theorem wakeWithCopy {outcome : Outcome} (h : w.Holds facts H)
    (ho : w.heap.Knows (Outcome.carried outcome)) : (wakeWithCopy outcome w r).Holds facts H :=
  (h.copyOutcome ho).wake

theorem complete {outcome : Outcome} (h : w.Holds facts H)
    (ho : w.heap.Knows (Outcome.carried outcome)) : (w.complete r outcome).Holds facts H := by
  have copied := h.copyOutcome ho
  unfold World.complete
  generalize w.copyOutcome outcome = p at copied ⊢
  obtain ⟨kept, w⟩ := p
  refine releaseLinks (modifyCoroutine copied fun c _ => ?_) r
  -- what was there in place of the outcome is dropped
  cases kept with
  | ok v =>
    refine (Multiset.le_add_right _ {.owned c.result}).trans_eq ?_
    simp only [Coroutine.hand, Outcome.hand, Outcome.carried]
    abel
  | error e =>
    refine (Multiset.le_add_right _ (Hand.ofValues ↑(c.exception.map (·.value)).toList)).trans_eq ?_
    simp only [Coroutine.hand, Outcome.hand, Outcome.carried, Option.map_some, Option.toList_some,
      Multiset.coe_singleton, Hand.ofValues_singleton]
    abel

theorem settle {outcome : Outcome} (h : w.Holds facts H) (ho : w.heap.Knows (Outcome.carried outcome)) :
    (w.settle r outcome).Holds facts H := by
  have completed : (w.complete r outcome).Holds facts (H + {.known (Outcome.carried outcome)}) :=
    (h.learn ho).complete ho
  refine left (List.foldlRecOn (motive := fun w : World =>
    w.Holds facts (H + {.known (Outcome.carried outcome)})) _ _ completed fun w hw x _ => ?_)
  exact hw.wakeWithCopy hw.known

/-- One more slot of a gather task is filled. -/
theorem hand_fill (g : GatherState) (slot : Nat) (outcome : Outcome) :
    (CoroutineKind.gather (g.fill slot outcome)).hand ≤
      (CoroutineKind.gather g).hand + outcome.hand := by
  unfold GatherState.fill
  split
  · rename_i h
    have filled := List.bind_modify (fun o : Option Outcome => o.elim (0 : Hand) Outcome.hand)
      (fun _ => some outcome) h
    rw [← List.set_eq_modify] at filled
    exact le_of_eq ((add_zero _).symm.trans filled)
  · exact Multiset.le_add_right _ _

theorem fillSlot {outcome : Outcome} (h : w.Holds facts (H + outcome.hand)) (slot : Nat) :
    (w.fillSlot r slot outcome).Holds facts H := by
  refine modifyCoroutine h fun c _ => ?_
  split
  · rename_i g hk
    split
    · exact Multiset.le_add_right _ _
    · simp only [Coroutine.hand, hk]
      have filled := add_le_add_right (hand_fill g slot outcome)
        ({.owned c.result} + Hand.ofValues ↑(c.exception.map (·.value)).toList)
      refine (add_le_add_left (add_le_add_left filled _) _).trans_eq ?_
      abel
  · exact Multiset.le_add_right _ _

theorem report {outcome : Outcome} (h : w.Holds facts H) (ho : w.heap.Knows (Outcome.carried outcome))
    (slot : Nat) : (World.report outcome w r slot).Holds facts H := (h.copyOutcome ho).fillSlot slot

/-- What a gather task comes to is made of what its children have reported. -/
theorem mem_of_collect {b : Bool} {slots : List (Option Outcome)} :
    match GatherState.collect b slots with
    | .ok values => ∀ v ∈ values, v = .null ∨ ∃ o, some o ∈ slots ∧ Outcome.carried o = v
    | .error e => ∃ o, some o ∈ slots ∧ Outcome.carried o = e.value := by
  induction slots with
  | nil => exact nofun
  | cons slot slots ih =>
    unfold GatherState.collect
    -- what the other slots come to goes on, with the value of this one in front
    have others (v : Value) (hv : v = .null ∨ ∃ o, some o ∈ slot :: slots ∧ Outcome.carried o = v) :
        match (GatherState.collect b slots).map (v :: ·) with
        | .ok values => ∀ v ∈ values, v = .null ∨ ∃ o, some o ∈ slot :: slots ∧ Outcome.carried o = v
        | .error e => ∃ o, some o ∈ slot :: slots ∧ Outcome.carried o = e.value := by
      have below {v : Value} : (∃ o, some o ∈ slots ∧ Outcome.carried o = v) →
          ∃ o, some o ∈ slot :: slots ∧ Outcome.carried o = v :=
        fun ⟨o, ho, hv⟩ => ⟨o, List.mem_cons_of_mem _ ho, hv⟩
      cases hc : GatherState.collect b slots with
      | ok values =>
        rw [hc] at ih
        exact List.forall_mem_cons.2 ⟨hv, fun v h => (ih v h).imp_right below⟩
      | error e =>
        rw [hc] at ih
        exact below ih
    cases slot with
    | none => exact others _ (.inl rfl)
    | some o =>
      cases o with
      | ok v => exact others _ (.inr ⟨_, List.mem_cons_self, rfl⟩)
      | error e =>
        cases b with
        | true => exact others _ (.inr ⟨_, List.mem_cons_self, rfl⟩)
        | false => exact ⟨_, List.mem_cons_self, rfl⟩

/-- A gather task comes to its outcome. -/
theorem total {g : GatherState} (h : w.Holds facts H) (hg : w.completeGather? r = some g) :
    (w.onHeap g.outcome).2.Holds facts (H + {.known (Outcome.carried (w.onHeap g.outcome).1)}) := by
  have hk := (completeGather?_eq_some.1 hg).1
  have reported {v : Value} : (∃ o, some o ∈ g.slots ∧ Outcome.carried o = v) → w.heap.Knows v := by
    rintro ⟨o, ho, rfl⟩
    exact h.knows_of_stock le_rfl (owned_slot hk ho)
  have run : w.onHeap g.outcome = ((g.outcome w.heap).1, { w with heap := (g.outcome w.heap).2 }) :=
    rfl
  have collected := @mem_of_collect g.returnExceptions g.slots
  cases hc : GatherState.collect g.returnExceptions g.slots with
  | ok values =>
    rw [hc] at collected
    have known (v : Value) (hv : v ∈ values.toArray.toList) : w.heap.Knows v := by
      obtain rfl | hv := collected v (by simpa using hv)
      · exact Heap.knows_of_box? rfl
      · exact reported hv
    have added := Heap.adds_newArray values.toArray w.heap
    rw [run, GatherState.outcome_of_ok hc]
    refine learn (h.onHeap fun R hg => hg.extend added.grown (added.sound h.sound known)) ?_
    exact fun _ => added.present
  | error e =>
    rw [hc] at collected
    rw [run, GatherState.outcome_of_error hc]
    exact h.learn (reported collected)

theorem finishWithin {outcome : Outcome} (depth : Nat) (h : w.Holds facts H)
    (ho : w.heap.Knows (Outcome.carried outcome)) : (finishWithin depth w r outcome).Holds facts H := by
  induction depth generalizing w H r outcome with
  | zero => exact h
  | succ depth ih =>
    unfold World.finishWithin
    dsimp only
    split
    · exact h
    · -- a cancelled coroutine ends with an exception that has no parts
      have final : w.heap.Knows (Outcome.carried (finalOutcome (w.coroutines.get r) outcome)) := by
        unfold finalOutcome
        split
        · split
          · exact Heap.knows_of_box? rfl
          · exact ho
        · exact ho
      generalize finalOutcome (w.coroutines.get r) outcome = outcome at final ⊢
      refine left (List.foldlRecOn (motive := fun w : World =>
        w.Holds facts (H + {.known (Outcome.carried outcome)})) _ _ ((h.learn final).settle final)
        fun w hw x _ => ?_)
      have reported := hw.report (r := x.1) hw.known x.2
      split
      · rename_i g hg
        have complete := reported.total hg
        exact ih complete.left complete.known
      · exact reported

theorem finish {outcome : Outcome} (h : w.Holds facts H) (ho : w.heap.Knows (Outcome.carried outcome)) :
    (w.finish r outcome).Holds facts H := h.finishWithin _ ho

theorem finishIfComplete (h : w.Holds facts H) (r : Ref .coroutine) : (w.finishIfComplete r).Holds facts H := by
  unfold World.finishIfComplete
  split
  · rename_i g hg
    have complete := h.total hg
    exact complete.left.finish complete.known
  · exact h

theorem enroll (h : w.Holds facts H) (r : Ref .coroutine) (stage : Stage) : (w.enroll r stage).Holds facts H :=
  (h.relink fun _ => by rfl).noteStarted r

theorem startWithin (depth : Nat) (h : w.Holds facts H) (r : Ref .coroutine) :
    (startWithin depth w r).Holds facts H := by
  induction depth generalizing w r with
  | zero => exact h
  | succ depth ih =>
    have enlisted (w : World) (hw : w.Holds facts H) (x : Ref .coroutine × Nat) :
        (enlist (World.startWithin depth) r w x.1 x.2).Holds facts H := by
      unfold enlist
      dsimp only
      split
      · exact hw.report (hw.knows_outcome x.1) x.2
      · exact ih (hw.relink fun _ => by rfl) x.1
    unfold World.startWithin
    dsimp only
    split
    · exact h
    · split
      · exact (h.enroll r _).enqueue r
      · exact (h.enroll r _).withLoop _
      · refine finishIfComplete (List.foldlRecOn (motive := fun w : World => w.Holds facts H) _ _
          (h.enroll r _) fun w hw x _ => enlisted w hw x) r

theorem start (h : w.Holds facts H) (r : Ref .coroutine) : (w.start r).Holds facts H := h.startWithin _ r

theorem pollSleepers (h : w.Holds facts H) : w.pollSleepers.Holds facts H :=
  List.foldlRecOn (motive := fun w : World => w.Holds facts H) _ _ (h.withLoop _) fun _ hw _ _ =>
    hw.finish (Heap.knows_of_box? rfl)

theorem suspendOn (h : w.Holds facts H) (r target : Ref .coroutine) : (w.suspendOn r target).Holds facts H :=
  (h.relink fun _ => by rfl).relink fun _ => by rfl

theorem flagCancelled (h : w.Holds facts H) (r : Ref .coroutine) : (w.flagCancelled r).2.Holds facts H :=
  flagWithin_keeps (P := fun w => w.Holds facts H)
    (fun _ _ hw _ _ => hw.relink fun _ => by rfl) _ r h

theorem deliverCancellation (h : w.Holds facts H) (r : Ref .coroutine) :
    (w.deliverCancellation r).Holds facts H := by
  unfold World.deliverCancellation
  split
  · refine wake (Holds.add_flat ?_ rfl)
    unfold forgo
    split
    · exact (h.relink fun _ => by rfl).relink fun _ => by rfl
    · exact h.relink fun _ => by rfl
  · exact (h.withLoop _).finish (Heap.knows_of_box? rfl)
  · exact h

theorem cancel (h : w.Holds facts H) (r : Ref .coroutine) : (w.cancel r).2.Holds facts H :=
  cancel_keeps (P := fun w => w.Holds facts H) (fun _ _ hw _ _ => hw.relink fun _ => by rfl)
    (fun _ r hw _ => hw.deliverCancellation r) r h

theorem teardown (h : w.Holds facts H) : w.teardown.Holds facts H :=
  (List.foldlRecOn (motive := fun w : World => w.Holds facts H) _ _ h fun _ hw r _ =>
    hw.releaseLinks r).withLoop _

end Holds
end World
end Rewind
