/-
Access keeps values apart.

Whatever is stored is owned before, and what an expression gives is owned or has been come upon where
programs look.  Function by function of the evaluator: if the jobs it is given keep values apart, it
keeps them apart as well.

* `Jobs.Keep` — jobs that keep values apart;
* `keeps_own`, `keeps_lookup`, `keeps_define`, … — values, names and scopes;
* `keeps_readAttribute`, `keeps_storeItem`, … — attributes and items.
-/
import Rewind.Proofs.Keeping

namespace Rewind

variable {ε α β : Type} [Stops ε] {H K : Hand} {post : α → Hand}

/-- The arguments of a call. -/
def CallArgs.hand (args : CallArgs) : Hand := .ofValues ↑args.values

/-- The jobs do the same and keep values apart. -/
structure Jobs.Keep (j j' : Jobs) : Prop where
  expression : Keeps 0 j.expression j'.expression Held.hand
  unary : Keeps 0 j.unary j'.unary Held.hand
  body : ∀ column, Keeps 0 (j.body column) (j'.body column) Status.hand
  invoke : ∀ callee args site,
    Keeps args.hand (j.invoke callee args site) (j'.invoke callee args site) Held.hand

/-- What may have been come upon. -/
def seenHand (v : Option Value) : Hand := v.elim 0 ({.seen ·})

/-- What may have been found. -/
def foundHand (h : Option Held) : Hand := h.elim 0 Held.hand

/-! ### What programs look at -/

/-- Changing an item brings in the new one. -/
theorem List.coe_modify_le (l : List α) (i : Nat) (a : α) :
    (↑(l.modify i fun _ => a) : Multiset α) ≤ a ::ₘ ↑l := by
  induction l generalizing i with
  | nil =>
    rw [List.modify_nil]
    exact Multiset.zero_le _
  | cons b l ih =>
    cases i with
    | zero =>
      rw [List.modify_zero_cons, ← Multiset.cons_coe, ← Multiset.cons_coe]
      exact Multiset.cons_le_cons a (Multiset.le_cons_self _ b)
    | succ i =>
      rw [List.modify_succ_cons, ← Multiset.cons_coe, ← Multiset.cons_coe, Multiset.cons_swap]
      exact Multiset.cons_le_cons b (ih i)

theorem Dict.get?_empty {key : String} : ({} : Dict α).get? key = none := by
  simp [Dict.get?]

namespace World

variable {w : World} {v : Value}

theorem mem_opened_of_entries {r : Ref .scope} (h : v ∈ (w.scopes.entries r).map (·.2)) :
    v ∈ w.opened := by
  unfold Scopes.entries Arena.get at h
  cases hs : w.scopes.get? r with
  | none =>
    rw [hs] at h
    contradiction
  | some s =>
    rw [hs] at h
    refine Multiset.mem_add.2 (.inl (Multiset.mem_of_le ?_ (Multiset.mem_coe.2 h)))
    exact Arena.le_total (fun s : Scope => (↑s.vars.values : Multiset Value)) hs

theorem mem_opened_of_local {r : Ref .scope} {name : String} (h : w.scopes.getLocal? r name = some v) :
    v ∈ w.opened := by
  unfold Scopes.getLocal? Arena.get at h
  cases hs : w.scopes.get? r with
  | none =>
    rw [hs] at h
    exact absurd (h.symm.trans Dict.get?_empty) (Option.some_ne_none v)
  | some s =>
    rw [hs] at h
    have mem := Dict.mem_values_of_get? h
    refine Multiset.mem_add.2 (.inl (Multiset.mem_of_le ?_ (Multiset.mem_coe.2 mem)))
    exact Arena.le_total (fun s : Scope => (↑s.vars.values : Multiset Value)) hs

theorem mem_opened_of_attribute {r : Ref .object} {name : String}
    (h : (w.objects.get r).attrs.get? name = some v) : v ∈ w.opened := by
  unfold Arena.get at h
  cases ho : w.objects.get? r with
  | none =>
    rw [ho] at h
    exact absurd (h.symm.trans Dict.get?_empty) (Option.some_ne_none v)
  | some o =>
    rw [ho] at h
    have mem := Dict.mem_values_of_get? h
    refine Multiset.mem_add.2 (.inr (Multiset.mem_of_le ?_ (Multiset.mem_coe.2 mem)))
    exact Arena.le_total (fun o : Object => (↑o.attrs.values : Multiset Value)) ho

theorem mem_opened_of_member {r b : Ref .blueprint} {name : String}
    (h : w.findMember r name = some (v, b)) : v ∈ w.opened := by
  unfold findMember at h
  generalize r.index + 1 = steps at h
  induction steps generalizing r with
  | zero => contradiction
  | succ steps ih =>
    unfold findMemberWithin at h
    dsimp only at h
    split at h
    · rename_i u hu
      obtain ⟨rfl, -⟩ := Prod.mk.inj (Option.some.inj h)
      exact mem_opened_of_local hu
    · split at h
      · exact ih h
      · contradiction

/-- What is stored where programs look is in the heap. -/
theorem Safe.knows_opened (h : w.Safe H) (hv : v ∈ w.opened) : w.heap.Knows v :=
  (h.look hv).knows (.inr (.inl (by simp)))

/-- A part of what is held is held in the same way. -/
theorem Safe.part {target : Held} (h : w.Safe (H + target.hand)) (hv : v ∈ w.heap.inside target.value) :
    w.Safe (H + (target.part v).hand) := by
  refine h.of_holds ⟨?_, h.holds.methodical⟩ (.refl _) rfl rfl
  have grants := h.holds.grants
  rw [← add_assoc] at grants ⊢
  cases target with
  | fresh u => exact grants.descend hv
  | view u =>
    have less := grants.mono le_rfl (Multiset.le_add_right (w.stock + H) {.seen u})
    refine less.add rfl ?_
    have shown := grants.shows (v := u) (by simp [Held.hand])
    simp only [Held.hand, Hand.own_add, Hand.own_singleton, Grip.own_seen, add_zero] at shown ⊢
    exact shown.inside grants.sound hv

/-- What is owned or has been come upon is known. -/
theorem Safe.knows_held {held : Held} (h : w.Safe (H + held.hand)) : w.heap.Knows held.value := by
  refine h.knows ?_
  cases held <;> simp [Held.hand, Held.value]

end World

namespace Heap

variable {h : Heap} {v : Value}

theorem get?_modify_of_ne {k : CellKind} {α : Type} (a : Arena k α) {r s : Ref k} (f : α → α)
    (hs : s ≠ r) : (a.modify r f).get? s = a.get? s := by
  rw [Arena.get?_modify, if_neg hs]

/-- A value is put into an array. -/
theorem puts_array (r : Ref .array) {f : Array Value → Array Value}
    (hf : ∀ items, (↑(f items).toList : Multiset Value) ≤ v ::ₘ ↑items.toList) :
    h.Puts { h with arrays := h.arrays.modify r f } (.array r) v := by
  have changed : (h.arrays.modify r f).get? r = (h.arrays.get? r).map f := by
    rw [Arena.get?_modify, if_pos rfl]
  refine ⟨fun w hw => ?_, ?_, ?_⟩
  · cases w with
    | array s =>
      have hs : s ≠ r := fun heq => hw (congrArg Value.array heq)
      simp [contents?, get?_modify_of_ne _ _ hs]
    | _ => rfl
  · simp [contents?, changed]
  · cases hr : h.arrays.get? r with
    | none => simp [inside, contents?, changed, hr]
    | some items => simpa [inside, contents?, changed, hr] using hf items

/-- A value is put into a dictionary. -/
theorem puts_dict (r : Ref .dict) (key : String) :
    h.Puts { h with dicts := h.dicts.modify r (·.set key v) } (.dict r) v := by
  have changed : (h.dicts.modify r (·.set key v)).get? r = (h.dicts.get? r).map (·.set key v) := by
    rw [Arena.get?_modify, if_pos rfl]
  refine ⟨fun w hw => ?_, ?_, ?_⟩
  · cases w with
    | dict s =>
      have hs : s ≠ r := fun heq => hw (congrArg Value.dict heq)
      simp [contents?, get?_modify_of_ne _ _ hs]
    | _ => rfl
  · simp [contents?, changed]
  · cases hr : h.dicts.get? r with
    | none => simp [inside, contents?, changed, hr]
    | some entries => simpa [inside, contents?, changed, hr] using entries.values_set_le key v

theorem mem_inside_array {r : Ref .array} (hv : v ∈ (h.array r).toList) :
    v ∈ h.inside (.array r) := by
  unfold Heap.array Arena.get at hv
  cases hr : h.arrays.get? r with
  | none =>
    rw [hr] at hv
    exact absurd hv List.not_mem_nil
  | some items => simpa [inside, contents?, hr] using hv

theorem mem_inside_tuple {r : Ref .tuple} (hv : v ∈ (h.tuple r).toList) :
    v ∈ h.inside (.tuple r) := by
  unfold Heap.tuple Arena.get at hv
  cases hr : h.tuples.get? r with
  | none =>
    rw [hr] at hv
    exact absurd hv List.not_mem_nil
  | some items => simpa [inside, contents?, hr] using hv

theorem mem_inside_dict {r : Ref .dict} {key : String} (hv : (h.dict r).get? key = some v) :
    v ∈ h.inside (.dict r) := by
  unfold Heap.dict Arena.get at hv
  cases hr : h.dicts.get? r with
  | none =>
    rw [hr] at hv
    exact absurd (hv.symm.trans Dict.get?_empty) (Option.some_ne_none v)
  | some entries =>
    rw [hr] at hv
    simpa [inside, contents?, hr] using Dict.mem_values_of_get? hv

end Heap

namespace Eval

/-! ### Failures, the world and the thread -/

theorem keeps_exhausted : Keeps H (exhausted : Run α) exhausted post := .stop (.drop H)

theorem keeps_fail (f : Failure) : Keeps H (fail f : Run α) (fail f) post := .stop (.drop H)

theorem keeps_malformed (issue : SyntaxIssue) (site : Token) :
    Keeps H (malformed issue site : Run α) (malformed issue site) post := .stop (.drop H)

theorem keeps_complain (complaint : Complaint) (site : Token) :
    Keeps H (complain complaint site : Eval α) (complain complaint site) post :=
  .stop (.of_flat rfl)

theorem keeps_orComplain (site : Token) (x : Except Complaint α) :
    Keeps (Keeps.handedOn post x) (orComplain site x) (orComplain site x) post := by
  cases x with
  | ok a => exact .pure (.refl _)
  | error c => exact keeps_complain c site

theorem keeps_get : Keeps 0 (get : EStateM ε Machine Machine) get fun _ => 0 := .read id

theorem keeps_onHeap (f : StateM Heap α) (hf : ∀ (w : World) R, w.Safe (R + H) →
      (w.onHeap f).2.Safe (R + post (w.onHeap f).1)) :
    Keeps H (onHeap f : EStateM ε Machine α) (onHeap f) post := keeps_onWorld (fun _ _ => id) hf

theorem keeps_own (held : Held) :
    Keeps held.hand (own held : EStateM ε Machine Value) (own held) fun v => {.owned v} :=
  keeps_onHeap (Heap.own held) fun w R hw => by
    cases held with
    | fresh v => exact hw
    | view v => exact hw.left.duplicate hw.knows_held

/-- A copy of something that is known. -/
theorem keeps_duplicate (v : Value) : Keeps {.known v}
    (onHeap (Heap.duplicate v) : EStateM ε Machine Value) (onHeap (Heap.duplicate v))
    fun v => {.owned v} :=
  keeps_onWorld (fun _ _ => id) fun _ _ hw => hw.left.duplicate hw.known

theorem keeps_duplicateOutcome (outcome : Outcome) : Keeps {.known (Outcome.carried outcome)}
    (onHeap (Heap.duplicateOutcome outcome) : EStateM ε Machine Outcome)
    (onHeap (Heap.duplicateOutcome outcome)) Outcome.hand :=
  keeps_onWorld (fun _ _ => id) fun _ _ hw => hw.left.copyOutcome hw.known

theorem keeps_newArray (items : List Value) : Keeps (.ofValues ↑items)
    (onHeap (Heap.newArray items.toArray) : EStateM ε Machine Value)
    (onHeap (Heap.newArray items.toArray)) fun v => {.owned v} :=
  keeps_onWorld (fun _ _ => id) fun _ _ hw => hw.onHeap fun _ hg => by
    rw [← add_assoc] at hg ⊢
    exact Heap.Grants.contain (Heap.adds_newArray _ _) hg

theorem keeps_newTuple (items : List Value) : Keeps (.ofValues ↑items)
    (onHeap (Heap.newTuple items.toArray) : EStateM ε Machine Value)
    (onHeap (Heap.newTuple items.toArray)) fun v => {.owned v} :=
  keeps_onWorld (fun _ _ => id) fun _ _ hw => hw.onHeap fun _ hg => by
    rw [← add_assoc] at hg ⊢
    exact Heap.Grants.contain (Heap.adds_newTuple _ _) hg

theorem keeps_newDict (entries : Dict Value) : Keeps (.ofValues ↑entries.values)
    (onHeap (Heap.newDict entries) : EStateM ε Machine Value)
    (onHeap (Heap.newDict entries)) fun v => {.owned v} :=
  keeps_onWorld (fun _ _ => id) fun _ _ hw => hw.onHeap fun _ hg => by
    rw [← add_assoc] at hg ⊢
    exact Heap.Grants.contain (Heap.adds_newDict _ _) hg

theorem keeps_truthy (held : Held) :
    Keeps 0 (truthy held : EStateM ε Machine Bool) (truthy held) fun _ => 0 := keeps_ask _

theorem keeps_newFunction (f : Function) :
    Keeps f.hand (newFunction f : EStateM ε Machine Value) (newFunction f) fun v => {.owned v} :=
  keeps_onWorld (fun _ _ => id) fun _ _ hw => hw.pushFunction.add_flat rfl

/-- A method of a value that is no container. -/
theorem keeps_newMethod (b : Method) (hb : b.receiver.box? = none) :
    Keeps 0 (newMethod b : EStateM ε Machine Value) (newMethod b) fun v => {.owned v} :=
  keeps_onWorld (fun _ _ => id) fun _ _ hw => by
    rw [add_zero] at hw
    exact ((hw.of_gives (.flat (g := .seen b.receiver) hb)).pushMethod (.inl hb)).add_flat rfl

theorem keeps_newScope (parent : Option (Ref .scope)) :
    Keeps 0 (newScope parent : EStateM ε Machine (Ref .scope)) (newScope parent) fun _ => 0 :=
  keeps_onWorld (fun _ _ => id) fun _ _ hw => hw.pushScope parent none

theorem keeps_scopes {f : Scopes → Scopes}
    (hf : ∀ s : Scopes, (f s).total (fun s => (↑s.vars.values : Multiset Value)) ≤
      s.total fun s => ↑s.vars.values) :
    Keeps 0 (modifyScopes f : EStateM ε Machine Unit) (modifyScopes f) fun _ => 0 :=
  keeps_world (fun _ _ => id) fun _ _ hw => hw.onScopes (hf _)

theorem keeps_clear (r : Ref .scope) :
    Keeps 0 (modifyScopes (·.clear r) : EStateM ε Machine Unit) (modifyScopes (·.clear r))
      fun _ => 0 := keeps_scopes fun _ => World.Holds.total_clear _ r

theorem keeps_defineIn (r : Ref .scope) (name : String) (v : Value) : Keeps {.owned v}
    (modifyScopes (·.define r name v) : EStateM ε Machine Unit) (modifyScopes (·.define r name v))
    fun _ => 0 :=
  keeps_modifyWorld (fun _ _ => id) fun _ _ hw => by
    rw [add_zero]
    exact hw.define r name

/-- A coroutine is made; the children of a gather task are there. -/
theorem keeps_newCoroutine (name : String) {kind : CoroutineKind} (hk : kind.hand = 0)
    (ha : ∀ (w : World) R, w.Safe (R + H) → w.Admits kind) (scope : Option (Ref .scope)) :
    Keeps H (newCoroutine name kind scope : EStateM ε Machine (Ref .coroutine))
      (newCoroutine name kind scope) fun _ => 0 := by
  refine .skip (keeps_modify (fun _ => rfl) (fun _ => rfl) (fun _ => rfl) fun _ => rfl) fun _ =>
    .skip keeps_get fun m => keeps_onWorld (fun w r hr => hr.push _) fun w R hw => ?_
  rw [add_zero]
  exact hw.left.pushCoroutine (ha w R hw) hk

theorem keeps_emit (text : String) :
    Keeps 0 (emit text : EStateM ε Machine Unit) (emit text) fun _ => 0 :=
  keeps_modify (fun _ => rfl) (fun _ => rfl) (fun _ => rfl) fun _ => rfl

theorem keeps_resetTapeUnlessReplaying :
    Keeps 0 (resetTapeUnlessReplaying : EStateM ε Machine Unit) resetTapeUnlessReplaying
      fun _ => 0 :=
  keeps_modifyThread (fun t => by
    split
    · simp only [Thread.hand, hand_reset, add_zero, zero_add]
      rw [add_assoc]
      exact Multiset.le_add_left _ _
    · exact le_rfl) (fun t ht => by split <;> exact ht) fun t => by split <;> rfl

theorem keeps_isSkipping :
    Keeps 0 (isSkipping : EStateM ε Machine Bool) isSkipping fun _ => 0 := .read _

theorem keeps_mode : Keeps 0 (mode : EStateM ε Machine Mode) mode fun _ => 0 := .read _

theorem keeps_scope :
    Keeps 0 (scope : EStateM ε Machine (Ref .scope)) scope fun _ => 0 := .read _

theorem keeps_current : Keeps 0 (current : EStateM ε Machine Token) current fun _ => 0 := .read _

theorem keeps_kind : Keeps 0 (kind : EStateM ε Machine TokenKind) kind fun _ => 0 := .read _

theorem keeps_capture :
    Keeps 0 (capture : EStateM ε Machine Position) capture fun _ => 0 := .read _

theorem keeps_move (f : Cursor → Except Failure Cursor) :
    Keeps 0 (move f) (move f) fun _ => 0 := by
  intro m R hm
  unfold move
  split
  · exact .ok rfl (hm.of_same rfl rfl rfl (fun _ => id) rfl)
  · exact .error rfl hm

theorem keeps_bump : Keeps 0 bump bump fun _ => 0 :=
  .skip keeps_current fun _ => .skip (keeps_move _) fun _ => .pure (.refl _)

theorem keeps_advance (wanted : TokenKind) : Keeps 0 (advance wanted) (advance wanted) fun _ => 0 :=
  .skip keeps_current fun _ => .skip (keeps_move _) fun _ => .pure (.refl _)

theorem keeps_rewind (p : Position) : Keeps 0 (rewind p) (rewind p) fun _ => 0 := keeps_move _

theorem keeps_skipBody (column : Nat) : Keeps 0 (skipBody column) (skipBody column) fun _ => 0 :=
  keeps_move _

theorem keeps_skipOver (k : TokenKind) : Keeps 0 (skipOver k) (skipOver k) fun _ => 0 :=
  .skip keeps_kind fun _ => .ite (.skip keeps_bump fun _ => .pure (.refl _)) (.pure (.refl _))

theorem keeps_endStatement : Keeps 0 endStatement endStatement fun _ => 0 :=
  .skip (keeps_skipOver _) fun _ => .pure (.refl _)

theorem keeps_enterBlock (column : Nat) :
    Keeps 0 (enterBlock column) (enterBlock column) fun _ => 0 := by
  refine .skip (keeps_advance .colon) fun _ => .skip keeps_current fun _ => ?_
  exact .guard (keeps_malformed _ _) (.ite (keeps_malformed _ _) (.pure (.refl _)))

/-! ### Names -/

theorem keeps_resolve (name : String) :
    Keeps 0 (resolve name : EStateM ε Machine (Option (Ref .scope))) (resolve name) fun _ => 0 := by
  refine .skip keeps_scope fun r => .skip (keeps_ask _) fun found => ?_
  split
  · exact .pure (.refl _)
  · refine .skip (keeps_ask _) fun b => ?_
    split
    · exact .pure (.refl _)
    · refine .skip keeps_mode fun _ => .skip (keeps_ask _) fun _ => .ite (.pure (.refl _)) ?_
      refine .skip keeps_get fun _ => .skip (keeps_ask _) fun _ => .ite (.pure (.refl _)) ?_
      exact .skip (keeps_world (fun _ _ => id) fun _ _ hw => hw.dissolve _) fun _ => keeps_ask _

theorem keeps_lookup (name : String) :
    Keeps 0 (lookup name : EStateM ε Machine (Option Value)) (lookup name) seenHand := by
  refine .skip (keeps_resolve name) fun r => ?_
  split
  · refine keeps_askFor _ _ fun w R hw => ?_
    rw [add_zero] at hw
    cases hv : w.scopes.getLocal? _ name with
    | none => exact hw.of_gives (.of_eq (add_zero _).symm)
    | some v => exact hw.look (World.mem_opened_of_local hv)
  · exact .pure (.refl _)

theorem keeps_assign (name : String) (v : Value) :
    Keeps {.owned v} (assign name v : EStateM ε Machine Unit) (assign name v) fun _ => 0 :=
  .skip (.holding _ (keeps_resolve name)) fun _ => .skip keeps_scope fun _ => keeps_defineIn _ _ _

theorem keeps_define (name : String) (v : Value) :
    Keeps {.owned v} (define name v : EStateM ε Machine Unit) (define name v) fun _ => 0 :=
  .skip keeps_scope fun _ => keeps_defineIn _ _ _

theorem keeps_pushScope : Keeps 0 (pushScope : EStateM ε Machine Unit) pushScope fun _ => 0 :=
  .skip keeps_scope fun _ => .skip (keeps_newScope _) fun _ =>
    keeps_thread fun _ => ⟨rfl, rfl, rfl⟩

theorem keeps_popScope : Keeps 0 (popScope : EStateM ε Machine Unit) popScope fun _ => 0 := by
  refine .skip keeps_scope fun _ => .skip (keeps_ask _) fun outer => ?_
  split
  · exact .skip (keeps_thread fun _ => ⟨rfl, rfl, rfl⟩) fun _ => keeps_clear _
  · exact .pure (.refl _)

/-! ### Attributes and items -/

theorem keeps_bindMember (receiver : Ref .object) (member : Value) (owner : Ref .blueprint) :
    Keeps {.seen member} (bindMember (.object receiver) member owner)
      (bindMember (.object receiver) member owner) Held.hand := by
  unfold bindMember
  split
  · exact .of_gives (.drop _) (.bind (keeps_newMethod _ rfl) fun _ => .pure (.refl _))
  · exact .pure (.refl _)

theorem keeps_findMember (r : Ref .blueprint) (name : String) :
    Keeps 0 (ask fun w => w.findMember r name : EStateM ε Machine (Option (Value × Ref .blueprint)))
      (ask fun w => w.findMember r name) fun found => seenHand (found.map (·.1)) :=
  keeps_askFor _ _ fun w R hw => by
    rw [add_zero] at hw
    cases hv : w.findMember r name with
    | none => exact hw.of_gives (.of_eq (add_zero _).symm)
    | some found => exact hw.look (World.mem_opened_of_member hv)

theorem keeps_objectAttribute? (r : Ref .object) (name : String) :
    Keeps 0 (objectAttribute? r name) (objectAttribute? r name) foundHand := by
  have looked : Keeps 0 (ask fun w => w.objects.get r : Eval Object) (ask fun w => w.objects.get r)
      fun o => seenHand (o.attrs.get? name) :=
    keeps_askFor _ _ fun w R hw => by
      rw [add_zero] at hw
      cases hv : (w.objects.get r).attrs.get? name with
      | none => exact hw.of_gives (.of_eq (add_zero _).symm)
      | some v => exact hw.look (World.mem_opened_of_attribute hv)
  refine .bind looked fun o => ?_
  cases o.attrs.get? name with
  | some v => exact .pure (.refl _)
  | none =>
    refine .bind (keeps_findMember _ _) fun found => ?_
    cases found with
    | none => exact .pure (.refl _)
    | some found => exact .bind (keeps_bindMember r _ _) fun _ => .pure (.refl _)

/-- A part of a dictionary is as much one's own as all of it. -/
theorem keeps_entry {target : Held} {r : Ref .dict} (ht : target.value = .dict r) (name : String) :
    Keeps target.hand (ask fun w => (w.heap.dict r).get? name : Eval (Option Value))
      (ask fun w => (w.heap.dict r).get? name) fun found => foundHand (found.map target.part) :=
  keeps_askFor _ _ fun w R hw => by
    cases hv : (w.heap.dict r).get? name with
    | none => exact hw.of_gives (.frame R (.drop _))
    | some v => exact hw.part (ht ▸ Heap.mem_inside_dict hv)

/-- The method that adds items to an array. -/
theorem keeps_appendMethod (r : Ref .array) : Keeps {.seen (.array r)} (do
      let f ← onWorld fun w =>
        (w.functions.next, { w with functions := w.functions.push ⟨"append", .native .append⟩ })
      return some (.fresh (← newMethod ⟨.array r, f, none⟩)) : Eval (Option Held)) (do
      let f ← onWorld fun w =>
        (w.functions.next, { w with functions := w.functions.push ⟨"append", .native .append⟩ })
      return some (.fresh (← newMethod ⟨.array r, f, none⟩))) foundHand := by
  intro m R hm
  refine .ok rfl (hm.onWorld (fun S hw => ?_) fun _ => id)
  have pushed : ({ m.world with functions := m.world.functions.push ⟨"append", .native .append⟩ } :
      World).Safe (S + R + {.seen (.array r)}) :=
    World.Safe.pushFunction (by simpa [Function.hand, add_assoc] using hw)
  have bound := (pushed.pushMethod (m := ⟨.array r, m.world.functions.next, none⟩)
    (.inr ⟨_, _, Arena.get?_push_next _ _, rfl⟩)).add_flat (v := .method m.world.methods.next) rfl
  rwa [add_assoc] at bound

theorem keeps_findAttribute? (target : Held) (name : String) :
    Keeps target.hand (findAttribute? target name) (findAttribute? target name) foundHand := by
  unfold findAttribute?
  split
  · refine .of_gives (.drop _) (.ite ?_ (keeps_objectAttribute? _ _))
    exact .skip (keeps_ask _) fun _ => .pure (.of_flat rfl)
  · refine .of_gives (.drop _) (.ite (.skip (keeps_ask _) fun _ => .pure (.of_flat rfl)) ?_)
    refine .bind (keeps_findMember _ _) fun found => .pure (.of_eq ?_)
    cases found <;> rfl
  · refine .of_gives (.drop _) (.skip (keeps_ask _) fun p => .bind (keeps_findMember _ _) fun found => ?_)
    cases found with
    | none => exact .pure (.refl _)
    | some found => exact .bind (keeps_bindMember _ _ _) fun _ => .pure (.refl _)
  · rename_i r ht
    exact .bind (keeps_entry ht name) fun _ => .pure (.refl _)
  · rename_i r ht
    split
    · refine .of_gives ?_ (keeps_appendMethod r)
      -- an array that was held as new is a container of the session once a method of it is bound
      cases target with
      | fresh v =>
        obtain rfl : v = .array r := ht
        exact .reveal _
      | view v =>
        obtain rfl : v = .array r := ht
        exact .refl _
    · exact .of_gives (.drop _) (.skip (keeps_ask _) fun _ => .pure (.of_flat rfl))
    · exact .pure (.drop _)
  · exact .pure (.drop _)

theorem keeps_readAttribute (target : Held) (name : String) (site : Token) :
    Keeps target.hand (readAttribute target name site) (readAttribute target name site) Held.hand := by
  refine .bind (keeps_findAttribute? _ _) fun found => ?_
  split
  · exact .pure (.refl _)
  · exact .skip (keeps_ask _) fun _ => keeps_complain _ _

theorem part_of_itemOf {w : World} {target held : Held} {index : Value}
    (h : itemOf w target index = .ok held) (hw : w.Safe (H + target.hand)) :
    w.Safe (H + held.hand) := by
  -- an array and a tuple alike: the item stands in the container, so it is a part of it
  have sequence {items : Array Value} {i : Int}
      (hi : ∀ v ∈ items.toList, v ∈ w.heap.inside target.value)
      (h : (sequenceItem items i).map target.part = .ok held) : w.Safe (H + held.hand) := by
    unfold sequenceItem at h
    split at h
    · rename_i v hv
      obtain rfl := Except.ok.inj h
      obtain ⟨slot, -, hs⟩ := Option.bind_eq_some_iff.1 hv
      exact hw.part (hi v (List.mem_of_getElem? (Array.getElem?_toList.trans hs)))
    · contradiction
  unfold itemOf at h
  split at h
  · rename_i r i ht
    exact sequence (fun v hv => ht ▸ Heap.mem_inside_array hv) h
  · rename_i r i ht
    exact sequence (fun v hv => ht ▸ Heap.mem_inside_tuple hv) h
  · dsimp only at h
    split at h
    · obtain rfl := Except.ok.inj h
      exact hw.of_gives (.frame H (.of_flat rfl))
    · contradiction
  any_goals contradiction
  rename_i r key ht
  split at h
  · rename_i v hv
    obtain rfl := Except.ok.inj h
    exact hw.part (ht ▸ Heap.mem_inside_dict hv)
  · contradiction

theorem keeps_readItem (target : Held) (index : Value) (site : Token) :
    Keeps target.hand (readItem target index site) (readItem target index site) Held.hand :=
  .bind (keeps_askFor _ (Keeps.handedOn Held.hand) fun w R hw => by
    cases h : itemOf w target index with
    | ok held => exact part_of_itemOf h hw
    | error c => exact hw.of_gives (.frame R (.drop _))) fun _ => keeps_orComplain _ _

/-- Something is put where it may be come upon. -/
theorem keeps_put {u v : Value} {f : Heap → Heap} (hu : u.box? ≠ none) (hf : ∀ h : Heap, h.Puts (f h) u v) :
    Keeps ({.seen u} + {.owned v}) (onHeap fun h => ((), f h) : EStateM ε Machine Unit)
      (onHeap fun h => ((), f h)) fun _ => 0 :=
  keeps_onWorld (fun _ _ => id) fun w R hw => hw.onHeap fun S hg => by
    rw [add_zero]
    exact Heap.Grants.put (hf w.heap) hu (by simpa only [add_assoc] using hg)

theorem keeps_storeAttribute (target : Value) (name : String) (v : Value) (site : Token) :
    Keeps ({.seen target} + {.owned v}) (storeAttribute target name v site)
      (storeAttribute target name v site) fun _ => 0 := by
  have stored : Hand.Gives ({.seen target} + {.owned v}) {.owned v} :=
    .of_le (Multiset.le_add_left _ _)
  unfold storeAttribute
  split
  · refine .of_gives stored (keeps_modifyWorld (fun _ _ => id) fun w R hw => ?_)
    rw [add_zero]
    exact hw.setAttribute _ _
  · exact .of_gives stored (.skip (keeps_ask _) fun _ => keeps_defineIn _ _ _)
  · exact keeps_put (by simp [Value.box?]) fun h => Heap.puts_dict _ _
  · exact keeps_complain _ _

theorem keeps_storeItem (target index v : Value) (site : Token) :
    Keeps ({.seen target} + {.owned v}) (storeItem target index v site)
      (storeItem target index v site) fun _ => 0 := by
  unfold storeItem
  split
  · refine .skip (keeps_ask _) fun length => ?_
    split
    · refine keeps_put (by simp [Value.box?]) fun h => Heap.puts_array _ fun items => ?_
      rw [Array.toList_modify]
      exact List.coe_modify_le _ _ _
    · exact keeps_complain _ _
  · exact keeps_complain _ _
  · exact keeps_put (by simp [Value.box?]) fun h => Heap.puts_dict _ _
  all_goals exact keeps_complain _ _

theorem keeps_superProxy (site : Token) :
    Keeps 0 (superProxy site) (superProxy site) Held.hand := by
  refine .skip keeps_mode fun mode => ?_
  split
  · exact keeps_complain _ _
  · refine .bind (keeps_lookup _) fun v => .of_gives (.drop _) ?_
    split
    · rename_i receiver
      refine .skip (keeps_ask _) fun b => ?_
      split
      · exact keeps_complain _ _
      · rename_i start _
        refine keeps_onWorld (fun _ _ => id) fun w R hw => ?_
        rw [add_zero] at hw
        have pushed : ({ w with proxies := w.proxies.push ⟨receiver, start⟩ } : World).Safe R :=
          hw.of_same rfl rfl rfl rfl rfl rfl rfl
        exact pushed.add_flat (v := .proxy w.proxies.next) rfl
    · exact keeps_complain _ _

end Eval
end Rewind
