/-
What does not depend on the place.

Only the pieces of the evaluator that read tokens look at the cursor.  Everything that is done with
values in between has the same result wherever the cursor stands, and leaves it there; and the token
an error would be reported at makes no difference unless there is one.  A callee and a coroutine run
on cursors of their own, and the thread that waits for them is held without its cursor.

* `Placeless` — from wherever the cursor stands, a computation that comes to its end is followed by
  another one, which differs from it in the tokens of its errors only;
* `CallArgs.Alike` — the same arguments, written somewhere else;
* `placeless_readAttribute`, `placeless_superProxy`, … — access;
* `placeless_callScript`, `placeless_weave`, `placeless_render` — calls, loops, and the text of a
  value;
* `placeless_embedded` — the code of a hole;
* `placeless_jobs` — any call.
-/
import Rewind.Proofs.Walk

namespace Rewind

open Eval

/-- Wherever the cursor stands, `x'` ends as `x` does if that comes to its end, and the cursor is left
there. -/
def Placeless {ε α : Type} (x x' : EStateM ε Machine α) : Prop :=
  ∀ m c a m₁, x m = .ok a m₁ →
    m₁.thread.cursor = m.thread.cursor ∧ x' (m.moved c) = .ok a (m₁.moved c)

/-- The same arguments; the tokens of their names may stand somewhere else. -/
structure CallArgs.Alike (args args' : CallArgs) : Prop where
  positional : args'.positional = args.positional
  named : List.Forall₂ (fun a a' => a'.1 = a.1 ∧ a'.2.1 = a.2.1) args.named args'.named

namespace CallArgs.Alike

variable {args args' : CallArgs}

theorem refl (args : CallArgs) : args.Alike args :=
  ⟨rfl, List.forall₂_same.2 fun _ _ => ⟨rfl, rfl⟩⟩

theorem values (h : args.Alike args') : args'.values = args.values := by
  rw [CallArgs.values, CallArgs.values, h.positional]
  have rows := h.named
  generalize args.named = named at rows ⊢
  generalize args'.named = named' at rows ⊢
  refine congrArg (List.append _) ?_
  induction rows with
  | nil => rfl
  | cons hv _ ih => rw [List.map_cons, List.map_cons, hv.2, ih]

theorem isEmpty (h : args.Alike args') : args'.named.isEmpty = args.named.isEmpty := by
  have rows := h.named
  generalize args.named = named at rows ⊢
  generalize args'.named = named' at rows ⊢
  cases rows <;> rfl

theorem addNamed (h : args.Alike args') (name : String) (v : Value) (t t' : Token) :
    ({ args with named := args.named ++ [(name, v, t)] } : CallArgs).Alike
      { args' with named := args'.named ++ [(name, v, t')] } :=
  ⟨h.positional, List.rel_append h.named (.cons ⟨rfl, rfl⟩ .nil)⟩

end CallArgs.Alike

variable {ε α β : Type}

namespace Placeless

/-- A computation that never comes to its end is followed by any other one. -/
theorem stops {x x' : EStateM ε Machine α} (h : ∀ m a m₁, x m ≠ .ok a m₁) : Placeless x x' :=
  fun m _ a m₁ hx => absurd hx (h m a m₁)

theorem stop (e : ε) (x' : EStateM ε Machine α) : Placeless (throw e) x' :=
  .stops fun _ _ _ h => nomatch h

/-- A computation that always comes to its end. -/
theorem total {x x' : EStateM ε Machine α} (h : ∀ m c, ∃ a m₁, x m = .ok a m₁ ∧
    m₁.thread.cursor = m.thread.cursor ∧ x' (m.moved c) = .ok a (m₁.moved c)) : Placeless x x' := by
  intro m c a m₁ hx
  obtain ⟨b, m₂, hx', stays, moved⟩ := h m c
  obtain ⟨rfl, rfl⟩ := EStateM.Result.ok.inj (hx'.symm.trans hx)
  exact ⟨stays, moved⟩

theorem pure (a : α) : Placeless (Pure.pure a : EStateM ε Machine α) (Pure.pure a) :=
  .total fun _ _ => ⟨_, _, rfl, rfl, rfl⟩

theorem bind {x x' : EStateM ε Machine α} {f f' : α → EStateM ε Machine β} (hx : Placeless x x')
    (hf : ∀ a, Placeless (f a) (f' a)) : Placeless (x >>= f) (x' >>= f') := by
  intro m c b m₂ h
  obtain ⟨a, m₁, hxm, hfm⟩ := ok_of_bind h
  obtain ⟨stays, hx'⟩ := hx m c a m₁ hxm
  obtain ⟨stays', hf'⟩ := hf a m₁ c b m₂ hfm
  exact ⟨stays'.trans stays, (bind_of_ok hx').trans hf'⟩

/-- What stops in front of the rest stops. -/
theorem stop_bind {x : EStateM ε Machine α} (h : ∀ m a m₁, x m ≠ .ok a m₁)
    (f : α → EStateM ε Machine β) (x' : EStateM ε Machine β) : Placeless (x >>= f) x' :=
  .stops fun _ _ _ hr =>
    have ⟨_, _, hx, _⟩ := ok_of_bind hr
    h _ _ _ hx

theorem ite {p : Prop} [Decidable p] {x x' y y' : EStateM ε Machine α} (hx : Placeless x x')
    (hy : Placeless y y') : Placeless (if p then x else y) (if p then x' else y') := by
  split
  · exact hx
  · exact hy

/-- A check before the rest of a computation. -/
theorem guard {p : Prop} [Decidable p] {x x' : EStateM ε Machine PUnit}
    {f f' : PUnit → EStateM ε Machine β} (hx : Placeless x x') (hf : Placeless (f ⟨⟩) (f' ⟨⟩)) :
    Placeless (if p then x >>= f else f ⟨⟩) (if p then x' >>= f' else f' ⟨⟩) :=
  .ite (.bind hx fun _ => hf) hf

/-- A computation that has all of the machine at hand, wherever its cursor stands. -/
theorem get_bind {f f' : Machine → EStateM ε Machine β}
    (hf : ∀ m c, Placeless (f m) (f' (m.moved c))) : Placeless (get >>= f) (get >>= f') :=
  fun m c b m₂ h => hf m c m c b m₂ h

theorem lift {x x' : Run α} (hx : Placeless x x') : Placeless (liftM x : Eval α) (liftM x') := by
  intro m c a m₁ h
  rw [Quiet.run_lift] at h ⊢
  cases hr : x m with
  | error f m₂ => rw [hr] at h; contradiction
  | ok b m₂ =>
    rw [hr] at h
    obtain ⟨rfl, rfl⟩ := EStateM.Result.ok.inj h
    obtain ⟨stays, hx'⟩ := hx m c b m₂ hr
    exact ⟨stays, by rw [hx']⟩

theorem mapM {f f' : α → EStateM ε Machine β} (hf : ∀ a, Placeless (f a) (f' a)) (l : List α) :
    Placeless (l.mapM f) (l.mapM f') := by
  induction l with
  | nil => exact .pure _
  | cons a l ih =>
    rw [List.mapM_cons, List.mapM_cons]
    exact .bind (hf a) fun _ => .bind ih fun _ => .pure _

/-- What hands on its exceptions ends as it does without one. -/
theorem attempt_bind {x x' : Eval α} (hx : Placeless x x') {f f' : Attempt α → Eval β}
    (hf : ∀ a, Placeless (f (.value a)) (f' (.value a)))
    (hraised : ∀ r m b m₁, f (.raised r) m ≠ .ok b m₁)
    (hsuspended : ∀ m b m₁, f .suspended m ≠ .ok b m₁) :
    Placeless ((liftM (attempt x) : Eval (Attempt α)) >>= f) ((liftM (attempt x')) >>= f') := by
  intro m c b m₂ h
  obtain ⟨result, m₁, run, h⟩ := ok_of_bind h
  rw [Quiet.run_lift] at run
  unfold attempt at run
  -- the run does not stop, so what was attempted has come to a value
  cases hxm : x m with
  | ok a m₀ =>
    rw [hxm] at run
    obtain ⟨rfl, rfl⟩ := EStateM.Result.ok.inj run
    obtain ⟨stays, hx'⟩ := hx m c a m₀ hxm
    obtain ⟨stays', hf'⟩ := hf a m₀ c b m₂ h
    have run' : (liftM (attempt x') : Eval (Attempt α)) (m.moved c) = .ok (.value a) (m₀.moved c) := by
      rw [Quiet.run_lift]
      unfold attempt
      rw [hx']
    exact ⟨stays'.trans stays, (bind_of_ok run').trans hf'⟩
  | error e m₀ =>
    rw [hxm] at run
    cases e with
    | raised r =>
      obtain ⟨rfl, rfl⟩ := EStateM.Result.ok.inj run
      exact absurd h (hraised _ _ _ _)
    | suspended =>
      obtain ⟨rfl, rfl⟩ := EStateM.Result.ok.inj run
      exact absurd h (hsuspended _ _ _)
    | fault f => exact nomatch run

/-- What runs a computation on a machine made of `m`, and puts the machine right afterwards. -/
theorem around {enclosed enclosed' x x' : EStateM ε Machine α} (enter : Machine → Machine)
    (leave : Machine → Machine → Machine)
    (hin : ∀ m c, (enter m).moved c = enter (m.moved c))
    (hout : ∀ m m' c, (leave m m').moved c = leave (m.moved c) (m'.moved c))
    (hstays : ∀ m m', m'.thread.cursor = (enter m).thread.cursor →
      (leave m m').thread.cursor = m.thread.cursor)
    (hok : ∀ m a m', enclosed m = .ok a m' → ∃ m₁, x (enter m) = .ok a m₁ ∧ m' = leave m m₁)
    (hok' : ∀ m a m', x' (enter m) = .ok a m' → enclosed' m = .ok a (leave m m'))
    (hx : Placeless x x') : Placeless enclosed enclosed' := by
  intro m c a m' h
  obtain ⟨m₁, run, rfl⟩ := hok m a m' h
  obtain ⟨stays, run'⟩ := hx _ c a m₁ run
  rw [hin] at run'
  exact ⟨hstays m m₁ stays, by rw [hok' _ _ _ run', hout]⟩

theorem pinning (p : Pin) {x x' : EStateM ε Machine α} (hx : Placeless x x') :
    Placeless (Eval.pinning p x) (Eval.pinning p x') := by
  refine .around (fun m => { m with pinned := p :: m.pinned })
    (fun m m' => { m' with pinned := m.pinned }) (fun _ _ => rfl) (fun _ _ _ => rfl)
    (fun _ _ h => h) (fun m a m' h => ?_) (fun m a m' h => ?_) hx
  · simp only [Eval.pinning] at h
    split at h
    · obtain ⟨rfl, rfl⟩ := EStateM.Result.ok.inj h
      exact ⟨_, ‹_›, rfl⟩
    · contradiction
  · simp only [Eval.pinning, h]

theorem holding (vs : List Value) {x x' : EStateM ε Machine α} (hx : Placeless x x') :
    Placeless (Eval.holding vs x) (Eval.holding vs x') := .pinning _ hx

end Placeless

namespace Eval

/-! ### Steps -/

theorem exhausted_ne_ok (m : Machine) (a : α) (m₁ : Machine) :
    (liftM (exhausted : Run α) : Eval α) m ≠ .ok a m₁ := nofun

theorem fail_ne_ok (f : Failure) (m : Machine) (a : α) (m₁ : Machine) :
    (liftM (fail f : Run α) : Eval α) m ≠ .ok a m₁ := nofun

theorem complain_ne_ok (complaint : Complaint) (site : Token) (m : Machine) (a : α) (m₁ : Machine) :
    (complain complaint site : Eval α) m ≠ .ok a m₁ := nofun

theorem placeless_fail (f : Failure) (x' : Eval α) :
    Placeless (liftM (fail f : Run α) : Eval α) x' := .stops (fail_ne_ok f)

theorem placeless_malformed (issue : SyntaxIssue) (site : Token) (x' : Eval α) :
    Placeless (liftM (malformed issue site : Run α) : Eval α) x' := placeless_fail _ _

theorem placeless_complain (complaint : Complaint) (site : Token) (x' : Eval α) :
    Placeless (complain complaint site) x' := .stops (complain_ne_ok complaint site)

theorem placeless_orComplain (site site' : Token) (x : Except Complaint α) :
    Placeless (orComplain site x) (orComplain site' x) := by
  cases x with
  | ok a => exact .pure a
  | error complaint => exact placeless_complain _ _ _

theorem placeless_ask (f : World → α) : Placeless (ask f : EStateM ε Machine α) (ask f) :=
  .total fun _ _ => ⟨_, _, rfl, rfl, rfl⟩

theorem placeless_onWorld (f : World → α × World) :
    Placeless (onWorld f : EStateM ε Machine α) (onWorld f) :=
  .total fun _ _ => ⟨_, _, rfl, rfl, rfl⟩

theorem placeless_onHeap (f : StateM Heap α) :
    Placeless (onHeap f : EStateM ε Machine α) (onHeap f) := placeless_onWorld _

theorem placeless_modifyWorld (f : World → World) :
    Placeless (modifyWorld f : EStateM ε Machine Unit) (modifyWorld f) := placeless_onWorld _

theorem placeless_own (h : Held) : Placeless (own h : EStateM ε Machine Value) (own h) :=
  placeless_onHeap _

theorem placeless_truthy (h : Held) :
    Placeless (truthy h : EStateM ε Machine Bool) (truthy h) := placeless_ask _

theorem placeless_newFunction (f : Function) :
    Placeless (newFunction f : EStateM ε Machine Value) (newFunction f) := placeless_onWorld _

theorem placeless_newMethod (b : Method) :
    Placeless (newMethod b : EStateM ε Machine Value) (newMethod b) := placeless_onWorld _

theorem placeless_newScope (parent : Option (Ref .scope)) :
    Placeless (newScope parent : EStateM ε Machine (Ref .scope)) (newScope parent) :=
  placeless_onWorld _

theorem placeless_modify {f : Machine → Machine} (hf : ∀ m, (f m).thread.cursor = m.thread.cursor)
    (hf' : ∀ m c, f (m.moved c) = (f m).moved c) :
    Placeless (modify f : EStateM ε Machine PUnit) (modify f) :=
  .total fun m c => ⟨_, _, rfl, hf m, congrArg (EStateM.Result.ok PUnit.unit) (hf' m c)⟩

theorem placeless_newCoroutine (name : String) (kind : CoroutineKind) (scope : Option (Ref .scope)) :
    Placeless (newCoroutine name kind scope : EStateM ε Machine (Ref .coroutine))
      (newCoroutine name kind scope) :=
  .bind (placeless_modify (fun _ => rfl) fun _ _ => rfl) fun _ =>
    .get_bind fun _ _ => placeless_onWorld _

theorem placeless_emit (text : String) :
    Placeless (emit text : EStateM ε Machine Unit) (emit text) :=
  placeless_modify (fun _ => rfl) fun _ _ => rfl

theorem placeless_isSkipping : Placeless (isSkipping : EStateM ε Machine Bool) isSkipping :=
  .total fun _ _ => ⟨_, _, rfl, rfl, rfl⟩

theorem placeless_mode : Placeless (mode : EStateM ε Machine Mode) mode :=
  .total fun _ _ => ⟨_, _, rfl, rfl, rfl⟩

theorem placeless_scope : Placeless (scope : EStateM ε Machine (Ref .scope)) scope :=
  .total fun _ _ => ⟨_, _, rfl, rfl, rfl⟩

/-! ### Names, attributes and items -/

theorem placeless_resolve (name : String) :
    Placeless (resolve name : EStateM ε Machine (Option (Ref .scope))) (resolve name) := by
  refine .bind placeless_scope fun r => .bind (placeless_ask _) fun found => ?_
  split
  · exact .pure _
  · refine .bind (placeless_ask _) fun b => ?_
    split
    · exact .pure _
    · refine .bind placeless_mode fun _ => .bind (placeless_ask _) fun _ => .ite (.pure _) ?_
      refine .get_bind fun m c => .bind (placeless_ask _) fun _ => .ite (.pure _) ?_
      exact .bind (placeless_modifyWorld _) fun _ => placeless_ask _

theorem placeless_lookup (name : String) :
    Placeless (lookup name : EStateM ε Machine (Option Value)) (lookup name) := by
  refine .bind (placeless_resolve name) fun r => ?_
  split
  · exact placeless_ask _
  · exact .pure _

theorem placeless_bindMember (receiver member : Value) (owner : Ref .blueprint) :
    Placeless (bindMember receiver member owner) (bindMember receiver member owner) := by
  unfold bindMember
  split
  · exact .bind (placeless_newMethod _) fun _ => .pure _
  · exact .pure _

theorem placeless_objectAttribute? (r : Ref .object) (name : String) :
    Placeless (objectAttribute? r name) (objectAttribute? r name) := by
  refine .bind (placeless_ask _) fun o => ?_
  split
  · exact .pure _
  · refine .bind (placeless_ask _) fun found => ?_
    split
    · exact .bind (placeless_bindMember _ _ _) fun _ => .pure _
    · exact .pure _

theorem placeless_findAttribute? (target : Held) (name : String) :
    Placeless (findAttribute? target name) (findAttribute? target name) := by
  unfold findAttribute?
  split
  · exact .ite (.bind (placeless_ask _) fun _ => .pure _) (placeless_objectAttribute? _ _)
  · exact .ite (.bind (placeless_ask _) fun _ => .pure _) (.bind (placeless_ask _) fun _ => .pure _)
  · refine .bind (placeless_ask _) fun p => .bind (placeless_ask _) fun found => ?_
    split
    · exact .bind (placeless_bindMember _ _ _) fun _ => .pure _
    · exact .pure _
  · exact .bind (placeless_ask _) fun _ => .pure _
  · split
    · exact .bind (placeless_onWorld _) fun _ => .bind (placeless_newMethod _) fun _ => .pure _
    · exact .bind (placeless_ask _) fun _ => .pure _
    · exact .pure _
  · exact .pure _

theorem placeless_readAttribute (target : Held) (name : String) (site site' : Token) :
    Placeless (readAttribute target name site) (readAttribute target name site') := by
  refine .bind (placeless_findAttribute? _ _) fun found => ?_
  split
  · exact .pure _
  · exact .bind (placeless_ask _) fun _ => placeless_complain _ _ _

theorem placeless_readItem (target : Held) (index : Value) (site site' : Token) :
    Placeless (readItem target index site) (readItem target index site') :=
  .bind (placeless_ask _) fun _ => placeless_orComplain _ _ _

theorem placeless_superProxy (site site' : Token) :
    Placeless (superProxy site) (superProxy site') := by
  refine .bind placeless_mode fun mode => ?_
  split
  · exact placeless_complain _ _ _
  · refine .bind (placeless_lookup _) fun v => ?_
    split
    · refine .bind (placeless_ask _) fun b => ?_
      split
      · exact placeless_complain _ _ _
      · exact placeless_onWorld _
    · exact placeless_complain _ _ _

/-! ### Calls -/

/-- What `x` comes to, `x'` comes to as well. -/
def Complies {ε σ α : Type} (x x' : EStateM ε σ α) : Prop := ∀ s a s₁, x s = .ok a s₁ → x' s = .ok a s₁

namespace Complies

variable {σ : Type}

theorem refl (x : EStateM ε σ α) : Complies x x := fun _ _ _ h => h

theorem stop (e : ε) (x' : EStateM ε σ α) : Complies (throw e) x' := fun _ _ _ h => nomatch h

theorem bind {x x' : EStateM ε σ α} {f f' : α → EStateM ε σ β} (hx : Complies x x')
    (hf : ∀ a, Complies (f a) (f' a)) : Complies (x >>= f) (x' >>= f') := by
  intro s b s₂ h
  change EStateM.bind x f s = _ at h
  show EStateM.bind x' f' s = _
  unfold EStateM.bind at h ⊢
  split at h
  · rw [hx _ _ _ ‹_›]
    exact hf _ _ _ _ h
  · contradiction

theorem guard {p : Prop} [Decidable p] {x x' : EStateM ε σ PUnit} {f f' : PUnit → EStateM ε σ β}
    (hx : Complies x x') (hf : Complies (f ⟨⟩) (f' ⟨⟩)) :
    Complies (if p then x >>= f else f ⟨⟩) (if p then x' >>= f' else f' ⟨⟩) := by
  split
  · exact .bind hx fun _ => hf
  · exact hf

end Complies

theorem complies_bindNamed (function : String) (params : List Param) (given : Nat) (r : Ref .scope)
    {named named' : List (String × Value × Token)}
    (h : List.Forall₂ (fun a a' => a'.1 = a.1 ∧ a'.2.1 = a.2.1) named named') :
    Complies (bindNamed function params given r named) (bindNamed function params given r named') := by
  induction h with
  | nil => exact .refl _
  | @cons a a' named named' ha _ ih =>
    obtain ⟨name, v, site⟩ := a
    obtain ⟨name', v', site'⟩ := a'
    obtain ⟨rfl, rfl⟩ : name' = name ∧ v' = v := ha
    simp only [bindNamed]
    split
    · exact .stop _ _
    · exact .bind (.refl _) fun w => .guard (.stop _ _) (.bind (.refl _) fun _ => ih)

theorem complies_bindDefaults (function : String) (r : Ref .scope) (site site' : Token)
    (params : List Param) :
    Complies (bindDefaults function r site params) (bindDefaults function r site' params) := by
  induction params with
  | nil => exact .refl _
  | cons p params ih =>
    simp only [bindDefaults]
    refine .bind (.refl _) fun w => ?_
    split
    · split
      · exact .bind (.refl _) fun _ => .bind (.refl _) fun _ => ih
      · exact .bind (.stop _ _) fun _ => ih
    · exact ih

/-- Arguments are bound in the same way wherever they were written. -/
theorem complies_bindArguments (function : String) (params : List Param) (r : Ref .scope)
    (receiver : Option Value) {args args' : CallArgs} (h : args.Alike args') (site site' : Token) :
    Complies (bindArguments function params r receiver args site)
      (bindArguments function params r receiver args' site') := by
  obtain ⟨positional, named⟩ := args
  obtain ⟨positional', named'⟩ := args'
  obtain ⟨rfl, named⟩ : positional' = positional ∧ _ := ⟨h.positional, h.named⟩
  have bound (params : List Param) : Complies (do
      modify (·.onScopes fun s =>
        (params.zip positional').foldl (fun s x => s.define r x.1.name x.2) s)
      bindNamed function params positional'.length r _
      bindDefaults function r site params : EStateM Objection World Unit) (do
      modify (·.onScopes fun s =>
        (params.zip positional').foldl (fun s x => s.define r x.1.name x.2) s)
      bindNamed function params positional'.length r named'
      bindDefaults function r site' params) :=
    .bind (.refl _) fun _ => .bind (complies_bindNamed _ _ _ _ named) fun _ => complies_bindDefaults _ _ _ _ _
  unfold bindArguments
  dsimp only
  generalize openParams params receiver = params
  split
  · exact .bind (.refl _) fun _ => .guard (.stop _ _) (bound params)
  · exact .guard (.stop _ _) (bound params)

theorem placeless_argumentScope (f : Function) (body : Script) (receiver : Option Value)
    {args args' : CallArgs} (h : args.Alike args') (site site' : Token) :
    Placeless (argumentScope f body receiver args site)
      (argumentScope f body receiver args' site') := by
  refine .bind (placeless_newScope _) fun r => ?_
  intro m c a m₁ hr
  obtain ⟨result, m₂, hb, hr⟩ := ok_of_bind hr
  -- had an argument not been bound, the run would have stopped with a complaint
  cases bound : bindArguments f.name body.params r receiver args site m.world with
  | error e w =>
    rw [tryWorld, onWorld, bound] at hb
    obtain ⟨rfl, rfl⟩ := EStateM.Result.ok.inj hb
    exact nomatch hr
  | ok u w =>
    have bound' := complies_bindArguments _ _ _ _ h site site' _ _ _ bound
    rw [tryWorld, onWorld, bound] at hb
    obtain ⟨rfl, rfl⟩ := EStateM.Result.ok.inj hb
    obtain ⟨rfl, rfl⟩ := EStateM.Result.ok.inj hr
    refine ⟨rfl, ?_⟩
    have tried : (tryWorld (bindArguments f.name body.params r receiver args' site') :
        Eval (Except Objection Unit)) (m.moved c) = .ok (.ok u) { m.moved c with world := w } := by
      show EStateM.Result.ok _ _ = _
      rw [show (m.moved c).world = m.world from rfl, bound']
    exact bind_of_ok tried

theorem placeless_resume (outcome : Outcome) : Placeless (resume outcome) (resume outcome) := by
  cases outcome with
  | ok v => exact .pure _
  | error r => exact .stop _ _

theorem placeless_replayed : Placeless replayed replayed := by
  refine .get_bind fun m c => .ite (.pure _) (.bind (placeless_onHeap _) fun taken => ?_)
  split
  · exact .bind (placeless_modify (fun _ => rfl) fun _ _ => rfl) fun _ => .pure _
  · exact .pure _

theorem placeless_settle (outcome : Outcome) : Placeless (settle outcome) (settle outcome) := by
  refine .get_bind fun m c => .ite ?_ (placeless_resume _)
  exact .bind (placeless_onHeap _) fun _ =>
    .bind (placeless_modify (fun _ => rfl) fun _ _ => rfl) fun _ => placeless_resume _

/-- An exception is raised whether it is recorded or not. -/
theorem settle_error_ne_ok {r : Raised} {m m₁ : Machine} {h : Held} :
    settle (.error r) m ≠ .ok h m₁ := by
  intro hr
  obtain ⟨m₀, _, -, hr⟩ := ok_of_bind hr
  dsimp only at hr
  split at hr
  · obtain ⟨copy, _, -, hr⟩ := ok_of_bind hr
    obtain ⟨_, _, -, hr⟩ := ok_of_bind hr
    exact nomatch hr
  · exact nomatch hr

/-- A body in a callee's place runs on a cursor of its own, and its caller is held without one. -/
theorem placeless_inCallee (cursor : Cursor) (r : Ref .scope) (mode : Mode) (x : Run α) :
    Placeless (inCallee cursor r mode x) (inCallee cursor r mode x) := by
  refine .total fun m c => ?_
  have same : calleeMachine (m.moved c) cursor r mode = calleeMachine m cursor r mode := rfl
  rw [inCallee_run, inCallee_run, same]
  cases x (calleeMachine m cursor r mode) with
  | ok a m' => exact ⟨_, _, rfl, rfl, rfl⟩
  | error f m' => exact ⟨_, _, rfl, rfl, rfl⟩

end Eval

/-- Any call has the same result from anywhere. -/
def Jobs.Placeless (j : Jobs) : Prop :=
  ∀ (callee : Value) {args args' : CallArgs} (_ : args.Alike args') (site site' : Token),
    Rewind.Placeless (j.invoke callee args site) (j.invoke callee args' site')

namespace Eval

section Jobs

variable (j : Jobs)

theorem placeless_callScript (r : Ref .function) (receiver : Option Value)
    (owner : Option (Ref .blueprint)) {args args' : CallArgs} (h : args.Alike args')
    (site site' : Token) :
    Placeless (callScript j r receiver owner args site) (callScript j r receiver owner args' site') := by
  refine .holding _ (.bind (placeless_ask _) fun f => ?_)
  split
  · exact placeless_fail _ _
  · refine .get_bind fun m c => ?_
    refine .guard (placeless_fail _ _) ?_
    refine .bind (placeless_argumentScope _ _ _ h _ _) fun callee => ?_
    split
    · exact placeless_fail _ _
    · -- the callee's cursor is that of its body, wherever the caller's is
      refine .bind (placeless_inCallee _ _ _ _) fun status => ?_
      split
      · exact .stop _ _
      · exact .pure _
      · exact .stop _ _
      · exact placeless_fail _ _
      · exact .pure _

theorem placeless_spawn (r : Ref .function) (receiver : Option Value)
    (owner : Option (Ref .blueprint)) {args args' : CallArgs} (h : args.Alike args')
    (site site' : Token) :
    Placeless (spawn r receiver owner args site) (spawn r receiver owner args' site') := by
  refine .bind (placeless_ask _) fun f => ?_
  split
  · exact placeless_fail _ _
  · exact .bind (placeless_argumentScope _ _ _ h _ _) fun _ =>
      .bind (placeless_newCoroutine _ _ _) fun _ => .pure _

theorem placeless_instantiate (r : Ref .blueprint) {args args' : CallArgs} (h : args.Alike args')
    (site site' : Token) :
    Placeless (instantiate j r args site) (instantiate j r args' site') := by
  refine .bind (placeless_modify (fun _ => rfl) fun _ _ => rfl) fun _ => ?_
  refine .get_bind fun m c => .bind (placeless_onWorld _) fun object => ?_
  refine .bind (placeless_ask _) fun name => .bind (placeless_ask _) fun init => ?_
  split
  · refine .bind (placeless_ask _) fun isAsync => .guard (placeless_malformed _ _ _) ?_
    exact .bind (.holding _ (placeless_callScript j _ _ _ h _ _)) fun _ => .pure _
  · rw [h.positional, h.isEmpty]
    exact .guard (placeless_complain _ _ _) (.pure _)

/-! ### The event loop -/

/-- What a loop gives does not depend on where the cursor stands, which is lost there: every turn has a
cursor of its own. -/
def Homeless {α : Type} (x : Run α) : Prop :=
  ∀ m c a m₁, x m = .ok a m₁ → ∃ c₁, x (m.moved c) = .ok a (m₁.moved c₁)

namespace Homeless

theorem of_placeless {x : Run α} (hx : Placeless x x) : Homeless x :=
  fun m c a m₁ h => ⟨c, (hx m c a m₁ h).2⟩

theorem bind {x : Run α} {f : α → Run β} (hx : Homeless x) (hf : ∀ a, Homeless (f a)) :
    Homeless (x >>= f) := by
  intro m c b m₂ h
  obtain ⟨a, m₁, hxm, hfm⟩ := ok_of_bind h
  obtain ⟨c₁, hx'⟩ := hx m c a m₁ hxm
  obtain ⟨c₂, hf'⟩ := hf a m₁ c₁ b m₂ hfm
  exact ⟨c₂, (bind_of_ok hx').trans hf'⟩

/-- Another thread has begun. -/
theorem switch (t : Thread) (f : Unit → Run β) : Homeless (modifyThread (fun _ => t) >>= f) :=
  fun _ _ _ m₁ h => ⟨m₁.thread.cursor, h⟩

end Homeless

theorem placeless_beginTurn (r : Ref .coroutine) : Placeless (beginTurn r) (beginTurn r) := by
  refine .bind (placeless_ask _) fun c => .ite (.pure _) ?_
  split
  · refine .ite (.bind (placeless_modifyWorld _) fun _ => .pure _) ?_
    split
    · exact .stop _ _
    · exact .bind (placeless_modifyWorld _) fun _ => .pure _
  · exact .pure _

theorem homeless_runTurn (r : Ref .coroutine) : Homeless (runTurn j r) := by
  refine .bind (.of_placeless (placeless_beginTurn r)) fun turn => ?_
  split
  · exact .of_placeless (.pure _)
  · refine .bind (.of_placeless (placeless_ask _)) fun f => ?_
    split
    · exact .of_placeless (.stop _ _)
    · split
      · exact .of_placeless (.stop _ _)
      · exact .switch _ _

theorem placeless_readClock : Placeless (readClock : EStateM ε Machine Nat) readClock :=
  .total fun _ _ => ⟨_, _, rfl, rfl, rfl⟩

theorem placeless_dequeue : Placeless dequeue dequeue := by
  refine .bind (placeless_ask _) fun ready => ?_
  split
  · exact .pure _
  · exact .bind (placeless_modifyWorld _) fun _ => .pure _

theorem homeless_drive (n : Nat) : Homeless (drive j n) := by
  induction n with
  | zero => exact .of_placeless (.stop _ _)
  | succ n ih =>
    refine .bind (.of_placeless placeless_readClock) fun _ =>
      .bind (.of_placeless (placeless_modifyWorld _)) fun _ =>
        .bind (.of_placeless placeless_dequeue) fun next => ?_
    split
    · exact .bind (homeless_runTurn j _) fun _ => ih
    · refine .bind (.of_placeless (placeless_ask _)) fun sleepers => ?_
      split
      · exact .of_placeless (.pure _)
      · exact .bind (.of_placeless (placeless_modifyWorld _)) fun _ => ih

theorem homeless_runLoop (n : Nat) (root : Ref .coroutine) : Homeless (runLoop j n root) := by
  refine .bind (.of_placeless (placeless_modifyWorld _)) fun _ => .bind (homeless_drive j n) fun _ => ?_
  exact .bind (.of_placeless (placeless_ask _)) fun c => .of_placeless (.ite (.stop _ _) (.pure _))

theorem placeless_checkArity (native : Native) (args : List Value) (least most : Nat)
    (site site' : Token) :
    Placeless (checkArity native args least most site) (checkArity native args least most site') :=
  .ite (placeless_complain _ _ _) (.pure _)

theorem placeless_coroutineArg (native : Native) (v : Value) (site site' : Token) :
    Placeless (coroutineArg native v site) (coroutineArg native v site') := by
  refine .bind (placeless_ask _) fun r => ?_
  split
  · exact .pure _
  · exact placeless_complain _ _ _

/-- What is left to do once the loop has come to its end. -/
theorem placeless_weaveResult (root : Ref .coroutine) : Placeless
    (do
      let c ← ask fun w => w.coroutines.get root
      match ← onHeap (Heap.duplicateOutcome c.outcome) with
      | .ok v => return .fresh v
      | .error r => fail (.workflow c.name (← ask fun w => w.text r.value)) : Eval Held)
    (do
      let c ← ask fun w => w.coroutines.get root
      match ← onHeap (Heap.duplicateOutcome c.outcome) with
      | .ok v => return .fresh v
      | .error r => fail (.workflow c.name (← ask fun w => w.text r.value))) := by
  refine .bind (placeless_ask _) fun c => .bind (placeless_onHeap _) fun outcome => ?_
  split
  · exact .pure _
  · exact .bind (placeless_ask _) fun _ => placeless_fail _ _

/-- A check that has been passed is no hindrance. -/
theorem passed_of_ok {p : Prop} [Decidable p] {complaint : Complaint} {site : Token}
    {f : Unit → Eval α} {m m₁ : Machine} {a : α}
    (h : (if p then complain complaint site >>= f else f ⟨⟩) m = .ok a m₁) : ¬p ∧ f ⟨⟩ m = .ok a m₁ := by
  split at h
  · exact nomatch h
  · exact ⟨‹_›, h⟩

/-- The thread that waits for a loop gets its cursor back. -/
theorem placeless_weave (n : Nat) (args : List Value) (site site' : Token) :
    Placeless (weave j n args site) (weave j n args site') := by
  refine .bind (placeless_checkArity _ _ _ _ _ _) fun _ =>
    .bind (placeless_coroutineArg _ _ _ _) fun root => ?_
  intro m c a m₁ h
  change (if (m.thread.driven || m.weaving) = true then _ else _ : Eval Held) m = _ at h
  -- the run does not stop: no loop runs, the root is new and nobody has cancelled it
  obtain ⟨alone, h⟩ := passed_of_ok h
  change (if (m.world.coroutines.get root).stage ≠ .new then _ else _ : Eval Held) m = _ at h
  obtain ⟨new, h⟩ := passed_of_ok h
  obtain ⟨awaited, h⟩ := passed_of_ok h
  show _ ∧ (if (m.thread.driven || m.weaving) = true then _ else _ : Eval Held) (m.moved c) = _
  rw [if_neg alone]
  show _ ∧ (if (m.world.coroutines.get root).stage ≠ .new then _ else _ : Eval Held) (m.moved c) = _
  rw [if_neg new]
  show _ ∧ (if (m.world.coroutines.get root).isCancelled = true then _ else _ : Eval Held) (m.moved c) = _
  rw [if_neg awaited]
  replace h := (weaveLoop_run j n root _ m).symm.trans h
  cases run : runLoop j n root { m with weaving := true, pinned := .thread m.thread.waiting :: m.pinned } with
  | error e m₂ =>
    rw [run] at h
    exact nomatch h
  | ok u m₂ =>
    rw [run] at h
    -- every turn of the loop sets a cursor of its own, and the caller's comes back behind it
    obtain ⟨c₁, run'⟩ := homeless_runLoop j n root _ c _ _ run
    obtain ⟨stays, result⟩ := placeless_weaveResult root _ c _ _ h
    refine ⟨stays, (weaveLoop_run j n root _ (m.moved c)).trans ?_⟩
    refine Eq.trans ?_ result
    rw [show ({ m.moved c with
      weaving := true, pinned := .thread (m.moved c).thread.waiting :: (m.moved c).pinned } : Machine) =
      ({ m with weaving := true, pinned := .thread m.thread.waiting :: m.pinned } : Machine).moved c
      from rfl, run']
    rfl

end Jobs

/-! ### The functions of the loop -/

theorem placeless_spawnTask (args : List Value) (site site' : Token) :
    Placeless (spawnTask args site) (spawnTask args site') := by
  refine .bind (placeless_checkArity _ _ _ _ _ _) fun _ =>
    .bind (placeless_coroutineArg _ _ _ _) fun task => ?_
  refine .bind (placeless_ask _) fun c => .guard (placeless_complain _ _ _) ?_
  refine .get_bind fun m c => .guard (placeless_complain _ _ _) ?_
  refine .bind (placeless_modifyWorld _) fun _ => ?_
  split <;> exact .pure _

theorem placeless_rest (args : List Value) (site site' : Token) :
    Placeless (rest args site) (rest args site') := by
  refine .bind (placeless_checkArity _ _ _ _ _ _) fun _ => ?_
  dsimp only
  split
  · exact placeless_complain _ _ _
  · refine .guard (placeless_complain _ _ _) ?_
    split
    · exact placeless_complain _ _ _
    · exact .bind placeless_readClock fun _ => .bind (placeless_newCoroutine _ _ _) fun _ => .pure _

theorem placeless_yieldNow (args : List Value) (site site' : Token) :
    Placeless (yieldNow args site) (yieldNow args site') :=
  .bind (placeless_checkArity _ _ _ _ _ _) fun _ => .bind placeless_readClock fun _ =>
    .bind (placeless_newCoroutine _ _ _) fun _ => .pure _

theorem placeless_returnExceptions (positional : Nat) {named named' : List (String × Value × Token)}
    (h : List.Forall₂ (fun a a' => a'.1 = a.1 ∧ a'.2.1 = a.2.1) named named') (chosen : Bool) :
    Placeless (returnExceptions positional named chosen)
      (returnExceptions positional named' chosen) := by
  induction h generalizing chosen with
  | nil => exact .pure _
  | @cons a a' named named' ha _ ih =>
    obtain ⟨name, v, site⟩ := a
    obtain ⟨name', v', site'⟩ := a'
    obtain ⟨rfl, rfl⟩ : name' = name ∧ v' = v := ha
    -- the place of the name is only used to complain of it
    have checked : Placeless (do
        if 1 < positional then complain .returnExceptionsTwice site
        returnExceptions positional named (← truthy (.view v')) : Eval Bool) (do
        if 1 < positional then complain .returnExceptionsTwice site'
        returnExceptions positional named' (← truthy (.view v'))) :=
      .guard (placeless_complain _ _ _) (.bind (placeless_truthy _) fun _ => ih _)
    exact .ite (.bind (placeless_complain _ _ _) fun _ => checked) checked

theorem placeless_gather {args args' : CallArgs} (h : args.Alike args') (site site' : Token) :
    Placeless (gather args site) (gather args' site') := by
  rw [gather, gather, h.positional]
  refine .bind (placeless_checkArity _ _ _ _ _ _) fun _ => ?_
  -- the children are read from the array, whatever place the call stands at
  have made (r : Ref .array) (chosen : Bool) : Placeless (do
      let tasks ← ask fun w => w.heap.array r
      let children ← tasks.toList.mapM fun v => coroutineArg .gather v site
      let state := GatherState.ofChildren children chosen
      return .fresh (.gather (← newCoroutine "gather_task" (.gather state) none)) : Eval Held) (do
      let tasks ← ask fun w => w.heap.array r
      let children ← tasks.toList.mapM fun v => coroutineArg .gather v site'
      let state := GatherState.ofChildren children chosen
      return .fresh (.gather (← newCoroutine "gather_task" (.gather state) none))) :=
    .bind (placeless_ask _) fun _ => .bind (.mapM (fun _ => placeless_coroutineArg _ _ _ _) _) fun _ =>
      .bind (placeless_newCoroutine _ _ _) fun _ => .pure _
  split
  all_goals cases args.positional[1]? with
  | some v => ?_
  | none => ?_
  · exact .bind (placeless_truthy _) fun _ =>
      .bind (placeless_returnExceptions _ h.named _) (made _)
  · exact .bind (.pure _) fun _ => .bind (placeless_returnExceptions _ h.named _) (made _)
  · exact .bind (placeless_truthy _) fun _ => .bind (placeless_returnExceptions _ h.named _) fun _ =>
      placeless_complain _ _ _
  · exact .bind (.pure _) fun _ => .bind (placeless_returnExceptions _ h.named _) fun _ =>
      placeless_complain _ _ _

theorem placeless_cancel (args : List Value) (site site' : Token) :
    Placeless (cancel args site) (cancel args site') := by
  refine .bind (placeless_checkArity _ _ _ _ _ _) fun _ =>
    .bind (placeless_coroutineArg _ _ _ _) fun task => ?_
  refine .get_bind fun m c => .ite ?_ ?_
  · exact .bind (placeless_onWorld _) fun _ => .pure _
  · exact .bind (placeless_onWorld _) fun _ => .pure _

theorem placeless_lengthOf (args : List Value) (site site' : Token) :
    Placeless (lengthOf args site) (lengthOf args site') := by
  refine .bind (placeless_checkArity _ _ _ _ _ _) fun _ => .bind (placeless_ask _) fun heap => ?_
  cases args.headD .null with
  | str | array | tuple | dict => exact .bind (.pure _) fun _ => .pure _
  | _ => exact .bind (placeless_complain _ _ _) fun _ => .pure _

theorem placeless_sliceText (args : List Value) (site site' : Token) :
    Placeless (sliceText args site) (sliceText args site') := by
  refine .bind (placeless_checkArity _ _ _ _ _ _) fun _ => ?_
  split
  · refine .bind (.mapM (fun v => ?_) _) fun bounds => ?_
    · unfold sliceIndex
      split
      · exact .pure _
      · exact placeless_complain _ _ _
    · split <;> exact .pure _
  · exact placeless_complain _ _ _

theorem placeless_append (receiver : Option Value) (args : List Value) (site site' : Token) :
    Placeless (append receiver args site) (append receiver args site') := by
  refine .bind (placeless_checkArity _ _ _ _ _ _) fun _ => ?_
  split
  · exact .bind (placeless_onHeap _) fun _ => .pure _
  · exact placeless_complain _ _ _

/-! ### Any call -/

section Jobs

variable {j : Jobs} (hj : j.Placeless)

include hj

theorem placeless_objectText (site site' : Token) (r : Ref .object) :
    Placeless (objectText j site r) (objectText j site' r) := by
  refine .bind (placeless_ask _) fun found => ?_
  split
  · exact .pure _
  · refine .bind (placeless_ask _) fun isAsync => .guard (placeless_complain _ _ _) ?_
    refine .bind (placeless_newMethod _) fun method => .bind (hj _ (.refl _) _ _) fun v => ?_
    split
    · exact .pure _
    · exact placeless_complain _ _ _

omit hj in
theorem placeless_renderWith {object object' : Ref .object → Eval (Option String)}
    (hobject : ∀ r, Placeless (object r) (object' r)) (depth : Nat) (v : Value) :
    Placeless (World.render (ask id) holding object depth v)
      (World.render (ask id) holding object' depth v) := by
  induction depth generalizing v with
  | zero => exact .pure _
  | succ depth ih =>
    cases v with
    | array r | tuple r =>
      exact .bind (placeless_ask _) fun _ => .bind (.holding _ (.mapM ih _)) fun _ => .pure _
    | dict r =>
      refine .bind (placeless_ask _) fun _ => .bind (.holding _ (.mapM (fun e => ?_) _)) fun _ => .pure _
      exact .bind (ih _) fun _ => .pure _
    | object r =>
      refine .bind (hobject _) fun text => ?_
      split
      · exact .pure _
      · exact .bind (placeless_ask _) fun _ => .pure _
    | _ => exact .bind (placeless_ask _) fun _ => .pure _

theorem placeless_render (v : Value) (site site' : Token) :
    Placeless (render j v site) (render j v site') :=
  .holding _ (placeless_renderWith (placeless_objectText hj site site') _ v)

theorem placeless_showValues (args : List Value) (site site' : Token) :
    Placeless (showValues j args site) (showValues j args site') :=
  .bind (.holding _ (.mapM (fun v => placeless_render hj v site site') _)) fun _ =>
    .bind (placeless_emit _) fun _ => .pure _

theorem placeless_callNative (n : Nat) (native : Native) (receiver : Option Value)
    {args args' : CallArgs} (h : args.Alike args') (site site' : Token) :
    Placeless (callNative j n native receiver args site)
      (callNative j n native receiver args' site') := by
  -- the two lists of arguments differ in the places of the names only
  obtain ⟨positional, named⟩ := args
  obtain ⟨positional', named'⟩ := args'
  obtain ⟨rfl, rows⟩ : positional' = positional ∧ List.Forall₂ _ named named' :=
    ⟨h.positional, h.named⟩
  refine .ite ?_ ?_
  on_goal 1 => cases rows with
  | nil => ?_
  | cons => exact .stop_bind (complain_ne_ok _ _) _ _
  all_goals cases native with
  | «show» => exact placeless_showValues hj _ _ _
  | len => exact placeless_lengthOf _ _ _
  | slice => exact placeless_sliceText _ _ _
  | type => exact .bind (placeless_checkArity _ _ _ _ _ _) fun _ => .pure _
  | append => exact placeless_append _ _ _ _
  | weave => exact .holding _ (placeless_weave j n _ _ _)
  | spawnTask => exact placeless_spawnTask _ _ _
  | rest => exact placeless_rest _ _ _
  | gather => exact placeless_gather h _ _
  | cancel => exact placeless_cancel _ _ _
  | yieldNow => exact placeless_yieldNow _ _ _

theorem placeless_callFunction (n : Nat) (r : Ref .function) (receiver : Option Value)
    (owner : Option (Ref .blueprint)) {args args' : CallArgs} (h : args.Alike args')
    (site site' : Token) :
    Placeless (callFunction j n r receiver owner args site)
      (callFunction j n r receiver owner args' site') := by
  refine .bind (placeless_ask _) fun f => ?_
  split
  · exact placeless_callNative hj n _ _ h _ _
  · exact .ite (placeless_spawn _ _ _ h _ _) (placeless_callScript j _ _ _ h _ _)

theorem placeless_dispatch (n : Nat) (callee : Value) {args args' : CallArgs} (h : args.Alike args')
    (site site' : Token) :
    Placeless (dispatch j n callee args site) (dispatch j n callee args' site') := by
  refine .holding _ ?_
  split
  · exact placeless_callFunction hj n _ _ _ h _ _
  · exact .bind (placeless_ask _) fun _ => placeless_callFunction hj n _ _ _ h _ _
  · exact placeless_instantiate j _ h _ _
  · exact placeless_complain _ _ _

theorem placeless_invokeValue (n : Nat) (callee : Value) {args args' : CallArgs}
    (h : args.Alike args') (site site' : Token) :
    Placeless (invokeValue j n callee args site) (invokeValue j n callee args' site') := by
  refine .bind placeless_replayed fun outcome => ?_
  split
  · exact placeless_resume _
  · refine .attempt_bind (.bind (placeless_dispatch hj n callee h _ _) fun _ => placeless_own _)
      (fun v => placeless_settle _) (fun r m b m₁ hr => ?_) fun m b m₁ hr => ?_
    · exact settle_error_ne_ok hr
    · change EStateM.Result.error _ _ = EStateM.Result.ok _ _ at hr
      contradiction

end Jobs

end Eval

/-- Any call has the same result from anywhere, whatever its arguments were written with. -/
theorem placeless_jobs (fuel : Nat) : (jobs fuel).Placeless := by
  induction fuel with
  | zero => exact fun _ _ _ _ _ _ => .stop _ _
  | succ fuel ih => exact fun callee _ _ h site site' => placeless_invokeValue ih fuel callee h site site'

/-! ### Operands and waiting -/

/-- The same token, written somewhere else. -/
structure Token.Alike (t t' : Token) : Prop where
  kind : t'.kind = t.kind
  text : t'.text = t.text

namespace Token.Alike

variable {op op' : Token}

theorem numeric (h : op.Alike op') (a b : Value) : Value.numeric op' a b = Value.numeric op a b := by
  simp only [Value.numeric, Value.unsupported, h.kind, h.text]

theorem divide (h : op.Alike op') (a b : Value) : Value.divide op' a b = Value.divide op a b := by
  simp only [Value.divide, Value.unsupported, h.text]

theorem remainder (h : op.Alike op') (a b : Value) :
    Value.remainder op' a b = Value.remainder op a b := by
  simp only [Value.remainder, Value.unsupported, h.text]

theorem power (h : op.Alike op') (a b : Value) : Value.power op' a b = Value.power op a b := by
  simp only [Value.power, Value.unsupported, h.text]

theorem compare (h : op.Alike op') (a b : Value) : Value.compare op' a b = Value.compare op a b := by
  simp only [Value.compare, h.kind, h.text]

end Token.Alike

/-- A machine at the beginning of the code of a hole. -/
def Machine.inHole (m : Machine) (c : Cursor) : Machine :=
  { m with sources := m.sources + 1, thread := { m.thread with cursor := c } }

namespace Eval

theorem placeless_repeated (text : String) (count : Int) (op op' : Token) :
    Placeless (repeated text count op) (repeated text count op') := by
  have written : Placeless (do
      if maxTextBytes < text.utf8ByteSize * count.toNat then
        fail (.system (.repeatTooLong count op.line))
      return .str (repeatText text count.toNat) : Eval Value) (do
      if maxTextBytes < text.utf8ByteSize * count.toNat then
        fail (.system (.repeatTooLong count op'.line))
      return .str (repeatText text count.toNat)) :=
    .guard (placeless_fail _ _) (.pure _)
  exact .ite (.bind (placeless_complain _ _ _) fun _ => written) written

theorem placeless_launch (target : Ref .coroutine) : Placeless (launch target) (launch target) := by
  refine .bind (placeless_ask _) fun _ => .ite ?_ (.pure _)
  exact .get_bind fun _ _ => .guard (placeless_fail _ _) (placeless_modifyWorld _)

theorem placeless_waitFor (keyword keyword' : Token) (v : Value) :
    Placeless (waitFor keyword v) (waitFor keyword' v) := by
  refine .bind (placeless_ask _) fun target => ?_
  split
  · exact placeless_complain _ _ _
  · refine .get_bind fun m c => ?_
    rw [show (m.moved c).thread.task = m.thread.task from rfl]
    cases m.thread.task with
    | none => exact placeless_fail _ _
    | some task =>
      refine .guard (placeless_complain _ _ _) ?_
      refine .bind (placeless_launch _) fun _ => ?_
      refine .bind (placeless_ask _) fun c => .ite ?_ ?_
      · exact .bind (placeless_onHeap _) fun _ => placeless_settle _
      · exact .bind (placeless_modifyWorld _) fun _ => .stop _ _

/-- The tokens of an operator, which differ in their places only. -/
theorem placeless_multiply {op op' : Token} (h : op.Alike op') (a b : Value) :
    Placeless (multiply op a b) (multiply op' a b) := by
  unfold multiply
  rw [h.kind]
  split
  · exact placeless_repeated _ _ _ _
  · exact placeless_repeated _ _ _ _
  · rw [h.divide]
    exact placeless_orComplain _ _ _
  · rw [h.remainder]
    exact placeless_orComplain _ _ _
  · rw [h.numeric]
    exact placeless_orComplain _ _ _

/-- Behind the expression in a hole, whose value is kept if nothing else stands there. -/
def closeHole (site : Token) : Held × TokenKind → Eval Value
  | (held, trailing) => do
    if trailing ≠ .eof then malformed .tokensAfterHole site
    own held

theorem placeless_closeHole (site site' : Token) (read : Held × TokenKind) :
    Placeless (closeHole site read) (closeHole site' read) := by
  obtain ⟨held, trailing⟩ := read
  rw [closeHole, closeHole]
  exact .guard (placeless_malformed _ _ _) (placeless_own _)

section Jobs

variable {j : Jobs} (hj : j.Placeless)

include hj

theorem placeless_add {op op' : Token} (ho : op.Alike op') (left right : Held) :
    Placeless (add j op left right) (add j op' left right) := by
  -- the operator's place is that of a complaint about an operand that cannot be written out
  have joined : Placeless (holding [left.value, right.value] (do
        let first ← render j left.value op
        let second ← render j right.value op
        return .fresh (.str (first ++ second))) : Eval Held) (holding [left.value, right.value] (do
        let first ← render j left.value op'
        let second ← render j right.value op'
        return .fresh (.str (first ++ second)))) :=
    .holding _ (.bind (placeless_render hj _ _ _) fun _ => .bind (placeless_render hj _ _ _) fun _ =>
      .pure _)
  unfold add
  split
  · exact joined
  · exact joined
  · refine .bind (placeless_ask _) fun found => ?_
    split
    · exact placeless_complain _ _ _
    · refine .bind (placeless_newMethod _) fun _ => .bind (placeless_own _) fun right => ?_
      exact .holding _ (hj _ (.refl _) _ _)
  · rw [ho.numeric]
    exact .bind (placeless_orComplain _ _ _) fun _ => .pure _

omit hj in
theorem embedded_run {m : Machine} {code : List Char} {site : Token} {cursor : Cursor}
    (hc : Cursor.ofSource ⟨m.sources, code⟩ = .ok cursor) :
    (embedded j code site : Eval Value) m =
      (embedded.restoring m.thread.cursor (do
        let held ← j.expression
        return (held, ← kind)) >>= closeHole site) (m.inHole cursor) := by
  rw [embedded, bind_of_ok (get_run m), bind_of_ok (modify_run _ m), hc]
  rfl

omit hj in
/-- The code of a hole is read on a cursor of its own. -/
theorem placeless_embedded (code : List Char) (site site' : Token) :
    Placeless (embedded j code site) (embedded j code site') := by
  intro m c a m₁ h
  cases hc : Cursor.ofSource ⟨m.sources, code⟩ with
  | error fault =>
    rw [embedded, bind_of_ok (get_run m), bind_of_ok (modify_run _ m), hc] at h
    exact nomatch h
  | ok cursor =>
    rw [embedded_run hc] at h
    rw [embedded_run (show Cursor.ofSource ⟨(m.moved c).sources, code⟩ = .ok cursor from hc)]
    obtain ⟨read, m₂, run, h⟩ := ok_of_bind h
    have same : (m.moved c).inHole cursor = m.inHole cursor := rfl
    unfold embedded.restoring at run
    -- the hole's expression is read from its own source, at the same cursor on both sides
    cases hr : (do
        let held ← j.expression
        return (held, ← kind) : Eval (Held × TokenKind)) (m.inHole cursor) with
    | error e m₃ =>
      rw [hr] at run
      exact nomatch run
    | ok read' m₃ =>
      rw [hr] at run
      obtain ⟨rfl, rfl⟩ := EStateM.Result.ok.inj run
      obtain ⟨stays, closed⟩ := placeless_closeHole site site' read' _ c _ _ h
      refine ⟨stays, ?_⟩
      rw [same]
      refine (bind_of_ok (?_ : _ = EStateM.Result.ok read' _)).trans closed
      unfold embedded.restoring
      rw [hr]
      rfl

theorem placeless_fill (site site' : Token) (done : String) (t : Template) :
    Placeless (fill j site done t) (fill j site' done t) := by
  induction t generalizing done with
  | plain text => exact .pure _
  | broken => exact placeless_malformed _ _ _
  | hole before code rest ih =>
    exact .bind (placeless_embedded _ _ _) fun _ => .bind (placeless_render hj _ _ _) fun _ => ih _

theorem placeless_interpolate {token token' : Token} (ht : token'.text = token.text) :
    Placeless (interpolate j token) (interpolate j token') := by
  rw [interpolate, interpolate, ht]
  exact placeless_fill hj _ _ _ _

end Jobs

end Eval

end Rewind
