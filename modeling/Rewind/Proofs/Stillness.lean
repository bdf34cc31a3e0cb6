/-
What does not move the cursor.

Only the pieces of the evaluator that read tokens move the cursor.  Everything that is done with
values in between — copying them, looking up names and members, calling functions, waiting — comes
back with the cursor where it was, also if it raises an exception or suspends the coroutine.  A call
runs the body of its callee, and a loop the bodies of its coroutines, but both put the cursor of the
caller back, and its tape.  The tape goes on only where an outcome is taken from it or put on it.

* `Unmoved`, `Still` — the cursor, the mode and the frames to re-enter are as before, and a
  computation leaves them so; it may be left open whether the tape is as well;
* `still_readAttribute`, `still_superProxy`, … — access;
* `still_callScript`, `still_weave`, `still_render` — calls, loops, and the text of a value;
* `still_invoke` — any call.
-/
import Rewind.Proofs.Turns

namespace Rewind

/-- The thread is where it was, in the same body, and has the same frames to re-enter.  Its tape may
have gone on if the thread is `taped`. -/
structure Unmoved (taped : Bool) (m m' : Machine) : Prop where
  cursor : m'.thread.cursor = m.thread.cursor
  mode : m'.thread.mode = m.thread.mode
  resume : m'.thread.resume = m.thread.resume
  tape : taped = false → m'.thread.tape = m.thread.tape

variable {taped : Bool}

theorem Unmoved.refl (m : Machine) : Unmoved taped m m := ⟨rfl, rfl, rfl, fun _ => rfl⟩

theorem Unmoved.trans {m₁ m₂ m₃ : Machine} (h : Unmoved taped m₁ m₂) (h' : Unmoved taped m₂ m₃) :
    Unmoved taped m₁ m₃ :=
  ⟨h'.cursor.trans h.cursor, h'.mode.trans h.mode, h'.resume.trans h.resume,
    fun ht => (h'.tape ht).trans (h.tape ht)⟩

variable {ε α β : Type} [Stops ε]

/-- A computation that began in the machine `m` has left the cursor in place, unless it ends the whole
run. -/
def Stays (taped : Bool) (m : Machine) : EStateM.Result ε Machine α → Prop
  | .ok _ m' => Unmoved taped m m'
  | .error e m' =>
    match Stops.interrupt e with
    | .fault _ => True
    | _ => Unmoved taped m m'

/-- The computation leaves the cursor in place. -/
def Still (taped : Bool) (x : EStateM ε Machine α) : Prop := ∀ m, Stays taped m (x m)

theorem Stays.trans {m₁ m₂ : Machine} (h : Unmoved taped m₁ m₂) {r : EStateM.Result ε Machine α}
    (hr : Stays taped m₂ r) : Stays taped m₁ r := by
  cases r with
  | ok a m₃ => exact Unmoved.trans h hr
  | error e m₃ =>
    simp only [Stays] at hr ⊢
    split at hr
    · trivial
    · exact h.trans hr

theorem Stays.ite {m : Machine} {p : Prop} [Decidable p] {x y : EStateM ε Machine α}
    (hx : Stays taped m (x m)) (hy : Stays taped m (y m)) :
    Stays taped m ((if p then x else y) m) := by
  split
  · exact hx
  · exact hy

theorem Stays.bind {x : EStateM ε Machine α} {f : α → EStateM ε Machine β} {m : Machine}
    (h : Stays taped m (x m)) (hf : ∀ a, Still taped (f a)) : Stays taped m ((x >>= f) m) := by
  show Stays taped m (EStateM.bind x f m)
  unfold EStateM.bind
  cases hr : x m with
  | ok a m₁ =>
    rw [hr] at h
    exact .trans h (hf a m₁)
  | error e m₁ =>
    rw [hr] at h
    exact h

namespace Still

theorem pure (a : α) : Still taped (Pure.pure a : EStateM ε Machine α) := fun m => .refl m

theorem bind {x : EStateM ε Machine α} {f : α → EStateM ε Machine β} (hx : Still taped x)
    (hf : ∀ a, Still taped (f a)) : Still taped (x >>= f) := fun m => (hx m).bind hf

/-- What ends the whole run may leave the cursor anywhere. -/
theorem fault (f : Fault) : Still taped (throw (.fault f) : Eval α) := fun _ => trivial

theorem stop (e : ε) : Still taped (throw e : EStateM ε Machine α) := by
  intro m
  show Stays taped m (EStateM.Result.error e m)
  simp only [Stays]
  split
  · trivial
  · exact .refl m

theorem ite {p : Prop} [Decidable p] {x y : EStateM ε Machine α} (hx : Still taped x)
    (hy : Still taped y) : Still taped (if p then x else y) := by
  split
  · exact hx
  · exact hy

/-- A check before the rest of a computation. -/
theorem guard {p : Prop} [Decidable p] {x : EStateM ε Machine PUnit}
    {f : PUnit → EStateM ε Machine β} (hx : Still taped x) (hf : Still taped (f ⟨⟩)) :
    Still taped (if p then x >>= f else f ⟨⟩) :=
  .ite (.bind hx fun _ => hf) hf

/-- A look at the machine. -/
theorem read (f : Machine → α) : Still taped (fun m => .ok (f m) m : EStateM ε Machine α) :=
  fun m => .refl m

/-- A computation that has all of the machine at hand. -/
theorem get_bind {f : Machine → EStateM ε Machine β} (hf : ∀ m, Stays taped m (f m m)) :
    Still taped (get >>= f) :=
  hf

theorem mapM {f : α → EStateM ε Machine β} (hf : ∀ a, Still taped (f a)) (l : List α) :
    Still taped (l.mapM f) := by
  induction l with
  | nil => exact .pure _
  | cons a l ih =>
    rw [List.mapM_cons]
    exact .bind (hf a) fun _ => .bind ih fun _ => .pure _

end Still

namespace Eval

theorem still_exhausted : Still taped (liftM (exhausted : Run α) : Eval α) := fun _ => trivial

theorem still_fail (f : Failure) : Still taped (liftM (fail f : Run α) : Eval α) := fun _ => trivial

theorem still_malformed (issue : SyntaxIssue) (site : Token) :
    Still taped (liftM (malformed issue site : Run α) : Eval α) := fun _ => trivial

theorem still_complain (complaint : Complaint) (site : Token) :
    Still taped (complain complaint site : Eval α) := .stop _

theorem still_orComplain (site : Token) (x : Except Complaint α) :
    Still taped (orComplain site x) := by
  cases x with
  | ok a => exact .pure a
  | error c => exact still_complain c site

theorem still_get : Still taped (get : EStateM ε Machine Machine) := .read id

theorem still_ask (f : World → α) : Still taped (ask f : EStateM ε Machine α) := fun m => .refl m

theorem still_onWorld (f : World → α × World) : Still taped (onWorld f : EStateM ε Machine α) :=
  fun _ => ⟨rfl, rfl, rfl, fun _ => rfl⟩

theorem still_onHeap (f : StateM Heap α) : Still taped (onHeap f : EStateM ε Machine α) :=
  still_onWorld _

theorem still_modifyWorld (f : World → World) :
    Still taped (modifyWorld f : EStateM ε Machine Unit) := still_onWorld _

theorem still_modifyScopes (f : Scopes → Scopes) :
    Still taped (modifyScopes f : EStateM ε Machine Unit) := still_modifyWorld _

theorem still_own (h : Held) : Still taped (own h : EStateM ε Machine Value) := still_onHeap _

theorem still_truthy (h : Held) : Still taped (truthy h : EStateM ε Machine Bool) := still_ask _

theorem still_newMethod (b : Method) : Still taped (newMethod b : EStateM ε Machine Value) :=
  still_onWorld _

theorem still_newCoroutine (name : String) (kind : CoroutineKind) (scope : Option (Ref .scope)) :
    Still taped (newCoroutine name kind scope : EStateM ε Machine (Ref .coroutine)) :=
  fun _ => ⟨rfl, rfl, rfl, fun _ => rfl⟩

theorem still_mode : Still taped (mode : EStateM ε Machine Mode) := .read _

theorem still_isSkipping : Still taped (isSkipping : EStateM ε Machine Bool) := .read _

/-- What is held meanwhile makes no difference. -/
theorem stays_pinning (p : Pin) {x : EStateM ε Machine α} {m : Machine}
    (h : Stays taped { m with pinned := p :: m.pinned } (x { m with pinned := p :: m.pinned })) :
    Stays taped m (pinning p x m) := by
  simp only [pinning]
  cases hr : x { m with pinned := p :: m.pinned } with
  | ok a m' =>
    rw [hr] at h
    exact ⟨h.cursor, h.mode, h.resume, h.tape⟩
  | error e m' =>
    rw [hr] at h
    simp only [Stays] at h ⊢
    split at h
    · trivial
    · exact ⟨h.cursor, h.mode, h.resume, h.tape⟩

theorem still_holding (vs : List Value) {x : EStateM ε Machine α} (hx : Still taped x) :
    Still taped (holding vs x) := fun _ => stays_pinning _ (hx _)

/-! ### Names, attributes and items -/

theorem still_resolve (name : String) :
    Still taped (resolve name : EStateM ε Machine (Option (Ref .scope))) := by
  refine .bind (.read _) fun r => .bind (still_ask _) fun found => ?_
  split
  · exact .pure _
  · refine .bind (still_ask _) fun b => ?_
    split
    · exact .pure _
    · refine .bind still_mode fun _ => .bind (still_ask _) fun _ => .ite (.pure _) ?_
      refine .bind still_get fun _ => .bind (still_ask _) fun _ => .ite (.pure _) ?_
      exact .bind (still_onWorld _) fun _ => still_ask _

theorem still_lookup (name : String) :
    Still taped (lookup name : EStateM ε Machine (Option Value)) := by
  refine .bind (still_resolve name) fun r => ?_
  split
  · exact still_ask _
  · exact .pure _

theorem still_bindMember (receiver member : Value) (owner : Ref .blueprint) :
    Still taped (bindMember receiver member owner) := by
  unfold bindMember
  split
  · exact .bind (still_newMethod _) fun _ => .pure _
  · exact .pure _

theorem still_objectAttribute? (r : Ref .object) (name : String) :
    Still taped (objectAttribute? r name) := by
  refine .bind (still_ask _) fun o => ?_
  split
  · exact .pure _
  · refine .bind (still_ask _) fun found => ?_
    split
    · exact .bind (still_bindMember _ _ _) fun _ => .pure _
    · exact .pure _

theorem still_findAttribute? (target : Held) (name : String) :
    Still taped (findAttribute? target name) := by
  unfold findAttribute?
  split
  · exact .ite (.bind (still_ask _) fun _ => .pure _) (still_objectAttribute? _ _)
  · exact .ite (.bind (still_ask _) fun _ => .pure _) (.bind (still_ask _) fun _ => .pure _)
  · refine .bind (still_ask _) fun p => .bind (still_ask _) fun found => ?_
    split
    · exact .bind (still_bindMember _ _ _) fun _ => .pure _
    · exact .pure _
  · exact .bind (still_ask _) fun _ => .pure _
  · split
    · exact .bind (still_onWorld _) fun _ => .bind (still_newMethod _) fun _ => .pure _
    · exact .bind (still_ask _) fun _ => .pure _
    · exact .pure _
  · exact .pure _

theorem still_readAttribute (target : Held) (name : String) (site : Token) :
    Still taped (readAttribute target name site) := by
  refine .bind (still_findAttribute? _ _) fun found => ?_
  split
  · exact .pure _
  · exact .bind (still_ask _) fun _ => still_complain _ _

theorem still_readItem (target : Held) (index : Value) (site : Token) :
    Still taped (readItem target index site) :=
  .bind (still_ask _) fun _ => still_orComplain _ _

theorem still_superProxy (site : Token) : Still taped (superProxy site) := by
  refine .bind still_mode fun mode => ?_
  split
  · exact still_complain _ _
  · refine .bind (still_lookup _) fun v => ?_
    split
    · refine .bind (still_ask _) fun b => ?_
      split
      · exact still_complain _ _
      · exact still_onWorld _
    · exact still_complain _ _

/-! ### Calls -/

theorem still_argumentScope (f : Function) (body : Script) (receiver : Option Value)
    (args : CallArgs) (site : Token) : Still taped (argumentScope f body receiver args site) := by
  refine .bind (still_onWorld _) fun r => .bind (still_onWorld _) fun bound => ?_
  split
  · exact .pure _
  · exact .bind (still_modifyScopes _) fun _ => still_complain _ _

theorem still_resume (outcome : Outcome) : Still taped (resume outcome) := by
  cases outcome with
  | ok v => exact .pure _
  | error r => exact .stop _

theorem still_replayed : Still true replayed := by
  refine .bind still_get fun m => .ite (.pure _) (.bind (still_onHeap _) fun taken => ?_)
  split
  · exact .bind (fun _ => ⟨rfl, rfl, rfl, nofun⟩) fun _ => .pure _
  · exact .pure _

theorem still_settle (outcome : Outcome) : Still true (settle outcome) := by
  refine .bind still_get fun m => .ite ?_ (still_resume _)
  exact .bind (still_onHeap _) fun _ => .bind (fun _ => ⟨rfl, rfl, rfl, nofun⟩) fun _ =>
    still_resume _

theorem still_attempt {x : Eval α} (hx : Still taped x) :
    Still taped (liftM (attempt x) : Eval (Attempt α)) := by
  intro m
  have h := hx m
  rw [Quiet.run_lift]
  unfold attempt
  cases hr : x m with
  | ok a m' =>
    rw [hr] at h
    exact h
  | error e m' =>
    rw [hr] at h
    cases e <;> exact h

/-- The cursor of a caller is put back behind the body of the callee. -/
theorem still_inCallee (cursor : Cursor) (r : Ref .scope) (mode : Mode) (x : Run α) :
    Still taped (inCallee cursor r mode x) := by
  intro m
  rw [inCallee_run]
  cases x (calleeMachine m cursor r mode) <;> exact ⟨rfl, rfl, rfl, fun _ => rfl⟩

section Jobs

variable (j : Jobs)

theorem still_callScript (r : Ref .function) (receiver : Option Value)
    (owner : Option (Ref .blueprint)) (args : CallArgs) (site : Token) :
    Still taped (callScript j r receiver owner args site) := by
  refine still_holding _ (.bind (still_ask _) fun f => ?_)
  split
  · exact still_fail _
  · refine .bind still_get fun m => .guard (still_fail _) ?_
    refine .bind (still_argumentScope _ _ _ _ _) fun callee => ?_
    split
    · exact still_fail _
    · refine .bind (still_inCallee _ _ _ _) fun result => ?_
      split
      · exact .fault _
      · exact .pure _
      · exact .stop _
      · exact still_fail _
      · exact .pure _

theorem still_spawn (r : Ref .function) (receiver : Option Value)
    (owner : Option (Ref .blueprint)) (args : CallArgs) (site : Token) :
    Still taped (spawn r receiver owner args site) := by
  refine .bind (still_ask _) fun f => ?_
  split
  · exact still_fail _
  · exact .bind (still_argumentScope _ _ _ _ _) fun _ =>
      .bind (still_newCoroutine _ _ _) fun _ => .pure _

theorem still_instantiate (r : Ref .blueprint) (args : CallArgs) (site : Token) :
    Still taped (instantiate j r args site) := by
  refine .bind (fun _ => ⟨rfl, rfl, rfl, fun _ => rfl⟩) fun _ => .bind still_get fun m => ?_
  refine .bind (still_onWorld _) fun object => .bind (still_ask _) fun name => ?_
  refine .bind (still_ask _) fun init => ?_
  split
  · refine .bind (still_ask _) fun isAsync => .guard (still_malformed _ _) ?_
    exact .bind (still_holding _ (still_callScript j _ _ _ _ _)) fun _ => .pure _
  · exact .guard (still_complain _ _) (.pure _)

end Jobs

/-! ### The functions of the loop -/

theorem still_checkArity (native : Native) (args : List Value) (least most : Nat) (site : Token) :
    Still taped (checkArity native args least most site) :=
  .ite (still_complain _ _) (.pure _)

theorem still_coroutineArg (native : Native) (v : Value) (site : Token) :
    Still taped (coroutineArg native v site) := by
  refine .bind (still_ask _) fun r => ?_
  split
  · exact .pure _
  · exact still_complain _ _

/-- The thread that runs a loop goes on behind it where it was. -/
theorem still_weave (j : Jobs) (n : Nat) (args : List Value) (site : Token) :
    Still taped (weave j n args site) := by
  refine .bind (still_checkArity _ _ _ _ _) fun _ => .bind (still_coroutineArg _ _ _) fun root => ?_
  refine .get_bind fun m => .ite (.refl m) (?_ : Stays taped m ((ask _ >>= _) m))
  rw [ask_bind]
  refine .ite (.refl m) (.ite (.refl m) ?_)
  refine (congrArg (Stays taped m) (weaveLoop_run j n root _ m)).mpr ?_
  -- whatever the loop has come to, the thread is the one it was begun on
  have behind (m' : Machine) : Unmoved taped m (afterLoop m m') := ⟨rfl, rfl, rfl, fun _ => rfl⟩
  cases runLoop j n root { m with weaving := true, pinned := .thread m.thread.waiting :: m.pinned } with
  | error e m' => exact trivial
  | ok a m' =>
    refine .trans (behind m') ((.bind (still_ask _) fun c => .bind (still_onHeap _) fun outcome => ?_
      : Still taped _) _)
    split
    · exact .pure _
    · exact .bind (still_ask _) fun _ => still_fail _

theorem still_spawnTask (args : List Value) (site : Token) : Still taped (spawnTask args site) := by
  refine .bind (still_checkArity _ _ _ _ _) fun _ => .bind (still_coroutineArg _ _ _) fun task => ?_
  refine .bind (still_ask _) fun c => .guard (still_complain _ _) ?_
  refine .bind still_get fun _ => .guard (still_complain _ _) ?_
  refine .bind (still_modifyWorld _) fun _ => ?_
  split <;> exact .pure _

theorem still_readClock : Still taped (readClock : EStateM ε Machine Nat) :=
  fun _ => ⟨rfl, rfl, rfl, fun _ => rfl⟩

theorem still_rest (args : List Value) (site : Token) : Still taped (rest args site) := by
  refine .bind (still_checkArity _ _ _ _ _) fun _ => ?_
  dsimp only
  split
  · exact still_complain _ _
  · refine .guard (still_complain _ _) ?_
    split
    · exact still_complain _ _
    · exact .bind still_readClock fun _ => .bind (still_newCoroutine _ _ _) fun _ => .pure _

theorem still_yieldNow (args : List Value) (site : Token) : Still taped (yieldNow args site) :=
  .bind (still_checkArity _ _ _ _ _) fun _ => .bind still_readClock fun _ =>
    .bind (still_newCoroutine _ _ _) fun _ => .pure _

theorem still_returnExceptions (positional : Nat) (named : List (String × Value × Token))
    (chosen : Bool) : Still taped (returnExceptions positional named chosen) := by
  induction named generalizing chosen with
  | nil => exact .pure _
  | cons a named ih =>
    have next : Still taped (do
        returnExceptions positional named (← truthy (.view a.2.1)) : Eval Bool) :=
      .bind (still_truthy _) fun _ => ih _
    have twice : Still taped (do
        if 1 < positional then complain .returnExceptionsTwice a.2.2
        returnExceptions positional named (← truthy (.view a.2.1)) : Eval Bool) :=
      .guard (still_complain _ _) next
    exact .ite (.bind (still_complain _ _) fun _ => twice) twice

theorem still_gather (args : CallArgs) (site : Token) : Still taped (gather args site) := by
  refine .bind (still_checkArity _ _ _ _ _) fun _ => ?_
  have made (r : Ref .array) (chosen : Bool) : Still taped (do
      let tasks ← ask fun w => w.heap.array r
      let children ← tasks.toList.mapM fun v => coroutineArg .gather v site
      let state := GatherState.ofChildren children chosen
      return .fresh (.gather (← newCoroutine "gather_task" (.gather state) none)) : Eval Held) :=
    .bind (still_ask _) fun _ => .bind (.mapM (fun _ => still_coroutineArg _ _ _) _) fun _ =>
      .bind (still_newCoroutine _ _ _) fun _ => .pure _
  split
  all_goals cases args.positional[1]? with
  | some v => ?_
  | none => ?_
  · exact .bind (still_truthy _) fun _ => .bind (still_returnExceptions _ _ _) (made _)
  · exact .bind (.pure _) fun _ => .bind (still_returnExceptions _ _ _) (made _)
  · exact .bind (still_truthy _) fun _ => .bind (still_returnExceptions _ _ _) fun _ =>
      still_complain _ _
  · exact .bind (.pure _) fun _ => .bind (still_returnExceptions _ _ _) fun _ => still_complain _ _

theorem still_cancel (args : List Value) (site : Token) : Still taped (cancel args site) := by
  refine .bind (still_checkArity _ _ _ _ _) fun _ => .bind (still_coroutineArg _ _ _) fun task => ?_
  refine .bind still_get fun _ => .ite ?_ ?_
  · exact .bind (still_onWorld _) fun _ => .pure _
  · exact .bind (still_onWorld _) fun _ => .pure _

/-! ### Any call -/

section Jobs

variable {j : Jobs}

section Text

variable (hj : ∀ callee args site, Still taped (j.invoke callee args site))

include hj

theorem still_objectText (site : Token) (r : Ref .object) : Still taped (objectText j site r) := by
  refine .bind (still_ask _) fun found => ?_
  split
  · exact .pure _
  · refine .bind (still_ask _) fun isAsync => .guard (still_complain _ _) ?_
    refine .bind (still_newMethod _) fun method => .bind (hj _ _ _) fun v => ?_
    split
    · exact .pure _
    · exact still_complain _ _

omit hj in
theorem still_renderWith {hold : List Value → Eval (List String) → Eval (List String)}
    {object : Ref .object → Eval (Option String)}
    (hhold : ∀ vs x, Still taped x → Still taped (hold vs x))
    (hobject : ∀ r, Still taped (object r)) (depth : Nat) (v : Value) : Still taped (World.render (ask id) hold object depth v) := by
  induction depth generalizing v with
  | zero => exact .pure _
  | succ depth ih =>
    cases v with
    | array r | tuple r =>
      exact .bind (still_ask _) fun _ => .bind (hhold _ _ (.mapM ih _)) fun _ => .pure _
    | dict r =>
      refine .bind (still_ask _) fun _ => .bind (hhold _ _ (.mapM (fun e => ?_) _)) fun _ => .pure _
      exact .bind (ih _) fun _ => .pure _
    | object r =>
      refine .bind (hobject _) fun text => ?_
      split
      · exact .pure _
      · exact .bind (still_ask _) fun _ => .pure _
    | _ => exact .bind (still_ask _) fun _ => .pure _

theorem still_render (v : Value) (site : Token) : Still taped (render j v site) :=
  still_holding _
    (still_renderWith (fun vs _ h => still_holding vs h) (still_objectText hj site) _ v)

theorem still_showValues (args : List Value) (site : Token) :
    Still taped (showValues j args site) :=
  .bind (still_holding _ (.mapM (fun v => still_render hj v site) _)) fun _ =>
    .bind (fun _ => ⟨rfl, rfl, rfl, fun _ => rfl⟩) fun _ => .pure _

end Text

theorem still_lengthOf (args : List Value) (site : Token) : Still taped (lengthOf args site) := by
  refine .bind (still_checkArity _ _ _ _ _) fun _ => .bind (still_ask _) fun heap => ?_
  cases args.headD .null with
  | str | array | tuple | dict => exact .bind (.pure _) fun _ => .pure _
  | _ => exact .bind (still_complain _ _) fun _ => .pure _

theorem still_sliceText (args : List Value) (site : Token) : Still taped (sliceText args site) := by
  refine .bind (still_checkArity _ _ _ _ _) fun _ => ?_
  split
  · refine .bind (.mapM (fun v => ?_) _) fun bounds => ?_
    · unfold sliceIndex
      split
      · exact .pure _
      · exact still_complain _ _
    · split <;> exact .pure _
  · exact still_complain _ _

theorem still_append (receiver : Option Value) (args : List Value) (site : Token) :
    Still taped (append receiver args site) := by
  refine .bind (still_checkArity _ _ _ _ _) fun _ => ?_
  split
  · exact .bind (still_onHeap _) fun _ => .pure _
  · exact still_complain _ _

/-- Only `show` calls back. -/
theorem still_callNative (n : Nat) {native : Native} (receiver : Option Value) (args : CallArgs)
    (site : Token)
    (hj : native = .show → ∀ callee args site, Still taped (j.invoke callee args site)) :
    Still taped (callNative j n native receiver args site) := by
  refine .ite ?_ ?_
  on_goal 1 => split
  on_goal 1 => refine .bind (still_complain _ _) fun _ => ?_
  all_goals cases native with
  | «show» => exact still_showValues (hj rfl) _ _
  | len => exact still_lengthOf _ _
  | slice => exact still_sliceText _ _
  | type => exact .bind (still_checkArity _ _ _ _ _) fun _ => .pure _
  | append => exact still_append _ _ _
  | weave => exact still_holding _ (still_weave j n _ _)
  | spawnTask => exact still_spawnTask _ _
  | rest => exact still_rest _ _
  | gather => exact still_gather _ _
  | cancel => exact still_cancel _ _
  | yieldNow => exact still_yieldNow _ _

theorem stays_callFunction (n : Nat) {r : Ref .function} (receiver : Option Value)
    (owner : Option (Ref .blueprint)) (args : CallArgs) (site : Token) {m : Machine}
    (hj : (m.world.functions.get r).body = .native .show →
      ∀ callee args site, Still taped (j.invoke callee args site)) :
    Stays taped m (callFunction j n r receiver owner args site m) := by
  unfold callFunction
  rw [ask_bind]
  cases hb : (m.world.functions.get r).body with
  | native native =>
    exact still_callNative n receiver args site (fun h => hj (h ▸ hb)) m
  | script body => exact .ite (still_spawn _ _ _ _ _ m) (still_callScript j _ _ _ _ _ m)

/-- The value is the function `show`, or a method made of it. -/
def Shows (w : World) : Value → Prop
  | .function r => (w.functions.get r).body = .native .show
  | .method r => (w.functions.get (w.methods.get r).function).body = .native .show
  | _ => False

theorem stays_dispatch (n : Nat) {callee : Value} (args : CallArgs) (site : Token) {m : Machine}
    (hj : Shows m.world callee → ∀ callee args site, Still taped (j.invoke callee args site)) :
    Stays taped m (dispatch j n callee args site m) := by
  refine stays_pinning _ ?_
  cases callee with
  | function r => exact stays_callFunction n _ _ _ _ hj
  | method r => exact stays_callFunction n _ _ _ _ hj
  | blueprint r => exact still_instantiate j _ _ _ _
  | _ => exact still_complain _ _ _

theorem still_invokeValue (n : Nat) (callee : Value) (args : CallArgs) (site : Token)
    (hj : ∀ callee args site, Still true (j.invoke callee args site)) :
    Still true (invokeValue j n callee args site) := by
  refine .bind still_replayed fun outcome => ?_
  split
  · exact still_resume _
  · have dispatched : Still true (dispatch j n callee args site) :=
      fun m => stays_dispatch n args site fun _ => hj
    refine .bind (still_attempt (.bind dispatched fun _ => still_own _)) fun _ => ?_
    split
    · exact still_settle _
    · exact still_settle _
    · exact .stop _

end Jobs

theorem still_invoke (fuel : Nat) (callee : Value) (args : CallArgs) (site : Token) :
    Still true ((jobs fuel).invoke callee args site) := by
  induction fuel generalizing callee args site with
  | zero => exact fun _ => trivial
  | succ fuel ih => exact still_invokeValue fuel callee args site ih

end Eval

end Rewind
