/-
Where statements take the cursor.

A statement goes from token to token as an expression does.  It goes back only to the header and to
the body of a loop, which it has come by, and behind a loop it passes the body once more.  So a
property of places that is handed on from token to token holds wherever a body ends, and wherever a
signal leaves it; of a body that yields nothing is said.

* `still_storeAttribute`, …, `still_loadModule` — assignments and modules do not move the cursor;
* `moves_letStatement`, …, `moves_loadStatement` — statements that hold no body;
* `Stands` — a place where a body may begin: one of the property, or the token of one, in its column;
* `Arrives`, `Advances` — where a statement or a body ends;
* `advances_ifStatement`, …, `advances_statement` — statements that hold bodies;
* `advances_statements`, `travels_jobs` — bodies.
-/
import Rewind.Proofs.Walk
import Rewind.Proofs.Statements

namespace Rewind

variable {ε α β : Type} [Stops ε]

namespace Eval

/-! ### What does not move the cursor -/

theorem still_modify {f : Machine → Machine} (hf : ∀ m, Unmoved true m (f m)) :
    Still true (modify f : EStateM ε Machine Unit) := hf

theorem still_define (name : String) (v : Value) :
    Still true (define name v : EStateM ε Machine Unit) :=
  .bind (.read _) fun _ => still_modifyScopes _

theorem still_assign (name : String) (v : Value) :
    Still true (assign name v : EStateM ε Machine Unit) :=
  .bind (still_holding _ (still_resolve _)) fun _ => .bind (.read _) fun _ => still_modifyScopes _

theorem still_pushScope : Still true (pushScope : EStateM ε Machine Unit) :=
  fun _ => ⟨rfl, rfl, rfl, nofun⟩

theorem still_popScope : Still true (popScope : EStateM ε Machine Unit) := by
  refine .bind (.read _) fun inner => .bind (still_ask _) fun outer => ?_
  split
  · exact .bind (fun _ => ⟨rfl, rfl, rfl, nofun⟩) fun _ => still_modifyScopes _
  · exact .pure _

theorem still_foldlM {f : β → α → EStateM ε Machine β} (hf : ∀ b a, Still true (f b a)) (b : β)
    (l : List α) : Still true (l.foldlM f b) := by
  induction l generalizing b with
  | nil => exact .pure _
  | cons a l ih =>
    rw [List.foldlM_cons]
    exact .bind (hf b a) ih

theorem still_follow (target : Value) (step : Accessor) : Still true (follow target step) := by
  cases step with
  | member name site => exact .bind (still_readAttribute _ _ _) fun _ => .pure _
  | item index site => exact .bind (still_readItem _ _ _) fun _ => .pure _

theorem still_storeAttribute (target : Value) (name : String) (v : Value) (site : Token) :
    Still true (storeAttribute target name v site) := by
  unfold storeAttribute
  split
  · exact still_modifyWorld _
  · exact .bind (still_ask _) fun _ => still_modifyScopes _
  · exact still_onHeap _
  · exact still_complain _ _

theorem still_storeItem (target index v : Value) (site : Token) :
    Still true (storeItem target index v site) := by
  unfold storeItem
  split
  · refine .bind (still_ask _) fun length => ?_
    split
    · exact still_onHeap _
    · exact still_complain _ _
  · exact still_complain _ _
  · exact still_onHeap _
  all_goals exact still_complain _ _

theorem still_store (target v : Value) (step : Accessor) : Still true (store target v step) := by
  cases step with
  | member name site => exact still_storeAttribute _ _ _ _
  | item index site => exact still_storeItem _ _ _ _

theorem still_checkBounds (first last step : Value) (site : Token) :
    Still true (checkBounds first last step site) := by
  refine .bind ?_ fun _ => .ite (still_complain _ _) (.pure _)
  generalize [first, last, step] = bounds
  induction bounds with
  | nil => exact .pure _
  | cons bound bounds ih =>
    rw [List.forIn_cons]
    refine .bind (.ite (.bind (still_complain _ _) fun _ => .pure _) (.pure _)) fun next => ?_
    split
    · exact .pure _
    · exact ih

omit [Stops ε] in
theorem looks_resetTapeUnlessReplaying :
    Looks (resetTapeUnlessReplaying : EStateM ε Machine Unit) := by
  refine fun m => ⟨(), _, rfl, ?_, ?_, ?_, nofun⟩
  all_goals
    dsimp only
    split <;> rfl

omit [Stops ε] in
theorem looks_resetTape : Looks (resetTape : EStateM ε Machine Unit) := by
  refine fun m => ⟨(), _, rfl, ?_, ?_, ?_, nofun⟩
  all_goals
    dsimp only
    split <;> rfl

/-! ### Modules -/

theorem still_namespace? (path : String) : Still true (namespace? path) :=
  .bind still_get fun _ => .pure _

theorem still_dropNamespace (path : String) : Still true (dropNamespace path) :=
  still_modify fun _ => ⟨rfl, rfl, rfl, nofun⟩

theorem still_keepNamespace (path : String) (v : Value) : Still true (keepNamespace path v) :=
  .bind (still_dropNamespace path) fun _ => still_modify fun _ => ⟨rfl, rfl, rfl, nofun⟩

theorem still_weaverModule : Still true weaverModule := by
  unfold weaverModule
  refine .bind (still_namespace? _) fun found => ?_
  cases found with
  | some v => exact .pure _
  | none =>
    dsimp only
    generalize Native.weaver = natives
    refine .bind (.mapM (fun native => ?_) _) fun _ => .bind (still_onHeap _) fun _ => ?_
    · exact .bind (still_onWorld _) fun _ => .pure _
    · exact .bind (still_keepNamespace _ _) fun _ => .pure _

theorem still_exports (r : Ref .scope) : Still true (exports r) := by
  refine .bind (still_ask _) fun _ => .bind (.mapM (fun entry => ?_) _) fun _ => still_onHeap _
  exact .bind (still_onHeap _) fun _ => .pure _

theorem still_openModule (name path : String) : Still true (openModule name path) := by
  refine .bind still_get fun m => ?_
  split
  · exact .pure _
  · exact .bind still_get fun _ => .bind (still_modify fun _ => ⟨rfl, rfl, rfl, nofun⟩) fun _ => .pure _

/-- A module runs on a thread of its own. -/
theorem still_inModule (cursor : Cursor) (r : Ref .scope) (directory : Option String) (x : Run α) :
    Still true (inModule cursor r directory x) := by
  intro m
  rw [inModule_run]
  cases x (moduleMachine m cursor r directory) <;> exact ⟨rfl, rfl, rfl, nofun⟩

theorem still_forget (path : String) (r : Ref .scope) : Still true (runModule.forget path r) :=
  .bind (still_dropNamespace _) fun _ => still_modifyScopes _

section Jobs

variable (j : Jobs)

theorem still_runModule (name path : String) : Still true (runModule j name path) := by
  refine .bind (still_keepNamespace _ _) fun _ => .bind (still_openModule _ _) fun opened => ?_
  split
  · exact .bind (still_dropNamespace _) fun _ => still_fail _
  · refine .bind (still_onWorld _) fun r => .bind (still_inModule _ _ _ _) fun result => ?_
    split
    · exact .bind (still_forget _ _) fun _ => .fault _
    · exact .bind (still_forget _ _) fun _ => .stop _
    · refine .bind (still_exports _) fun _ => .bind (still_onHeap _) fun _ => ?_
      refine .bind (still_keepNamespace _ _) fun _ => .bind (still_modify ?_) fun _ => .pure _
      exact fun _ => ⟨rfl, rfl, rfl, nofun⟩

theorem still_loadModule (name : String) (site : Token) : Still true (loadModule j name site) := by
  refine .ite (.bind still_weaverModule fun _ => still_onHeap _) (.bind still_get fun m => ?_)
  split
  · exact still_complain _ _
  · refine .bind (still_namespace? _) fun found => ?_
    split
    · exact still_onHeap _
    · exact still_runModule j _ _

theorem still_bindSelection (exported : Value) (module : String)
    (names : List (Token × Option Token)) : Still true (bindSelection exported module names) := by
  induction names with
  | nil => exact .pure _
  | cons name names ih =>
    obtain ⟨item, renamed⟩ := name
    have member : Still true (bindSelection.member? exported item.text) := by
      unfold bindSelection.member?
      split
      · exact still_ask _
      · exact .pure _
    refine .bind member fun found => ?_
    split
    · exact still_complain _ _
    · exact .bind (still_onHeap _) fun _ => .bind (still_define _ _) fun _ => ih

end Jobs

/-! ### Statements that hold no body -/

section Simple

variable {A B : Cursor → Prop} {j : Jobs} (hA : Cursor.Forward A) (hj : Strolls A j)
include hA

theorem onward_endStatement : Onward A (liftM endStatement : Eval Unit) :=
  .lift (.bind (onward_skipOver hA _) fun _ => .pure _)

/-- Behind the header of a body the cursor is on its first token. -/
def Entered (A : Cursor → Prop) (column : Nat) (c : Cursor) : Prop :=
  A c ∧ c.kind ≠ .eof ∧ c.current.column = column

theorem leads_enterBlock (column : Nat) :
    Leads (Cursor.On A) (Entered A (column + 4)) (enterBlock column) := by
  intro m hm
  have h := moves_advance hA .colon m hm
  show Walks _ m (EStateM.bind (advance .colon) _ m)
  unfold EStateM.bind
  cases hr : advance .colon m with
  | error fault m₁ => trivial
  | ok colon m₁ =>
    rw [hr] at h
    show Walks _ m ((if _ ∧ _ then _ else _ : Run Unit) m₁)
    split
    · trivial
    · show Walks _ m ((if _ ∨ _ then _ else _ : Run Unit) m₁)
      split
      · trivial
      · rename_i hc
        obtain ⟨hk, hc⟩ := not_or.mp hc
        exact ⟨⟨h.1, hk, not_ne_iff.mp hc⟩, h.2⟩

theorem onward_enterBlock (column : Nat) : Onward A (liftM (enterBlock column) : Eval Unit) :=
  .lift fun m hm => (leads_enterBlock hA column m (.of hm)).mono fun h => h.1

/-- A place where the body at `column` may begin: one as `A` says, or the token of one that stands in
its column. -/
def Stands (A : Cursor → Prop) (column : Nat) (c : Cursor) : Prop :=
  A c ∨ Cursor.On A c ∧ c.kind ≠ .eof ∧ column ≤ c.current.column

omit hA in
theorem Stands.on {column : Nat} {c : Cursor} (h : Stands A column c) : Cursor.On A c :=
  h.elim .of And.left

theorem leads_skipBody (column : Nat) : Leads (Stands A column) A (skipBody column) := by
  refine leads_move fun {c d} hc h => ?_
  suffices ∀ depth, c.skipBody column depth = .ok d → A d from this 0 h
  clear h
  intro depth h
  fun_induction Cursor.skipBody column depth c with
  | case1 depth c he =>
    obtain rfl := Except.ok.inj h
    exact hc.resolve_right fun hon => hon.2.1 he
  | case2 depth c he hleft =>
    obtain rfl := Except.ok.inj h
    exact hc.resolve_right fun hon => absurd hleft.2.2 (Nat.not_lt.mpr hon.2.2)
  | case3 => contradiction
  | case4 depth c he hin d' hd hk =>
    obtain rfl := Except.ok.inj h
    exact hA.bump_on hc.on hd
  | case5 depth c he hin depth' d' hd hk _ ih =>
    exact ih (.inl (hA.bump_on hc.on hd)) h

theorem onward_skipBody (column : Nat) : Onward A (liftM (skipBody column) : Eval Unit) :=
  .lift fun m hm => leads_skipBody hA column m (.inl hm)

include hj

theorem onward_accessors (n : Nat) (read : List Accessor) : Onward A (accessors j n read) := by
  induction n generalizing read with
  | zero => exact still_exhausted.onward
  | succ n ih =>
    refine .bind onward_kind fun k => ?_
    split
    · exact .bind (.lift (onward_bump hA)) fun _ => .bind (.lift (onward_advance hA _)) fun _ => ih _
    · refine .bind (.lift (onward_bump hA)) fun _ => ?_
      refine .bind (leads_holding _ (hj.expression hA).onward) fun _ => .bind (still_own _).onward fun _ => ?_
      exact .bind (.lift (onward_advance hA _)) fun _ => ih _
    · exact .pure _

theorem moves_letStatement (n : Nat) : Moves A (letStatement j n) := by
  refine .bind (.lift (moves_bump hA)) fun _ => .bind (.lift (onward_advance hA _)) fun _ => ?_
  refine .bind (.lift (onward_advance hA _)) fun name => .bind (onward_accessors hA hj _ _) fun steps => ?_
  refine .bind (.lift (onward_advance hA _)) fun _ => ?_
  refine .bind (leads_holding _ (hj.expression hA).onward) fun _ => .bind (still_own _).onward fun v => ?_
  refine .bind (onward_endStatement hA) fun _ => ?_
  cases steps with
  | nil => exact .bind (still_assign _ _).onward fun _ => .pure _
  | cons last before =>
    refine .bind (still_holding _ (still_lookup _)).onward fun base => ?_
    cases base with
    | none => exact .bind (still_complain _ _).onward fun _ => .pure _
    | some base =>
      exact .bind (still_foldlM still_follow _ _).onward fun _ =>
        .bind (still_store _ _ _).onward fun _ => .pure _

theorem onward_resultItems (n : Nat) (read : List Value) : Onward A (resultItems j n read) := by
  induction n generalizing read with
  | zero => exact still_exhausted.onward
  | succ n ih =>
    refine .bind (.lift (onward_skipOver hA _)) fun _ => .ite ?_ (.pure _)
    exact .bind (leads_holding _ (hj.expression hA).onward) fun _ =>
      .bind (still_own _).onward fun _ => ih _

theorem moves_returnStatement (n : Nat) : Moves A (returnStatement j n) := by
  refine .bind (.lift (moves_bump hA)) fun keyword => .bind still_mode.onward fun _ => ?_
  refine .guard (still_malformed _ _).onward (.bind (.lift (onward_advance hA _)) fun _ => ?_)
  refine .bind onward_current fun _ => .ite (.pure _) ?_
  refine .bind (hj.expression hA).onward fun _ => .bind (still_own _).onward fun first => ?_
  have finish (v : Value) : Onward A (do
      endStatement
      return .leaving (.result v) : Eval Status) :=
    .bind (onward_endStatement hA) fun _ => .pure _
  refine .bind onward_kind fun _ => .ite ?_ (.bind (.pure _) finish)
  exact .bind (onward_resultItems hA hj _ _) fun _ => .bind (still_onHeap _).onward finish

theorem moves_raiseStatement : Moves A (raiseStatement j) := by
  refine .bind (.lift (moves_bump hA)) fun keyword => .bind (.lift (onward_advance hA _)) fun _ => ?_
  refine .bind (hj.expression hA).onward fun _ => .bind (still_own _).onward fun v => ?_
  refine .bind (onward_endStatement hA) fun _ => ?_
  split
  · exact .pure _
  · exact (still_complain _ _).onward

theorem moves_expressionStatement : Moves A (expressionStatement j) :=
  .bind (hj.expression hA) fun _ => .bind (onward_endStatement hA) fun _ => .pure _

omit hj in
theorem moves_skipStatement : Moves A skipStatement :=
  .bind (.lift (moves_bump hA)) fun _ => .bind (onward_endStatement hA) fun _ => .pure _

omit hj in
theorem moves_loopSignal (signal : Signal) : Moves A (loopSignal signal) := by
  have left : Moves A (do
      let _ ← bump
      endStatement
      return .leaving signal : Eval Status) :=
    .bind (.lift (moves_bump hA)) fun _ => .bind (onward_endStatement hA) fun _ => .pure _
  refine .look (.read _) fun token =>
    .look (.read _) fun mode => .ite (.bind ?_ fun _ => left.onward) left
  exact fun _ _ => trivial

/-! ### Definitions and modules -/

theorem onward_parameter (function : String) (read : List Param) :
    Onward A (parameter j function read) := by
  refine .bind (.lift (onward_advance hA _)) fun _ => .guard (still_malformed _ _).onward ?_
  refine .bind (.lift (onward_skipOver hA _)) fun _ => .ite ?_ ?_
  · exact .bind (leads_holding _ (hj.expression hA).onward) fun _ =>
      .bind (still_own _).onward fun _ => .pure _
  · exact .guard (still_malformed _ _).onward (.pure _)

theorem onward_parameters (function : String) (n : Nat) (read : List Param) :
    Onward A (parameters j function n read) := by
  induction n generalizing read with
  | zero => exact still_exhausted.onward
  | succ n ih =>
    refine .bind onward_kind fun _ => .ite (.pure _) (.bind (onward_parameter hA hj _ _) fun _ => ?_)
    exact .bind (.lift (onward_skipOver hA _)) fun _ => .ite (ih _) (.pure _)

theorem moves_functStatement (n : Nat) : Moves A (functStatement j n) := by
  refine .look (.read _) fun site => .lift_bind (leads_skipOver hA .kwAsync) ?_
  refine fun isAsync => .bind (.lift (moves_advance hA _)) fun _ => ?_
  refine .bind (.lift (onward_advance hA _)) fun _ => .bind (.lift (onward_advance hA _)) fun _ => ?_
  refine .bind (.lift (onward_advance hA _)) fun _ => .bind (onward_parameters hA hj _ _ _) fun _ => ?_
  refine .bind (.lift (onward_advance hA _)) fun _ => .bind (onward_enterBlock hA _) fun _ => ?_
  refine .bind (Still.read _).onward fun _ => .bind (onward_skipBody hA _) fun _ => ?_
  refine .bind still_get.onward fun _ => .bind (Still.read _).onward fun _ => ?_
  exact .bind (still_onWorld _).onward fun _ => .bind (still_define _ _).onward fun _ => .pure _

omit hj in
theorem onward_moduleName : Onward A moduleName := by
  refine .bind onward_kind fun k => ?_
  split
  · exact onward_bump hA
  · exact onward_bump hA
  · exact .bind onward_current fun _ => fun _ _ => trivial

omit hj in
theorem onward_alias? : Onward A alias? := by
  refine .bind (onward_skipOver hA _) fun _ => .ite ?_ (.pure _)
  exact .bind (onward_advance hA _) fun _ => .pure _

omit hj in
theorem onward_selection (n : Nat) (read : List (Token × Option Token)) :
    Onward A (selection n read) := by
  induction n generalizing read with
  | zero => exact fun _ _ => trivial
  | succ n ih =>
    refine .bind onward_kind fun _ => .ite (.pure _) (.bind (onward_advance hA _) fun _ => ?_)
    refine .bind (onward_alias? hA) fun _ => .bind (onward_skipOver hA _) fun _ => ?_
    exact .ite (ih _) (.pure _)

omit hj in
theorem onward_loadItem (n : Nat) : Onward A (loadItem j n) := by
  have module : Onward A (liftM moduleName : Eval Token) := .lift (onward_moduleName hA)
  refine .bind (.lift (onward_skipOver hA _)) fun _ => .ite ?_ ?_
  · refine .bind (.lift (onward_selection hA _ _)) fun _ => ?_
    refine .bind (.lift (onward_advance hA _)) fun _ => .bind (.lift (onward_advance hA _)) fun _ => ?_
    exact .bind module fun _ => .bind (still_loadModule j _ _).onward fun _ =>
      (still_bindSelection _ _ _).onward
  · refine .bind module fun _ => .bind (.lift (onward_alias? hA)) fun _ => ?_
    exact .bind (still_loadModule j _ _).onward fun _ => (still_define _ _).onward

omit hj in
theorem onward_loadItems (n : Nat) : Onward A (loadItems j n) := by
  induction n with
  | zero => exact still_exhausted.onward
  | succ n ih =>
    refine .bind (onward_loadItem hA n) fun _ => .bind (.lift (onward_skipOver hA _)) fun _ => ?_
    exact .ite ih (.pure _)

omit hj in
theorem moves_loadStatement (n : Nat) : Moves A (loadStatement j n) := by
  refine .bind (.lift (moves_bump hA)) fun _ => .bind (.lift (onward_advance hA _)) fun _ => ?_
  exact .bind (onward_loadItems hA n) fun _ => .bind (onward_endStatement hA) fun _ => .pure _

end Simple

end Eval

/-! ### Statements that may yield -/

section Arrives

variable {A B C : Cursor → Prop}

/-- A statement that began in the machine `m`, with no frames to re-enter, has come to a place that is
as `A` says, unless it yields or ends the whole run. -/
def Arrives (A : Cursor → Prop) (m : Machine) : EStateM.Result ε Machine Status → Prop
  | .ok .yielded _ => True
  | .ok _ m' => A m'.thread.cursor ∧ m'.thread.resume = m.thread.resume
  | .error e m' =>
    match Stops.interrupt e with
    | .fault _ => True
    | _ => A m'.thread.cursor ∧ m'.thread.resume = m.thread.resume

/-- Begun at a place that is as `B` says, with no frames to re-enter, the statement ends at one that
is as `A` says, unless it yields. -/
def Advances (B A : Cursor → Prop) (x : EStateM ε Machine Status) : Prop :=
  ∀ m, B m.thread.cursor → m.thread.resume = [] → Arrives A m (x m)

theorem Walks.arrives {m : Machine} {r : EStateM.Result ε Machine Status} (h : Walks A m r) :
    Arrives A m r := by
  cases r with
  | ok status m' =>
    cases status with
    | yielded => trivial
    | _ => exact ⟨h.1, h.2.resume⟩
  | error e m' =>
    simp only [Walks, Arrives] at h ⊢
    cases hi : Stops.interrupt e <;> simp only [hi] at h ⊢
    all_goals exact ⟨h.1, h.2.resume⟩

theorem Arrives.trans {m₁ m₂ : Machine} (h : m₂.thread.resume = m₁.thread.resume)
    {r : EStateM.Result ε Machine Status} (hr : Arrives A m₂ r) : Arrives A m₁ r := by
  cases r with
  | ok status m₃ =>
    cases status with
    | yielded => trivial
    | _ => exact ⟨hr.1, hr.2.trans h⟩
  | error e m₃ =>
    simp only [Arrives] at hr ⊢
    split at hr
    · trivial
    · exact ⟨hr.1, hr.2.trans h⟩

/-- A statement that has not yielded has come to its end. -/
theorem Arrives.ok {m m' : Machine} {status : Status} (hs : status ≠ .yielded)
    (h : Arrives A m (.ok status m' : EStateM.Result ε Machine Status)) :
    A m'.thread.cursor ∧ m'.thread.resume = m.thread.resume := by
  cases status with
  | yielded => exact absurd rfl hs
  | _ => exact h

theorem Leads.advances {x : EStateM ε Machine Status} (h : Leads B A x) : Advances B A x :=
  fun m hm _ => (h m hm).arrives

namespace Advances

theorem mono {x : EStateM ε Machine Status} (h : Advances B A x) (hC : ∀ {c}, A c → C c) :
    Advances B C x := by
  intro m hm hr
  have h := h m hm hr
  cases hx : x m with
  | ok status m' =>
    rw [hx] at h
    cases status with
    | yielded => trivial
    | _ => exact ⟨hC h.1, h.2⟩
  | error e m' =>
    rw [hx] at h
    simp only [Arrives] at h ⊢
    split at h
    · trivial
    · exact ⟨hC h.1, h.2⟩

theorem pure (status : Status) : Advances A A (Pure.pure status : EStateM ε Machine Status) :=
  (Leads.pure status).advances

theorem of_imp {x : EStateM ε Machine Status} (h : Advances B A x) (hC : ∀ {c}, C c → B c) :
    Advances C A x := fun m hm hr => h m (hC hm) hr

theorem ite {p : Prop} [Decidable p] {x y : EStateM ε Machine Status} (hx : Advances B A x)
    (hy : Advances B A y) : Advances B A (if p then x else y) := by
  split
  · exact hx
  · exact hy

/-- What comes before a statement. -/
theorem after {x : EStateM ε Machine α} {f : α → EStateM ε Machine Status} (hx : Leads B A x)
    (hf : ∀ a, Advances A A (f a)) : Advances B A (x >>= f) := by
  intro m hm hr
  have h := hx m hm
  show Arrives A m (EStateM.bind x f m)
  unfold EStateM.bind
  cases hx : x m with
  | ok a m' =>
    rw [hx] at h
    exact .trans h.2.resume (hf a m' h.1 (h.2.resume.trans hr))
  | error e m' =>
    rw [hx] at h
    exact Walks.arrives (r := .error e m') h

/-- A run that comes to a place of another kind, from which the statement goes on. -/
theorem after_lift {x : Run α} {f : α → Eval Status} (hx : Leads B C x)
    (hf : ∀ a, Advances C A (f a)) : Advances B A ((liftM x : Eval α) >>= f) := by
  intro m hm hr
  have h := hx m hm
  show Arrives A m (EStateM.bind (liftM x : Eval α) f m)
  unfold EStateM.bind
  rw [Quiet.run_lift]
  cases hx : x m with
  | ok a m' =>
    rw [hx] at h
    exact .trans h.2.resume (hf a m' h.1 (h.2.resume.trans hr))
  | error fault m' => trivial

/-- A look before anything else. -/
theorem look {x : EStateM ε Machine α} {f : α → EStateM ε Machine Status}
    (hx : Looks x) (hf : ∀ a, Advances B A (f a)) : Advances B A (x >>= f) := by
  intro m hm hr
  obtain ⟨a, m', hx, h⟩ := hx m
  rw [Eval.bind_of_ok hx]
  exact .trans h.resume (hf a m' (h.cursor ▸ hm) (h.resume.trans hr))

/-- A look at the token under the cursor. -/
theorem current_bind {f : Token → EStateM ε Machine Status}
    (hf : ∀ t, Advances (fun c => B c ∧ c.current = t) A (f t)) :
    Advances B A (Eval.current >>= f) :=
  fun m hm hr => hf _ m ⟨hm, rfl⟩ hr

/-- What leaves the cursor in place, at a place of a kind of its own. -/
theorem still_bind {x : EStateM ε Machine α} {f : α → EStateM ε Machine Status} (hx : Still true x)
    (hB : ∀ {c}, B c → A c) (hf : ∀ a, Advances B A (f a)) : Advances B A (x >>= f) := by
  intro m hm hr
  have h := hx m
  have walks := hx.onward m (hB hm)
  show Arrives A m (EStateM.bind x f m)
  unfold EStateM.bind
  cases hx : x m with
  | ok a m' =>
    rw [hx] at h
    exact .trans h.resume (hf a m' (h.cursor ▸ hm) (h.resume.trans hr))
  | error e m' =>
    rw [hx] at walks
    exact Walks.arrives (r := .error e m') walks

theorem capture_bind {f : Position → EStateM ε Machine Status}
    (hf : ∀ m, B m.thread.cursor → m.thread.resume = [] →
      Arrives A m (f m.thread.cursor.capture m)) : Advances B A (Eval.capture >>= f) := hf

theorem holding (vs : List Value) {x : EStateM ε Machine Status} (hx : Advances B A x) :
    Advances B A (Eval.holding vs x) := by
  intro m hm hr
  have h := hx { m with pinned := .values vs :: m.pinned } hm hr
  simp only [Eval.holding, Eval.pinning]
  cases hx : x { m with pinned := .values vs :: m.pinned } with
  | ok status m' =>
    rw [hx] at h
    cases status <;> exact h
  | error e m' =>
    rw [hx] at h
    simp only [Arrives] at h ⊢
    split at h
    · trivial
    · exact h

theorem inLoop {x : Eval Status} (hx : Advances B A x) : Advances B A (Eval.inLoop x) := by
  intro m hm hr
  let inside : Machine := { m with thread := { m.thread with
    mode := { m.thread.mode with loopDepth := m.thread.mode.loopDepth + 1 } } }
  have h := hx inside hm hr
  have enter : (do
      Eval.modifyMode fun mode => { mode with loopDepth := mode.loopDepth + 1 }
      x : Eval Status) m = x inside := rfl
  unfold Eval.inLoop
  rw [enter]
  cases hx : x inside with
  | ok status m' =>
    rw [hx] at h
    cases status <;> exact h
  | error e m' =>
    rw [hx] at h
    cases e <;> exact h

/-- What follows a statement; what has yielded is parked. -/
theorem behind {x : EStateM ε Machine Status} {f : Status → EStateM ε Machine Status}
    (hx : Advances B A x) (hf : ∀ status, status ≠ .yielded → Advances A A (f status))
    (hy : ∀ m, ∃ m', f .yielded m = .ok .yielded m') : Advances B A (x >>= f) := by
  intro m hm hr
  have h := hx m hm hr
  show Arrives A m (EStateM.bind x f m)
  unfold EStateM.bind
  cases hx : x m with
  | error e m' =>
    rw [hx] at h
    exact h
  | ok status m' =>
    rw [hx] at h
    by_cases hs : status = .yielded
    · subst hs
      obtain ⟨m'', hy⟩ := hy m'
      show Arrives A m (f .yielded m')
      rw [hy]
      trivial
    · obtain ⟨hA, hres⟩ := h.ok hs
      exact .trans hres (hf status hs m' hA (hres.trans hr))

theorem lift {x : Run Status} (hx : Advances B A x) : Advances B A (liftM x : Eval Status) := by
  intro m hm hr
  have h := hx m hm hr
  rw [Quiet.run_lift]
  cases hx : x m with
  | error fault m' => trivial
  | ok status m' =>
    rw [hx] at h
    cases status <;> exact h

end Advances

end Arrives

/-- A loop stays on its body. -/
theorem RangeLoop.body_of_advance {l l' : RangeLoop} (h : l.advance? = some l') :
    l'.body = l.body := by
  unfold RangeLoop.advance? at h
  split at h
  · dsimp only at h
    split at h
    · obtain rfl := Option.some.inj h
      rfl
    · contradiction
  · obtain rfl := Option.some.inj h
    rfl

namespace Eval

/-- What bodies ask of the jobs. -/
structure Travels (A : Cursor → Prop) (j : Jobs) : Prop where
  strolls : Strolls A j
  body : ∀ column, Advances (Stands A column) A (j.body column)

theorem park_yields (kind : FrameKind) (m : Machine) : ∃ m', park kind m = .ok .yielded m' :=
  ⟨_, rfl⟩

section Bodies

variable {A : Cursor → Prop} {j : Jobs} (hA : Cursor.Forward A) (hj : Travels A j)
include hA

/-! ### Blocks and branches -/

theorem advances_finishBlock (column : Nat) {B : Cursor → Prop} {body : Run Status}
    (hb : Advances B A body) : Advances B A (finishBlock column body) := by
  refine .behind (.lift hb) (fun status hs => ?_) fun m => park_yields _ m
  have close : Onward A (do
      popScope
      let close ← current
      if close.kind ≠ .rbrace then malformed .unclosedBlock close
      if close.column ≠ column then malformed (.misalignedBrace close.column column) close
      let _ ← bump
      return status : Eval Status) := by
    refine .bind still_popScope.onward fun _ => .bind onward_current fun _ => ?_
    refine .guard (still_malformed _ _).onward (.guard (still_malformed _ _).onward ?_)
    exact .bind (.lift (onward_bump hA)) fun _ => .pure _
  cases status with
  | yielded => exact absurd rfl hs
  | _ => exact close.advances

theorem onward_skipBranches (column n : Nat) : Onward A (skipBranches column n) := by
  induction n with
  | zero => exact fun _ _ => trivial
  | succ n ih =>
    refine .bind onward_current fun _ => .ite (.bind (onward_bump hA) fun _ => ?_) (.pure _)
    exact .bind (fun m hm => leads_skipBody hA _ m (.inl hm)) fun _ => ih

theorem advances_finishBranch (n column : Nat) {B : Cursor → Prop} {body : Run Status}
    (hb : Advances B A body) : Advances B A (finishBranch n column body) := by
  refine .behind (.lift hb) (fun status hs => ?_) fun m => park_yields _ m
  have passed : Onward A (do
      skipBranches column n
      return status : Eval Status) :=
    .bind (.lift (onward_skipBranches hA column n)) fun _ => .pure _
  cases status with
  | yielded => exact absurd rfl hs
  | _ => exact passed.advances

include hj

omit hA in
/-- A body that begins behind its header. -/
theorem Travels.behind_header (column : Nat) : Advances A A (j.body column) :=
  (hj.body column).of_imp .inl

theorem advances_blockStatement : Advances (Cursor.On A) A (blockStatement j) :=
  .after (.lift (moves_bump hA)) fun _ => .after still_pushScope.onward fun _ =>
    advances_finishBlock hA _ (hj.behind_header _)

theorem advances_branches (column n : Nat) : Advances A A (branches j column n) := by
  induction n with
  | zero => exact still_exhausted.onward.advances
  | succ n ih =>
    have branch := advances_finishBranch hA n column (hj.behind_header (column + 4))
    refine .after (.lift (onward_advance hA _)) fun _ => .after (hj.strolls.expression hA).onward fun _ => ?_
    refine .after (still_truthy _).onward fun _ => .after (onward_enterBlock hA _) fun _ => ?_
    refine .ite branch (.after (onward_skipBody hA _) fun _ => .after onward_current fun token => ?_)
    refine .ite (.pure _) ?_
    split
    · exact .after (.lift (onward_bump hA)) fun _ => ih
    · exact .after (.lift (onward_bump hA)) fun _ => .after (onward_enterBlock hA _) fun _ => branch
    · exact .pure _

theorem advances_ifStatement (n : Nat) : Advances (Cursor.On A) A (ifStatement j n) :=
  .after (.lift (moves_bump hA)) fun _ => advances_branches hA hj _ n

/-! ### Exceptions -/

omit hA hj in
theorem onward_isClause (k : TokenKind) (column : Nat) : Onward A (isClause k column) :=
  .bind onward_current fun _ => .pure _

omit hA hj in
theorem advances_finallyBody (pending : Option Signal) {body : Run Status}
    (hb : Advances A A body) : Advances A A (finallyBody pending body) := by
  refine .behind (.holding _ (.lift hb)) (fun status hs => ?_) fun m => park_yields _ m
  cases status with
  | yielded => exact absurd rfl hs
  | _ => exact .pure _

theorem advances_finallyClause (column : Nat) (handled : Bool) (pending : Option Signal) :
    Advances A A (finallyClause j column handled pending) := by
  refine .after (.lift (onward_isClause _ _)) fun _ => .ite ?_ ?_
  · exact .after (.lift (onward_bump hA)) fun _ => .after (onward_enterBlock hA _) fun _ =>
      advances_finallyBody pending (hj.behind_header _)
  · refine .ite (.after onward_current fun _ => ?_) (.pure _)
    exact .after (still_malformed _ _).onward fun _ => .pure _

theorem advances_handlerBody (column : Nat) {body : Run Status} (hb : Advances A A body) :
    Advances A A (handlerBody j column body) := by
  refine .behind (.lift hb) (fun status hs => ?_) fun m => park_yields _ m
  have clause := advances_finallyClause hA hj column true
  cases status with
  | yielded => exact absurd rfl hs
  | normal => exact .after still_popScope.onward fun _ => clause none
  | leaving signal => exact .after still_popScope.onward fun _ => clause (some signal)

theorem advances_handlerClause (column : Nat) (pending : Option Signal) :
    Advances A A (handlerClause j column pending) := by
  have handler := advances_handlerBody hA hj column (hj.behind_header (column + 4))
  refine .after (.lift (onward_bump hA)) fun _ => .after (.lift (onward_skipOver hA _)) fun _ => ?_
  refine .ite (.after (.map _ (.lift (onward_advance hA _))) fun name => ?_)
    (.after (.pure _) fun name => ?_)
  all_goals
    refine .after (onward_enterBlock hA _) fun _ => ?_
    split
    · refine .after still_pushScope.onward fun _ => ?_
      cases name with
      | some token => exact .after (still_define _ _).onward fun _ => handler
      | none => exact handler
    · exact .after (onward_skipBody hA _) fun _ => advances_finallyClause hA hj column true _

theorem advances_tryClauses (column : Nat) (pending : Option Signal) :
    Advances A A (tryClauses j column pending) :=
  .after (.lift (onward_isClause _ _)) fun _ => .ite (advances_handlerClause hA hj column pending)
    (advances_finallyClause hA hj column false pending)

theorem advances_tryStatement : Advances (Cursor.On A) A (tryStatement j) := by
  refine .after (.lift (moves_bump hA)) fun keyword => .after (onward_enterBlock hA _) fun _ => ?_
  refine .behind (.lift (hj.behind_header _)) (fun status hs => ?_) fun m => park_yields _ m
  cases status with
  | yielded => exact absurd rfl hs
  | normal => exact advances_tryClauses hA hj _ none
  | leaving signal => exact advances_tryClauses hA hj _ (some signal)

/-! ### Loops -/

theorem onward_whileCondition (column : Nat) {header : Position} (hh : Cursor.Marked A header) :
    Onward A (whileCondition j column header) := by
  refine .lift_bind (leads_rewind hA hh) fun _ => .look looks_resetTapeUnlessReplaying fun _ => ?_
  refine .look (.read _) fun site => ?_
  refine .bind (hj.strolls.expression hA) fun held => ?_
  split
  · exact .bind (onward_enterBlock hA _) fun _ => .pure _
  · exact (still_complain _ _).onward

omit hA hj in
theorem advances_whileRound {header : Position} {again : Eval Status} {body : Run Status}
    (ha : Advances A A again) (hb : Advances A A body) :
    Advances A A (whileRound header again body) := by
  refine .behind (.lift hb) (fun status hs => ?_) fun m => park_yields _ m
  cases status with
  | yielded => exact absurd rfl hs
  | normal => exact ha
  | leaving signal =>
    cases signal with
    | again => exact ha
    | _ => exact .pure _

theorem advances_whileRounds (column : Nat) {header : Position} (hh : Cursor.Marked A header)
    (n : Nat) : Advances A A (whileRounds j column header n) := by
  induction n with
  | zero => exact still_exhausted.onward.advances
  | succ n ih =>
    refine .after (onward_whileCondition hA hj column hh) fun _ => .ite ?_ ?_
    · exact advances_whileRound ih (hj.behind_header _)
    · exact .after (onward_skipBody hA _) fun _ => .pure _

omit hj in
/-- A place where the body at `column` begins, as a header leads to it. -/
theorem leads_rewind_body {column : Nat} {p : Position}
    (hp : Cursor.Marked (Entered A column) p) : Leads A (Stands A column) (rewind p) := by
  obtain ⟨b, ⟨hb, hk, hc⟩, rfl⟩ := hp
  refine leads_move fun hd h => ?_
  have meets := hA.rewind_meets hb hd h
  exact .inr ⟨⟨b, hb, meets⟩, meets.kind ▸ hk, Nat.le_of_eq (hc.symm.trans (congrArg Token.column meets.current.symm))⟩

omit hj in
/-- A loop goes back to its body to pass it once more. -/
theorem onward_leaveLoop {column : Nat} {p : Position}
    (hp : Cursor.Marked (Entered A (column + 4)) p) : Onward A (leaveLoop column p) :=
  .bind still_popScope.onward fun _ => .lift_bind (leads_rewind_body hA hp) fun _ =>
    .lift (leads_skipBody hA _)

omit hj in
theorem advances_left {column : Nat} {p : Position}
    (hp : Cursor.Marked (Entered A (column + 4)) p) (status : Status) :
    Advances A A (do leaveLoop column p; return status : Eval Status) :=
  .after (onward_leaveLoop hA hp) fun _ => .pure _

omit hj in
theorem advances_rangeRound (column : Nat) {l : RangeLoop}
    (hl : Cursor.Marked (Entered A (column + 4)) l.body) {again : RangeLoop → Eval Status}
    (ha : ∀ l', l'.body = l.body → Advances A A (again l')) {B : Cursor → Prop} {body : Run Status}
    (hb : Advances B A body) : Advances B A (rangeRound column l again body) := by
  have left := advances_left hA hl
  refine .behind (.lift hb) (fun status hs => ?_) fun m => park_yields _ m
  cases status with
  | yielded => exact absurd rfl hs
  | normal =>
    cases h : l.advance? with
    | none => exact left _
    | some l' => exact ha l' (RangeLoop.body_of_advance h)
  | leaving signal =>
    cases signal with
    | again =>
      cases h : l.advance? with
      | none => exact left _
      | some l' => exact ha l' (RangeLoop.body_of_advance h)
    | _ => exact left _

theorem advances_rangeRounds (column n : Nat) (l : RangeLoop)
    (hl : Cursor.Marked (Entered A (column + 4)) l.body) :
    Advances A A (rangeRounds j column n l) := by
  induction n generalizing l with
  | zero => exact still_exhausted.onward.advances
  | succ n ih =>
    refine .ite (advances_left hA hl _) (.after (still_define _ _).onward fun _ => ?_)
    refine .after_lift (leads_rewind_body hA hl) fun _ => advances_rangeRound hA column hl ?_ (hj.body _)
    exact fun l' h => ih l' (h ▸ hl)

omit hj in
theorem advances_eachRound (column : Nat) {l : EachLoop}
    (hl : Cursor.Marked (Entered A (column + 4)) l.body) {again : EachLoop → Eval Status}
    (ha : ∀ l', l'.body = l.body → Advances A A (again l')) {B : Cursor → Prop} {body : Run Status}
    (hb : Advances B A body) : Advances B A (eachRound column l again body) := by
  have left := advances_left hA hl
  refine .behind (.lift hb) (fun status hs => ?_) fun m => park_yields _ m
  cases status with
  | yielded => exact absurd rfl hs
  | normal => exact ha _ rfl
  | leaving signal =>
    cases signal with
    | again => exact ha _ rfl
    | _ => exact left _

theorem advances_eachRounds (column n : Nat) (l : EachLoop)
    (hl : Cursor.Marked (Entered A (column + 4)) l.body) :
    Advances A A (eachRounds j column n l) := by
  induction n generalizing l with
  | zero => exact still_exhausted.onward.advances
  | succ n ih =>
    rw [eachRounds]
    split
    · exact advances_left hA hl _
    · refine .after (still_onHeap _).onward fun _ => .after (still_define _ _).onward fun _ => ?_
      refine .after_lift (leads_rewind_body hA hl) fun _ => advances_eachRound hA column hl ?_ (hj.body _)
      exact fun l' h => ih l' (h ▸ hl)

theorem advances_rangeLoop (n column : Nat) (var : String) :
    Advances A A (rangeLoop j n column var) := by
  have value (vs : List Value) : Onward A (holding vs j.expression) :=
    leads_holding _ (hj.strolls.expression hA).onward
  refine .after (.lift (onward_bump hA)) fun _ => .after onward_current fun site => ?_
  refine .after (hj.strolls.expression hA).onward fun _ => .after (still_own _).onward fun first => ?_
  refine .after (.lift (onward_advance hA _)) fun _ => .after (value _) fun _ => ?_
  refine .after (still_own _).onward fun last => .after (.lift (onward_skipOver hA _)) fun _ => ?_
  refine .ite (.after (value _) fun _ => .after (still_own _).onward fun step => ?_)
    (.after (.pure _) fun step => ?_)
  all_goals
    refine .after_lift (fun m hm => leads_enterBlock hA column m (.of hm)) fun _ => ?_
    refine .still_bind (still_checkBounds _ _ _ _) And.left fun _ => .capture_bind fun m hm => ?_
    refine (Advances.after still_pushScope.onward fun _ => .inLoop ?_ : Advances A A _) m hm.1
    exact advances_rangeRounds hA hj column n _ ⟨_, hm, rfl⟩

theorem advances_eachLoop (n column : Nat) (var : String) :
    Advances A A (eachLoop j n column var) := by
  refine .after (.lift (onward_bump hA)) fun _ => .after onward_current fun site => ?_
  refine .after (hj.strolls.expression hA).onward fun _ => ?_
  refine .after_lift (fun m hm => leads_enterBlock hA column m (.of hm)) fun _ => ?_
  refine .still_bind (still_ask _) And.left fun _ => ?_
  refine .still_bind (still_orComplain _ _) And.left fun _ => .capture_bind fun m hm => ?_
  refine (Advances.after still_pushScope.onward fun _ => .holding _ (.inLoop ?_) : Advances A A _) m hm.1
  exact advances_eachRounds hA hj column n _ ⟨_, hm, rfl⟩

theorem advances_forLoop (n column : Nat) : Advances A A (forLoop j n column) := by
  refine .after (.lift (onward_advance hA _)) fun _ => .after (.lift (onward_advance hA _)) fun var => ?_
  refine .after onward_kind fun k => ?_
  split
  · exact advances_rangeLoop hA hj n column _
  · exact advances_eachLoop hA hj n column _
  · exact .after onward_current fun _ => (still_malformed _ _).onward.advances

theorem advances_loopStatement (n : Nat) : Advances (Cursor.On A) A (loopStatement j n) := by
  refine .after (.lift (moves_bump hA)) fun keyword => .after (.lift (onward_advance hA _)) fun _ => ?_
  refine .after onward_kind fun k => ?_
  split
  · refine .after (.lift (onward_bump hA)) fun _ => .capture_bind fun m hm => ?_
    exact Advances.inLoop (advances_whileRounds hA hj _ ⟨_, hm, rfl⟩ n) m hm
  · exact advances_forLoop hA hj n _
  · exact .after onward_current fun _ => (still_malformed _ _).onward.advances

/-! ### Blueprints -/

omit hj in
theorem onward_parentBlueprint : Onward A parentBlueprint := by
  refine .bind (.lift (onward_skipOver hA _)) fun _ => .ite (.pure _) ?_
  refine .bind (.lift (onward_advance hA _)) fun _ => .bind (still_lookup _).onward fun v => ?_
  split
  · exact .pure _
  · exact (still_complain _ _).onward
  · exact (still_complain _ _).onward

omit hA hj in
/-- The body of a blueprint runs on the thread that defines it. -/
theorem advances_inBlueprint_bind (r : Ref .blueprint) (members : Ref .scope) {x : Run Status}
    (hx : Advances A A x) {f : Except Fault Status → Eval Status}
    (hf : ∀ status, status ≠ .yielded → Advances A A (f (.ok status)))
    (hy : ∀ m, ∃ m', f (.ok .yielded) m = .ok .yielded m')
    (he : ∀ fault, f (.error fault) = throw (.fault fault)) :
    Advances A A (inBlueprint r members x >>= f) := by
  intro m hm hr
  have h := hx (memberMachine m r members) hm hr
  show Arrives A m (EStateM.bind (inBlueprint r members x) f m)
  unfold EStateM.bind
  rw [inBlueprint_run]
  cases hx : x (memberMachine m r members) with
  | error fault m' =>
    show Arrives A m (f (.error fault) (ownerMachine m m'))
    rw [he]
    trivial
  | ok status m' =>
    rw [hx] at h
    -- a body that has yielded is not over, and the statement yields too
    by_cases hs : status = .yielded
    · subst hs
      obtain ⟨m'', hy⟩ := hy (ownerMachine m m')
      show Arrives A m (f (.ok .yielded) (ownerMachine m m'))
      rw [hy]
      trivial
    · obtain ⟨hA, hres⟩ := h.ok hs
      exact .trans hres (hf status hs (ownerMachine m m') hA (hres.trans hr))

theorem advances_blueprintStatement : Advances (Cursor.On A) A (blueprintStatement j) := by
  refine .after (.lift (moves_bump hA)) fun site => .after (.lift (onward_advance hA _)) fun _ => ?_
  refine .after (.lift (onward_advance hA _)) fun name => .after (onward_parentBlueprint hA) fun _ => ?_
  refine .after (onward_enterBlock hA _) fun _ => .after (Still.read _).onward fun _ => ?_
  refine .after (still_onWorld _).onward fun made => ?_
  refine advances_inBlueprint_bind _ _ (hj.behind_header _) (fun status hs => ?_)
    (fun m => ⟨m, rfl⟩) fun _ => rfl
  cases status with
  | yielded => exact absurd rfl hs
  | normal => exact .after (still_define _ _).onward fun _ => .pure _
  | leaving signal => exact .pure _

/-! ### Any statement -/

theorem advances_statement (n column : Nat) : Advances (Stands A column) A (statement j n) := by
  refine .current_bind fun token => .look (.read _) fun mode => .ite (fun _ _ _ => trivial) ?_
  have moves {x : Eval Status} (h : Advances (Cursor.On A) A x) :
      Advances (fun c => Stands A column c ∧ c.current = token) A x := h.of_imp fun hc => hc.1.on
  cases hk : token.kind with
  | kwLet => exact moves (moves_letStatement hA hj.strolls n).advances
  | kwFunct | kwAsync => exact moves (moves_functStatement hA hj.strolls n).advances
  | kwReturn => exact moves (moves_returnStatement hA hj.strolls n).advances
  | kwIf => exact moves (advances_ifStatement hA hj n)
  | kwLoop => exact moves (advances_loopStatement hA hj n)
  | kwBreak | kwContinue => exact moves (moves_loopSignal hA _).advances
  | kwSkip => exact moves (moves_skipStatement hA).advances
  | lbrace => exact moves (advances_blockStatement hA hj)
  | kwRaise => exact moves (moves_raiseStatement hA hj.strolls).advances
  | kwTry => exact moves (advances_tryStatement hA hj)
  | kwBlueprint => exact moves (advances_blueprintStatement hA hj)
  | kwLoad => exact moves (moves_loadStatement hA n).advances
  | ident | kwSuper | kwAwait => exact moves (moves_expressionStatement hA hj.strolls).advances
  | eof =>
    -- no body begins at the end of the text, unless it is come by
    intro m hm _
    obtain ⟨hm | ⟨-, hn, -⟩, rfl⟩ := hm
    · exact ⟨hm, rfl⟩
    · exact absurd hk hn
  | _ => exact fun _ _ _ => trivial

/-! ### Execution -/

omit hA hj in
theorem looks_takeCancellation : Looks takeCancellation := by
  intro m
  cases ha : m.thread.mode.inAsync with
  | false => exact ⟨none, m, takeCancellation_of_not_async ha, .refl m⟩
  | true =>
    cases ht : m.thread.task with
    | none =>
      refine ⟨none, m, ?_, .refl m⟩
      simp only [takeCancellation, bind, EStateM.bind, get_run, ha, ht]
      rfl
    | some r =>
      rw [takeCancellation_of_async ha ht]
      split
      · exact ⟨none, m, rfl, .refl m⟩
      · exact ⟨_, _, rfl, rfl, rfl, rfl, fun h => absurd h (by decide)⟩

/-- A cancelled body is left where its next statement begins. -/
theorem advances_enter (n column : Nat) (start : Position) :
    Advances (Stands A column) (Stands A column) (enter j n start) := by
  intro m hm hr
  have none_taken : (liftM (takeFrame start) : Eval (Option FrameKind)) m = .ok none m := by
    rw [Quiet.run_lift, takeFrame_run, hr]
  rw [enter, bind_of_ok none_taken]
  refine Advances.look looks_resetTapeUnlessReplaying (fun _ => ?_) m hm hr
  refine .look looks_takeCancellation.lift fun raised => ?_
  cases raised with
  | some raised => exact .pure _
  | none => exact (advances_statement hA hj n column).mono .inl

omit hA hj in
/-- A statement that raises an exception leaves its body with it. -/
theorem advances_conclude {B : Cursor → Prop} (start : Position) {x : Eval Status}
    (hx : Advances B A x) : Advances B A (conclude start x) := by
  intro m hm hr
  have h := hx m hm hr
  have reset {m' : Machine} (status : Status)
      (h : A m'.thread.cursor ∧ m'.thread.resume = m.thread.resume) :
      Arrives A m ((do resetTape; return status : Run Status) m') :=
    .trans h.2 (Advances.look looks_resetTape (fun _ => .pure status) m' h.1 (h.2.trans hr))
  rw [conclude_run]
  cases he : x m with
  | ok status m' =>
    rw [he] at h
    cases status with
    | yielded => trivial
    | normal => exact reset _ h
    | leaving signal => exact reset _ h
  | error e m' =>
    rw [he] at h
    cases e with
    | raised r => exact reset _ h
    | suspended => trivial
    | fault f => trivial

theorem advances_execute (n column : Nat) {m : Machine} (hm : Stands A column m.thread.cursor)
    (hr : m.thread.resume = []) (hk : m.thread.cursor.kind ≠ .colon) :
    Arrives (Stands A column) m (execute j n m) := by
  rw [execute_run j n hk]
  exact advances_conclude _ (advances_enter hA hj n column _) m hm hr

omit hj in
/-- A signal takes the cursor behind the body. -/
theorem arrives_goOn {column : Nat} {m : Machine} {next x : Run Status}
    (hn : Advances (Stands A column) A next) (hr : m.thread.resume = [])
    (hx : Arrives (Stands A column) m (x m)) : Arrives A m (goOn column next x m) := by
  show Arrives A m (EStateM.bind x _ m)
  unfold EStateM.bind
  cases he : x m with
  | error fault m' => trivial
  | ok status m' =>
    rw [he] at hx
    cases status with
    | yielded => trivial
    | normal => exact .trans hx.2 (hn m' hx.1 (hx.2.trans hr))
    | leaving signal =>
      have left : Advances (Stands A column) A (do
          skipBody column
          return .leaving signal : Run Status) :=
        .after (leads_skipBody hA column) fun _ => .pure _
      exact .trans hx.2 (left m' hx.1 (hx.2.trans hr))

omit hj in
theorem stands_skipColons {column : Nat} {c d : Cursor} (hc : Stands A column c)
    (h : c.skipColons = .ok d) : Stands A column d := by
  fun_induction Cursor.skipColons c with
  | case1 => contradiction
  | case2 c hk d' hd he =>
    obtain rfl := Except.ok.inj h
    exact .inl (hA.bump_on hc.on hd)
  | case3 c hk d' hd he _ ih => exact ih (.inl (hA.bump_on hc.on hd)) h
  | case4 c hk =>
    obtain rfl := Except.ok.inj h
    exact hc

theorem advances_statements (column n : Nat) :
    Advances (Stands A column) A (statements j column n) := by
  induction n with
  | zero => exact fun _ _ _ => trivial
  | succ n ih =>
    intro m hm hr
    cases hd : m.thread.cursor.skipColons with
    | error failure =>
      have : statements j column (n + 1) m = .error (.failure failure) m := by
        show EStateM.bind (move Cursor.skipColons) _ m = _
        unfold EStateM.bind
        simp only [move, hd]
      rw [this]
      trivial
    | ok d =>
      -- what follows the colons is the end, something left of the body, or a statement of it
      have stands := stands_skipColons hA hm hd
      rw [statements_run j column n hd]
      split
      · exact ⟨stands.resolve_right fun h => absurd ‹_› h.2.1, rfl⟩
      split
      · rename_i hleft
        exact ⟨stands.resolve_right fun h => absurd hleft.2 (Nat.not_lt.mpr h.2.2), rfl⟩
      split
      · trivial
      · have executed := advances_execute hA hj n column (m := m.moved d) stands hr
          (Cursor.kind_skipColons hd)
        have same : (m.moved d).thread.resume = m.thread.resume := rfl
        exact .trans same (arrives_goOn hA ih hr executed)

theorem advances_runBody (n column : Nat) : Advances (Stands A column) A (runBody j n column) := by
  intro m hm hr
  have fresh : runBody j n column m = statements j column n m := by
    simp only [runBody, bind, EStateM.bind, get_run, hr]
  rw [fresh]
  exact advances_statements hA hj column n m hm hr

end Bodies

theorem travels_jobs (fuel : Nat) {A : Cursor → Prop} (hA : Cursor.Forward A) :
    Travels A (jobs fuel) := by
  induction fuel with
  | zero => exact ⟨strolls_jobs 0 hA, fun _ _ _ _ => trivial⟩
  | succ fuel ih => exact ⟨strolls_jobs (fuel + 1) hA, fun column => advances_runBody hA ih fuel column⟩

end Eval

end Rewind
