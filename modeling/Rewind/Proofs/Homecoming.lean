/-
Coming home.

A statement that is over has left all the scopes that were entered in it, and a body has left those of
its statements.  That holds however they end, and whether they begin anew or go on from frames, as long
as the frames fit the columns of the bodies they stand in: from the scope that the frames lead to,
whoever re-enters them comes home.

* `homing_letStatement`, … — statements without a body of their own;
* `homing_statement`, `homes_reenter` — any statement, and any construct that is re-entered;
* `homes_execute`, `homes_execute_frame` — the run of a statement, anew or from its frames;
* `tidy_jobs` — bodies.
-/
import Rewind.Proofs.Nesting

namespace Rewind

open Eval

variable {ε α β : Type} [Stops ε]

namespace Eval

section Constructs

variable {program : Option String} {A : Source → Prop} {c : Control} {m : Machine}
  {home : Ref .scope}

section Tidy

variable {j : Jobs} (hj : Tidy j)

include hj

/-! ### Statements without a body of their own -/

theorem homing_letStatement (n : Nat) : Homing 0 A (letStatement j n) := by
  have read : Remains A (accessors j n []) :=
    .of (quiet_accessors hj.works n _) fun ground => echoes_accessors (hj.echoes ground) n _
  have value (vs : List Value) : Remains A (holding vs j.expression) :=
    remains_holding _ hj.works.expression fun ground => (hj.echoes ground).expression
  have assigned (name : String) (v : Value) : Remains A (assign name v : Eval Unit) :=
    .of (quiet_assign _ _) fun _ => echoes_assign _ _
  have found (vs : List Value) (name : String) : Remains A (holding vs (lookup name)) :=
    remains_holding _ (quiet_lookup _) fun _ => echoes_lookup _
  have followed (base : Value) (steps : List Accessor) : Remains A (steps.foldlM follow base) :=
    .of (quiet_foldlM (fun _ _ => quiet_follow _ _) _ _) fun _ =>
      .foldlM (fun _ _ => echoes_follow _ _) _ _
  have stored (target v : Value) (step : Accessor) : Remains A (store target v step) :=
    .of (quiet_store _ _ _) fun _ => echoes_store _ _ _
  refine .bind remains_bump fun _ => .bind (remains_advance _) fun _ => ?_
  refine .bind (remains_advance _) fun name => .bind read fun steps => ?_
  refine .bind (remains_advance _) fun _ => .bind (value _) fun _ => ?_
  refine .bind (remains_own _) fun v => .bind remains_endStatement fun _ => ?_
  split
  · exact .bind (assigned _ _) fun _ => .pure (by simp)
  · refine .bind (found _ _) fun base => ?_
    split
    · exact .bind (remains_complain _ _) fun _ => .pure (by simp)
    · exact .bind (followed _ _) fun _ => .bind (stored _ _ _) fun _ => .pure (by simp)

theorem homing_returnStatement (n : Nat) : Homing 0 A (returnStatement j n) := by
  have left (v : Value) : Homing 0 A (do
      endStatement
      return .leaving (.result v) : Eval Status) :=
    .bind remains_endStatement fun _ => .pure (by simp)
  have items (read : List Value) : Remains A (resultItems j n read) :=
    .of (quiet_resultItems hj.works n _) fun ground => echoes_resultItems (hj.echoes ground) n _
  refine .bind remains_bump fun keyword => .bind remains_mode fun _ => ?_
  refine .ite (fun _ => .malformed_bind _ _ _) fun _ => ?_
  refine .bind (remains_advance _) fun _ => .bind remains_current fun _ => ?_
  refine .ite (fun _ => .pure (by simp)) fun _ => ?_
  refine .bind (remains_expression hj) fun _ => .bind (remains_own _) fun _ => ?_
  refine .bind remains_kind fun _ => .ite (fun _ => ?_) fun _ => .bind (.pure _) left
  exact .bind (items _) fun _ => .bind (remains_onHeap _) left

theorem homing_raiseStatement : Homing 0 A (raiseStatement j) := by
  refine .bind remains_bump fun keyword => .bind (remains_advance _) fun _ => ?_
  refine .bind (remains_expression hj) fun _ => .bind (remains_own _) fun v => ?_
  refine .bind remains_endStatement fun _ => ?_
  split
  · exact .pure (by simp)
  · exact .complain _ _

omit hj in
theorem homing_loopSignal (signal : Signal) : Homing 0 A (loopSignal signal) := by
  refine .bind remains_current fun _ => .bind remains_mode fun _ => ?_
  refine .ite (fun _ => .malformed_bind _ _ _) fun _ => ?_
  exact .bind remains_bump fun _ => .bind remains_endStatement fun _ => .pure (by simp)

omit hj in
theorem homing_skipStatement : Homing 0 A skipStatement :=
  .bind remains_bump fun _ => .bind remains_endStatement fun _ => .pure (by simp)

theorem homing_expressionStatement : Homing 0 A (expressionStatement j) :=
  .bind (remains_expression hj) fun _ => .bind remains_endStatement fun _ => .pure (by simp)

theorem homing_functStatement (n : Nat) : Homing 0 A (functStatement j n) := by
  have params (name : String) : Remains A (parameters j name n []) :=
    .of (quiet_parameters hj.works name n _) fun ground => echoes_parameters (hj.echoes ground) name n _
  refine .bind remains_current fun _ => .bind (remains_skipOver _) fun isAsync => ?_
  refine .bind (remains_advance _) fun _ => .bind (remains_advance _) fun _ => ?_
  refine .bind (remains_advance _) fun name => .bind (remains_advance _) fun _ => ?_
  refine .bind (params _) fun params => .bind (remains_advance _) fun _ => ?_
  refine .bind (remains_enterBlock _) fun _ => .capture_bind fun entry => ?_
  refine .bind (remains_skipBody _) fun _ => fun program c m home hm hr hs => ?_
  refine (Homing.bind (.of quiet_scope fun _ => echoes_scope) fun scope =>
    .bind (.of (quiet_newFunction ?_) fun _ => echoes_newFunction _) fun _ =>
    .bind (remains_define _ _) fun _ => .pure (by simp) :
      Homing 0 (fun s => A s ∧ s.Marks entry) _) program c m home hm hr hs
  intro body hb
  obtain rfl := Body.script.inj hb
  exact hm.source.2

omit hj in
/-- What follows the body of a blueprint goes on in the scope the blueprint stands in. -/
theorem homing_inBlueprint_bind (r : Ref .blueprint) (members : Ref .scope) {x : Run Status}
    (hx : Orderly false (fun _ => True) x) (he : ∀ ground, Echoes {} ground x x)
    {f : Except Fault Status → Eval Status}
    (herr : ∀ fault, f (.error fault) = throw (.fault fault))
    (hok : ∀ status, status ≠ .yielded → Homing 0 A (f (.ok status))) :
    Homing 0 A (inBlueprint r members x >>= f) := by
  intro program c m home hm hr hs
  have h := carried_memberMachine hm.ready (.inl hr) r members hx
  have grounds : Grounds ⟨program, [], m, false⟩ m := hm.amid
  have echo := he ⟨program, [], m, false⟩ _
    (grounds.enter (memberMachine m r members) grounds.distinct grounds.directory grounds.entries rfl
      grounds.depth grounds.lineage false)
  show Homes true home m (EStateM.bind _ f m)
  unfold EStateM.bind
  rw [inBlueprint_run]
  cases hb : x (memberMachine m r members) with
  | ok status m' =>
    rw [hb] at h echo
    have passes := passes_ownerMachine h.2
    have kept : Kept m m (ownerMachine m m') := kept_ownerMachine echo.1
    refine .since passes.1.parked (hok status h.1 _ _ _ _ (hm.passed passes kept) ?_ ?_)
    · exact List.suffix_nil.1 (hr ▸ passes.1.resume)
    · exact hs
  | error fault m' =>
    show Homes true home m (f (.error fault) (ownerMachine m m'))
    rw [herr]
    exact fun hn => absurd rfl (hn fault)

theorem homing_blueprintStatement : Homing 0 A (blueprintStatement j) := by
  have parented : Remains A parentBlueprint := .of quiet_parentBlueprint fun _ => echoes_parentBlueprint
  have made (name : String) (parent : Option (Ref .blueprint)) (outer : Ref .scope) :
      Remains A (onWorld (·.newBlueprint name parent outer) : Eval (Ref .blueprint × Ref .scope)) :=
    .of (quiet_onWorld_of_same (fun _ => rfl) (fun _ => rfl) fun _ => rfl)
      fun _ => echoes_newBlueprint _ _ _
  refine .bind remains_bump fun _ => .bind (remains_advance _) fun _ => ?_
  refine .bind (remains_advance _) fun name => .bind parented fun parent => ?_
  refine .bind (remains_enterBlock _) fun _ => .bind (.of quiet_scope fun _ => echoes_scope) fun outer => ?_
  refine .bind (made _ _ _) fun p => ?_
  obtain ⟨r, members⟩ := p
  refine homing_inBlueprint_bind r members (hj.works.body _) (fun ground => (hj.echoes ground).inner _)
    (fun _ => rfl) fun status hn => ?_
  cases status with
  | yielded => contradiction
  | normal => exact .bind (remains_define _ _) fun _ => .pure (by simp)
  | leaving signal => exact .pure (by simp)

theorem homing_loadStatement (n : Nat) : Homing 0 A (loadStatement j n) := by
  have loaded : Remains A (loadItems j n) :=
    .of (quiet_loadItems hj.works n) fun ground => echoes_loadItems (hj.echoes ground) n
  refine .bind remains_bump fun _ => .bind (remains_advance _) fun _ => ?_
  exact .bind loaded fun _ => .bind remains_endStatement fun _ => .pure (by simp)

/-! ### Any statement -/

theorem homing_statement (n : Nat) : Homing 0 A (statement j n) := by
  refine .bind remains_current fun token => .bind remains_mode fun _ => ?_
  refine .ite (fun _ => .malformed_bind _ _ _) fun _ => ?_
  cases token.kind with
  | kwLet => exact homing_letStatement hj n
  | kwFunct | kwAsync => exact homing_functStatement hj n
  | kwReturn => exact homing_returnStatement hj n
  | kwIf => exact homing_ifStatement hj n
  | kwLoop => exact homing_loopStatement hj n
  | kwBreak | kwContinue => exact homing_loopSignal _
  | kwSkip => exact homing_skipStatement
  | lbrace => exact homing_blockStatement hj
  | kwRaise => exact homing_raiseStatement hj
  | kwTry => exact homing_tryStatement hj
  | kwBlueprint => exact homing_blueprintStatement hj
  | kwLoad => exact homing_loadStatement hj n
  | ident | kwSuper | kwAwait => exact homing_expressionStatement hj
  | eof => exact .pure (by simp)
  | _ => exact .malformed _ _

/-- A statement that is not re-entered. -/
theorem homing_anew (n : Nat) : Homing 0 A (do
    resetTapeUnlessReplaying
    match ← takeCancellation with
    | some raised => return .leaving (.raised raised)
    | none => statement j n : Eval Status) := by
  refine .bind remains_resetTapeUnlessReplaying fun _ => .bind remains_takeCancellation fun raised => ?_
  split
  · exact .pure (by simp)
  · exact homing_statement hj n

/-- A construct comes home from the scope that the frames inside it and its own lead to. -/
theorem homes_reenter (n column : Nat) {kind : FrameKind} (hm : Poised program kind.Marked c m)
    (hr : Resumable m) (hf : Fits (column + 4) m.thread.resume)
    (hk : kind = .simple → m.thread.resume = [])
    (hs : m.world.scopes.Inside (scopesIn m.thread.resume + kind.scopes) m.thread.scope home) :
    Homes true home m (reenter j n column (j.body (column + 4)) kind m) := by
  obtain ⟨s, hin, hout⟩ := Scopes.inside_add.1 hs
  -- the places that a frame holds are marked in the source, so evaluation may go on there
  have marked {p : Position} (h : m.thread.cursor.source.Marks p) :
      Poised program (fun s => True ∧ s.Marks p) c m := ⟨hm.ready, hm.amid, trivial, h⟩
  -- the scopes inside the home of the body are those of the frames that are left and one for each
  -- block
  cases kind with
  | simple =>
    obtain rfl : s = home := hout
    rw [hk rfl] at hin
    exact homing_statement hj n _ _ _ _ hm (hk rfl) hin
  | block => exact homes_finishBlock (hj.body hm hr hf hin) hout column
  | branch =>
    obtain rfl : s = home := hout
    exact homes_finishBranch (hj.body hm hr hf hin) n column
  | whileLoop header =>
    obtain rfl : s = home := hout
    exact homes_inLoop (homes_whileRound (homing_whileRounds hj column header n)
      (hj.body (marked hm.source).deeper hr hf hin))
  | rangeLoop l =>
    exact homes_inLoop (homes_rangeRound column l (homing_rangeRounds hj column n)
      (hj.body (marked hm.source).deeper hr hf hin) hout)
  | eachLoop l =>
    exact homes_holding _ (homes_inLoop (homes_eachRound column l (homing_eachRounds hj column n)
      (hj.body ((marked hm.source).pinned _).deeper hr hf hin) hout))
  | attempt phase =>
    cases phase with
    | body =>
      obtain rfl : s = home := hout
      exact homes_tryBody hj (hj.body hm hr hf hin) column
    | handler => exact homes_handlerBody hj (hj.body hm hr hf hin) hout column
    | cleanup pending =>
      obtain rfl : s = home := hout
      exact homes_finallyBody pending hm (hj.body (hm.pinned _) hr hf hin)

/-! ### Execution -/

omit hj in
/-- A statement that does not yield ends where its run ends. -/
theorem passes_conclude {start : Position} {x : Eval Status} {status : Status} {m' : Machine}
    (hm : Ready c m) (h : Carried true c m (x m)) (hx : conclude start x m = .ok status m')
    (hn : status ≠ .yielded) : Passes c m m' := by
  have reset {m₁ : Machine} {s : Status} (hp : Passes c m m₁)
      (hs : (do resetTape; return s : Run Status) m₁ = .ok status m') : Passes c m m' := by
    have h := Passing.bind (A := fun _ => True) passing_resetTape
      (fun _ => (Quiet.pure (ε := Fault) s).passing) c m₁ (hm.passes hp) trivial
    rw [hs] at h
    exact hp.trans h
  rw [conclude_run] at hx
  cases hr : x m with
  | ok s m₁ =>
    rw [hr] at h hx
    cases s with
    | yielded => exact absurd (EStateM.Result.ok.inj hx).1.symm hn
    | normal => exact reset h hx
    | leaving signal => exact reset h hx
  | error e m₁ =>
    rw [hr] at h hx
    cases e with
    | raised r => exact reset h hx
    | suspended => exact absurd (EStateM.Result.ok.inj hx).1.symm hn
    | fault f => contradiction

omit hj in
/-- The end of a statement: one that has yielded parks a frame for the scope it has. -/
theorem homes_conclude (start : Position) {x : Eval Status} (hc : Carried true c m (x m))
    (h : Homes true home m (x m)) : Homes false home m (conclude start x m) := by
  -- who drops the tape keeps its scope
  have reset {status : Status} {m' : Machine} (hn : status ≠ .yielded) (h : AtHome home m') :
      Homes false home m ((do resetTape; return status : Run Status) m') := by
    refine .ok (⟨?_, ?_⟩ : AtHome home { m' with thread := _ }) hn
    · dsimp only
      split <;> exact h.scope
    · dsimp only
      split <;> exact h.resume
  rw [conclude_run]
  cases hx : x m with
  | ok status m' =>
    rw [hx] at h
    cases status with
    | normal => exact reset (by simp) h
    | leaving signal => exact reset (by simp) h
    -- what is parked by the statement stands before what its construct has parked
    | yielded =>
      obtain ⟨hres, frames, hp, hin⟩ := h
      refine ⟨hres, ⟨start, m'.thread.parking.getD .simple⟩ :: frames, ?_, ?_⟩
      · rw [List.cons_append, ← hp]
      · rw [scopesIn_cons]
        exact hin
  | error e m' =>
    rw [hx] at h hc
    cases e with
    | raised r => exact reset (by simp) (h nofun)
    | fault f => exact fun hn => absurd rfl (hn f)
    -- a suspended statement parks a frame of its own and has entered no scope
    | suspended =>
      obtain ⟨r, -, -, passed, -⟩ := hc
      have back := h nofun
      refine ⟨back.resume, [⟨start, .simple⟩], ?_, back.scope⟩
      rw [List.singleton_append, ← passed.parked]

omit hj in
/-- Behind a statement of a body that is over, the next ones go on. -/
theorem homes_goOn {column : Nat} {next x : Run Status} (hm : Poised program A c m)
    (hx : ∀ {status m'}, x m = .ok status m' → status ≠ .yielded → Passes c m m')
    (he : ∀ ground, Echoes {} ground x x) (h : Homes false home m (x m))
    (hn : ∀ m', Poised program A c m' → m'.thread.resume = [] →
      Homes false m'.thread.scope m' (next m')) : Homes false home m (goOn column next x m) := by
  show Homes false home m (EStateM.bind x _ m)
  unfold EStateM.bind
  cases hr : x m with
  | error f m₁ => exact fun hf => absurd rfl (hf f)
  | ok status m₁ =>
    rw [hr] at h
    have kept := hm.keeps he hr
    -- by how the statement ended: what follows it begins at home if it did not yield
    cases status with
    | yielded => exact h
    | normal =>
      have passes := hx hr (by simp)
      have rest := hn m₁ (hm.passed passes kept) h.resume
      rw [h.scope] at rest
      exact .since passes.1.parked rest
    | leaving signal =>
      have passes := hx hr (by simp)
      have behind := remains_skipBody (A := A) column program c m₁ (hm.passed passes kept)
      show Homes false home m (EStateM.bind (skipBody column) _ m₁)
      unfold EStateM.bind
      rw [Quiet.run_lift] at behind
      cases hb : skipBody column m₁ with
      | error f m₂ => exact fun hf => absurd rfl (hf f)
      | ok u m₂ =>
        rw [hb] at behind
        exact ⟨behind.2.scope.trans h.scope, behind.2.resume.trans h.resume⟩

/-- The statement under the cursor. -/
theorem homes_execute (n : Nat) (hm : Poised program A c m) (hr : m.thread.resume = [])
    (hcolon : m.thread.cursor.kind ≠ .colon) :
    Homes false m.thread.scope m (execute j n m) := by
  have anew : enter j n m.thread.cursor.capture m = (do
      resetTapeUnlessReplaying
      match ← takeCancellation with
      | some raised => return .leaving (.raised raised)
      | none => statement j n : Eval Status) m := by
    have none : (liftM (takeFrame m.thread.cursor.capture) : Eval (Option FrameKind)) m =
        .ok none m := by
      rw [Quiet.run_lift, takeFrame_run, hr]
    exact bind_of_ok none
  rw [execute_run j n hcolon]
  refine homes_conclude _ (orderly_enter hj.works n _ c m hm.ready (.inl hr) trivial) ?_
  rw [anew]
  exact homing_anew hj n _ _ _ _ hm hr rfl

theorem homes_statements (column n : Nat) (hm : Poised program A c m)
    (hr : m.thread.resume = []) : Homes false m.thread.scope m (statements j column n m) := by
  -- by induction on the number of statements that are left
  induction n generalizing m with
  | zero => exact fun hn => absurd rfl (hn _)
  | succ n ih =>
    have moved := quiet_skipColons (A := A) c m hm.ready hm.source
    cases hd : m.thread.cursor.skipColons with
    | error failure =>
      have failed : statements j column (n + 1) m = .error (.failure failure) m := by
        show EStateM.bind (move Cursor.skipColons) _ m = _
        unfold EStateM.bind
        simp only [move, hd]
      rw [failed]
      exact fun hn => absurd rfl (hn _)
    | ok d =>
      simp only [move, hd] at moved
      let m₁ : Machine := { m with thread := { m.thread with cursor := d } }
      have hm₁ : Poised program A c m₁ := hm.passed moved.passes
        (.of_eq rfl rfl rfl rfl rfl rfl rfl rfl (.refl _))
      -- the end of the body and the end of the text
      have past : Homes false m.thread.scope m (.ok .normal m₁ : EStateM.Result Fault Machine Status) :=
        ⟨rfl, hr⟩
      rw [statements_run j column n hd]
      by_cases heof : d.kind = .eof
      · rw [if_pos heof]
        exact past
      rw [if_neg heof]
      split
      · exact past
      · split
        · exact fun hn => absurd rfl (hn _)
        · have here : m₁.thread.parked = m.thread.parked := rfl
          refine .since here (homes_goOn hm₁ ?_ ?_ ?_ fun m' hm' hr' => ih hm' hr')
          · intro status m' hx hn
            have h := carried_execute hj.works n hm₁.ready (.inl hr) (Cursor.kind_skipColons hd) heof
            rw [hx] at h
            exact h.passes hn
          · exact fun ground => echoes_execute (hj.echoes ground) n
          · exact homes_execute hj n hm₁ hr (Cursor.kind_skipColons hd)

end Tidy

/-! ### Jobs -/

/-- Back at its frame a construct finds the machine as it was, without the frame. -/
theorem passes_takes {p : Position} (hs : m.thread.cursor.source.Marks p) :
    Passes c m (m.takes p) := by
  obtain ⟨t, behind, ht, hp⟩ := hs
  rw [Machine.takes, ← hp, Machine.onto_eq ht]
  exact ⟨⟨⟨⟨rfl, rfl, rfl, rfl, rfl, rfl⟩, rfl, rfl⟩, rfl, rfl, rfl, rfl, rfl, ht,
    List.tail_suffix _⟩, .refl _⟩

theorem kept_takes (m : Machine) (p : Position) : Kept m m (m.takes p) := by
  unfold Machine.takes Machine.onto
  split <;> exact .of_eq rfl rfl rfl rfl rfl rfl rfl rfl (.refl _)

section Frames

variable {j : Jobs} (hj : Tidy j) {f : Frame} {rest : List Frame} (hm : Poised program A c m)
  (hres : m.thread.resume = rest) (hc : Chain m.thread.cursor.source (f :: rest))

include hj hm hres hc

/-- A construct that is re-entered from its frame is carried on. -/
theorem carried_reentered (n : Nat) : Carried true c m
    (reenter j n f.start.column (j.body (f.start.column + 4)) f.kind m) := by
  refine orderly_reenter hj.works n _ f.kind (hj.works.body _) c _ hm.ready ?_ hc.marked
  unfold Resumable
  rw [hres]
  exact hc.suffix (List.suffix_cons f rest)

/-- It comes home, and so does the statement it is. -/
theorem homes_reentered (n : Nat) (hf : Fits (f.start.column + 4) rest)
    (hs : m.world.scopes.Inside (scopesIn (f :: rest)) m.thread.scope home) :
    Homes false home m (conclude f.start
      (reenter j n f.start.column (j.body (f.start.column + 4)) f.kind) m) := by
  have resumable : Resumable m := by
    unfold Resumable
    rw [hres]
    exact hc.suffix (List.suffix_cons f rest)
  refine homes_conclude _ (carried_reentered hj hm hres hc n)
    (homes_reenter hj n _ ⟨hm.ready, hm.amid, hc.marked⟩ resumable ?_ ?_ ?_)
  · rwa [hres]
  · exact fun hk => hres.trans (hc.inside_simple hk)
  · rwa [hres, ← scopesIn_cons]

end Frames

/-- A construct that is re-entered from its frame, and what follows it in its body. -/
theorem homes_resumed {j : Jobs} (hj : Tidy j) {column : Nat} (n n' : Nat)
    (hm : Poised program A c m) {f : Frame} {rest : List Frame} (hres : m.thread.resume = f :: rest)
    (hc : Chain m.thread.cursor.source (f :: rest)) (hf : Fits (f.start.column + 4) rest)
    (hs : m.world.scopes.Inside (scopesIn (f :: rest)) m.thread.scope home) :
    Homes false home m (goOn column (statements j column n) (conclude f.start
      (reenter j n' f.start.column (j.body (f.start.column + 4)) f.kind)) (m.takes f.start)) := by
  have marks := hc.starts.marks
  have reached : Reaches f.start m (m.takes f.start) := .takes marks
  have passes : Passes c m (m.takes f.start) := passes_takes marks
  have taken := hm.passed passes (kept_takes m f.start)
  have inner : (m.takes f.start).thread.resume = rest := resume_takes hres
  have chain : Chain (m.takes f.start).thread.cursor.source (f :: rest) := reached.source ▸ hc
  refine .since passes.1.parked (homes_goOn taken ?_ ?_ (homes_reentered hj taken inner chain n' hf ?_)
    fun m' hm' hr' => homes_statements hj column n hm' hr')
  · exact fun hx hn => passes_conclude taken.ready (carried_reentered hj taken inner chain n') hx hn
  · exact fun ground => echoes_conclude _ (echoes_reenter (hj.echoes ground) n' _
      ((hj.echoes ground).inner _) _)
  · rwa [reached.scope, reached.world]

/-- The statement under the cursor, entered from its frames. -/
theorem homes_execute_frame {j : Jobs} (hj : Tidy j) (n : Nat) (hm : Poised program A c m)
    (hcolon : m.thread.cursor.kind ≠ .colon) {f : Frame} {rest : List Frame}
    (hres : m.thread.resume = f :: rest) (hp : f.start = m.thread.cursor.capture)
    (hc : Chain m.thread.cursor.source (f :: rest)) (hf : Fits (f.start.column + 4) rest)
    (hs : m.world.scopes.Inside (scopesIn (f :: rest)) m.thread.scope home) :
    Homes false home m (execute j n m) := by
  have inner : Poised program A c { m with thread := { m.thread with resume := rest } } :=
    hm.kept ⟨hm.ready.sound, hm.ready.world, hm.ready.acts, hm.ready.weaving, hm.ready.driven,
      hm.ready.async⟩ (.of_eq rfl rfl rfl rfl rfl rfl rfl rfl (.refl _)) rfl
  rw [execute_run j n hcolon, ← hp, conclude_congr (enter_frame hres)]
  exact .since rfl (homes_reentered hj inner rfl hc n hf hs)

theorem tidy_jobs (fuel : Nat) : Tidy (jobs fuel) := by
  -- by induction on the fuel
  induction fuel with
  | zero =>
    exact ⟨works_jobs 0, fun ground => echo_jobs ground 0,
      fun _ _ _ _ _ _ _ _ _ _ hn => absurd rfl (hn _)⟩
  | succ fuel ih =>
    refine ⟨works_jobs _, fun ground => echo_jobs ground _, fun column program c m home hm ha hr hf hs => ?_⟩
    have poised : Poised program (fun _ => True) c m := ⟨hm, ha, trivial⟩
    -- a body begins anew, or goes on from its frames, the first of which is in this body
    cases hres : m.thread.resume with
    | nil =>
      rw [hres] at hs
      obtain rfl : m.thread.scope = home := hs
      have run : (jobs (fuel + 1)).body column m = statements (jobs fuel) column fuel m := by
        show runBody (jobs fuel) fuel column m = _
        simp only [runBody, bind, EStateM.bind, get_run, hres]
      rw [run]
      exact homes_statements ih column fuel poised hres
    | cons f rest =>
      have chain : Chain m.thread.cursor.source (f :: rest) := by
        obtain hn | hc := hr
        · rw [hres] at hn; contradiction
        · rwa [hres] at hc
      cases fuel with
      | zero =>
        have run : (jobs 1).body column m = (do rewind f.start; exhausted : Run Status) m := by
          show runBody (jobs 0) 0 column m = _
          simp only [runBody, bind, EStateM.bind, get_run, hres]
          rfl
        rw [run]
        show Homes false home m (EStateM.bind (rewind f.start) _ m)
        unfold EStateM.bind
        cases rewind f.start m <;> exact fun hn => absurd rfl (hn _)
      | succ fuel =>
        have hcol : f.start.column = column := by
          rw [hres] at hf
          exact hf.1
        rw [body_of_frame fuel column hres chain.starts, if_neg (by omega), if_neg (by omega)]
        rw [hres] at hf hs
        subst hcol
        exact homes_resumed ih fuel fuel poised hres chain hf.2 hs

end Constructs

end Eval

end Rewind
