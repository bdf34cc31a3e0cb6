/-
Expressions are quiet.

Every level of precedence passes tokens of its own source and evaluates the levels below it.  The
code in a hole of a string is read from a source of its own, and the cursor comes back to the literal
behind it.  An `await` is the one place at which a coroutine begins to wait.

* `quiet_primary`, `quiet_chain`, `quiet_power` — operands;
* `ended_waitFor`, `quiet_awaitExpr` — waiting;
* `quiet_orExpr`, …, `quiet_conditional` — operators and conditional expressions.
-/
import Rewind.Proofs.Turns

namespace Rewind.Eval

variable {A : Source → Prop} {j : Jobs} (hj : Works j)

theorem quiet_unlessSkipping {x : Eval Held} (hx : Quiet A x) : Quiet A (unlessSkipping x) :=
  .bind quiet_isSkipping fun _ => .ite (fun _ => .pure _) fun _ => hx

/-! ### Items and arguments -/

include hj

theorem quiet_items (close : TokenKind) (n : Nat) (read : List Value) :
    Quiet A (items j close n read) := by
  induction n generalizing read with
  | zero => exact .lift quiet_exhausted
  | succ n ih =>
    refine .bind quiet_kind fun _ => .ite (fun _ => .pure _) fun _ => ?_
    refine .bind (quiet_holding _ hj.expression) fun _ => .bind (quiet_own _) fun _ => ?_
    exact .bind (.lift (quiet_skipOver _)) fun _ => .ite (fun _ => ih _) fun _ => .pure _

omit hj in
theorem quiet_isNamed : Quiet A arguments.isNamed := by
  refine .bind quiet_kind fun _ => .ite (fun _ => .pure _) fun _ => ?_
  refine .get_bind fun c m hm hs => ?_
  cases hp : m.thread.cursor.peek with
  | ok next => exact Settles.refl hm.sound
  | error failure => exact (Settles.refl hm.sound).breaks_self (reads_peek _ _ hp)

omit hj in
theorem quiet_finishArguments (args : CallArgs) : Quiet A (arguments.finish args) :=
  .bind (quiet_advance _) fun _ => .pure _

theorem quiet_arguments (n : Nat) (args : CallArgs) : Quiet A (arguments j n args) := by
  induction n generalizing args with
  | zero => exact .lift quiet_exhausted
  | succ n ih =>
    refine .bind quiet_kind fun _ => .ite (fun _ => .lift (quiet_finishArguments _)) fun _ => ?_
    have more (args : CallArgs) : Quiet A (do
        if ← skipOver .comma then arguments j n args else arguments.finish args : Eval CallArgs) :=
      .bind (.lift (quiet_skipOver _)) fun _ => .ite (fun _ => ih _) fun _ =>
        .lift (quiet_finishArguments _)
    refine .bind (.lift quiet_isNamed) fun named => .ite (fun _ => ?_) fun _ => ?_
    · refine .bind (.lift quiet_bump) fun _ => .bind (.lift quiet_bump) fun _ => ?_
      exact .bind (quiet_holding _ hj.expression) fun _ => .bind (quiet_own _) fun _ =>
        .bind (.pure _) fun _ => more _
    · split
      · exact .bind (.lift (quiet_malformed _ _)) fun _ => more _
      · exact .bind (quiet_holding _ hj.expression) fun _ => .bind (quiet_own _) fun _ =>
          .bind (.pure _) fun _ => more _

theorem quiet_tupleItems (n : Nat) (read : List Value) : Quiet A (tupleItems j n read) := by
  induction n generalizing read with
  | zero => exact .lift quiet_exhausted
  | succ n ih =>
    refine .bind (.lift (quiet_skipOver _)) fun _ => .ite (fun _ => .pure _) fun _ => ?_
    refine .bind quiet_kind fun _ => .ite (fun _ => .pure _) fun _ => ?_
    exact .bind (quiet_holding _ hj.expression) fun _ => .bind (quiet_own _) fun _ => ih _

theorem quiet_parenthesized (n : Nat) : Quiet A (parenthesized j n) := by
  refine .bind (.lift (quiet_skipOver _)) fun _ => .ite (fun _ => ?_) fun _ => ?_
  · exact quiet_unlessSkipping (.bind (quiet_onHeap _) fun _ => .pure _)
  · refine .bind hj.expression fun _ => .bind quiet_kind fun _ => .ite (fun _ => ?_) fun _ => ?_
    · exact .bind (.lift (quiet_advance _)) fun _ => .pure _
    · refine .bind (quiet_own _) fun _ => .bind (quiet_tupleItems hj _ _) fun _ => ?_
      refine .bind (.lift (quiet_advance _)) fun _ => ?_
      exact quiet_unlessSkipping (.bind (quiet_onHeap _) fun _ => .pure _)

theorem quiet_arrayLiteral (n : Nat) : Quiet A (arrayLiteral j n) :=
  .bind (quiet_items hj _ _ _) fun _ => .bind (.lift (quiet_advance _)) fun _ =>
    quiet_unlessSkipping (.bind (quiet_onHeap _) fun _ => .pure _)

theorem quiet_dictEntries (n : Nat) (d : Dict Value) : Quiet A (dictEntries j n d) := by
  induction n generalizing d with
  | zero => exact .lift quiet_exhausted
  | succ n ih =>
    refine .bind quiet_kind fun _ => .ite (fun _ => .pure _) fun _ => ?_
    refine .bind quiet_current fun _ => .bind (quiet_holding _ hj.expression) fun key => ?_
    refine .bind (.lift (quiet_advance _)) fun _ => ?_
    refine .bind (quiet_holding _ hj.expression) fun _ => .bind (quiet_own _) fun _ => ?_
    have more (d : Dict Value) : Quiet A (do
        if ← skipOver .comma then dictEntries j n d else return d : Eval (Dict Value)) :=
      .bind (.lift (quiet_skipOver _)) fun _ => .ite (fun _ => ih _) fun _ => .pure _
    refine .bind quiet_isSkipping fun _ => .ite (fun _ => .bind (.pure _) fun _ => more _) fun _ => ?_
    cases key.value with
    | str k => exact .bind (.pure _) fun _ => more _
    | _ => exact .bind (quiet_complain _ _) fun _ => more _

theorem quiet_dictLiteral (n : Nat) : Quiet A (dictLiteral j n) :=
  .bind (quiet_dictEntries hj _ _) fun _ => .bind (.lift (quiet_advance _)) fun _ =>
    quiet_unlessSkipping (.bind (quiet_onHeap _) fun _ => .pure _)

/-! ### Holes of strings -/

omit hj in
/-- A computation with a cursor of its own, behind which the old one comes back. -/
theorem ended_restoring {α : Type} {x : Eval α} (hx : Quiet (fun _ => True) x) {cursor : Cursor}
    (hc : cursor.Sound) {c : Control} {m : Machine} (hm : Ready c m) :
    Ended c m (embedded.restoring m.thread.cursor x
      { m with thread := { m.thread with cursor } }) := by
  have steady {m' : Machine} (h : Steady { m with thread := { m.thread with cursor } } m') :
      Steady m { m' with thread := { m'.thread with cursor := m.thread.cursor } } :=
    ⟨⟨h.pinned, h.environment, h.globals, h.directory, h.callDepth, h.weaving⟩, h.task, h.driven⟩
  refine Ended.around { m with thread := { m.thread with cursor } }
    (fun m' => { m' with thread := { m'.thread with cursor := m.thread.cursor } })
    (fun h => ?_) steady id (fun _ => rfl) rfl (fun _ => rfl) (fun _ => rfl)
    (fun h => by simp only [embedded.restoring, h]) (fun h => by simp only [embedded.restoring, h])
    (hx c _ ⟨hc, hm.world, hm.acts, hm.weaving, hm.driven, hm.async⟩ trivial)
  exact ⟨steady h.toSteady, h.scope, h.mode, h.skip, h.resume, h.parked, h.parking, rfl,
    hm.sound, h.tape⟩

theorem quiet_embedded (code : List Char) (site : Token) : Quiet A (embedded j code site) := by
  refine .bind (.read id) fun m₀ => .bind (quiet_modify
    (fun _ => ⟨⟨rfl, rfl, rfl, rfl, rfl, rfl⟩, rfl, rfl⟩) (fun _ => rfl) fun _ => rfl) fun _ => ?_
  split
  · exact .lift (quiet_malformed _ _)
  · rename_i cursor hc
    refine .get_bind fun c m hm hs => ?_
    have inside : Quiet (fun _ => True) (do
        let held ← j.expression
        return (held, ← kind) : Eval (Held × TokenKind)) :=
      .bind hj.expression fun _ => .bind quiet_kind fun _ => .pure _
    have he := ended_restoring inside (Cursor.sound_ofSource hc).1 hm
    have after (p : Held × TokenKind) : Quiet A (do
        if p.2 ≠ .eof then malformed .tokensAfterHole site
        own p.1 : Eval Value) :=
      .guard (.lift (quiet_malformed _ _)) (quiet_own _)
    show Ended c m (EStateM.bind _ _ { m with thread := { m.thread with cursor } })
    unfold EStateM.bind
    cases hr : embedded.restoring m.thread.cursor (do
        let held ← j.expression
        return (held, ← kind)) { m with thread := { m.thread with cursor } } with
    | ok p m' =>
      rw [hr] at he
      -- the cursor is that of the text around the hole again
      refine .trans he (after p c m' (hm.settles he) ?_)
      rw [he.1.source]
      exact hs
    | error e m' =>
      rw [hr] at he
      exact he

theorem quiet_fill (site : Token) (done : String) (t : Template) : Quiet A (fill j site done t) := by
  induction t generalizing done with
  | plain text => exact .pure _
  | broken => exact .lift (quiet_malformed _ _)
  | hole before code rest ih =>
    exact .bind (quiet_embedded hj _ _) fun _ => .bind (quiet_render hj _ _) fun _ => ih _

theorem quiet_interpolate (token : Token) : Quiet A (interpolate j token) := quiet_fill hj _ _ _

/-! ### Operands -/

omit hj in
theorem quiet_variable (token : Token) : Quiet A (do
    match ← lookup token.text with
    | some v => return .view v
    | none => complain (.undefinedVariable token.text) token : Eval Held) := by
  refine .bind (quiet_lookup _) fun found => ?_
  split
  · exact .pure _
  · exact quiet_complain _ _

omit hj in
theorem quiet_name (token : Token) : Quiet A (name token) := by
  have bound := quiet_variable (A := A) token
  refine .bind quiet_kind fun _ => .ite (fun _ => ?_) fun _ => bound
  split
  · exact .bind (quiet_newFunction (sound_native _ _)) fun _ => .pure _
  · exact bound

theorem quiet_primary (n : Nat) : Quiet A (primary j n) := by
  refine .bind (.lift quiet_bump) fun token => ?_
  cases token.kind with
  | int | float | kwTrue | kwFalse | kwNull => exact .pure _
  | str => exact quiet_unlessSkipping (.bind (quiet_interpolate hj _) fun _ => .pure _)
  | lparen => exact quiet_parenthesized hj n
  | lbracket => exact quiet_arrayLiteral hj n
  | lbrace => exact quiet_dictLiteral hj n
  | ident => exact quiet_unlessSkipping (quiet_name _)
  | kwSuper => exact quiet_unlessSkipping (quiet_superProxy _)
  | _ => exact .lift (quiet_malformed _ _)

theorem quiet_chain (n : Nat) (v : Held) : Quiet A (chain j n v) := by
  induction n generalizing v with
  | zero => exact .lift quiet_exhausted
  | succ n ih =>
    refine .bind quiet_kind fun k => ?_
    split
    · have member (member : Token) : Quiet A (do
          if ← isSkipping then chain j n v
          else chain j n (← readAttribute v member.text member) : Eval Held) :=
        .bind quiet_isSkipping fun _ => .ite (fun _ => ih _) fun _ =>
          .bind (quiet_readAttribute _ _ _) fun _ => ih _
      refine .bind (.lift quiet_bump) fun _ => .bind quiet_kind fun _ => .ite (fun _ => ?_) fun _ => ?_
      · exact .bind (.lift quiet_bump) member
      · exact .bind (.lift (quiet_advance _)) member
    · refine .bind (.lift quiet_bump) fun _ => .bind (quiet_holding _ hj.expression) fun _ => ?_
      refine .bind (.lift (quiet_advance _)) fun _ => .bind quiet_isSkipping fun _ => ?_
      exact .ite (fun _ => ih _) fun _ => .bind (quiet_own _) fun _ =>
        .bind (quiet_readItem _ _ _) fun _ => ih _
    · refine .bind (.lift quiet_bump) fun _ => .bind (quiet_holding _ (quiet_arguments hj _ _)) fun _ => ?_
      exact .bind quiet_isSkipping fun _ => .ite (fun _ => ih _) fun _ =>
        .bind (hj.invoke _ _ _) fun _ => ih _
    · exact .pure _

theorem quiet_power (n : Nat) : Quiet A (power j n) := by
  refine .bind (quiet_primary hj n) fun _ => .bind (quiet_chain hj n _) fun _ => ?_
  refine .bind quiet_kind fun _ => .ite (fun _ => .pure _) fun _ => ?_
  refine .bind (.lift quiet_bump) fun _ => .bind (quiet_holding _ hj.unary) fun _ => ?_
  exact quiet_unlessSkipping (.bind (quiet_orComplain _ _) fun _ => .pure _)

/-! ### Waiting -/

/-- The machine in which a coroutine that is to be waited for has been started, unless it is done. -/
def launched (m : Machine) (target : Ref .coroutine) : Machine :=
  if (m.world.coroutines.get target).isDone then m else { m with world := m.world.start target }

omit hj in
theorem launch_run (target : Ref .coroutine) {m : Machine} (hd : m.thread.driven = true) :
    launch target m = .ok () (launched m target) := by
  unfold launched
  show (if (!(m.world.coroutines.get target).isDone) = true then _ else _ : Eval Unit) m = _
  cases (m.world.coroutines.get target).isDone with
  | true => rfl
  | false =>
    show (if (!m.thread.driven) = true then _ else _ : Eval Unit) m = _
    rw [hd]
    rfl

omit hj in
/-- What an `await` that is not replayed comes to, in a coroutine that a loop drives: the coroutine
it waits for is started if it is not done, and unless it is done then the running one suspends. -/
theorem waitFor_run (keyword : Token) (v : Value) {m : Machine} {r : Ref .coroutine}
    (ht : m.thread.task = some r) (hd : m.thread.driven = true) :
    waitFor keyword v m = match m.world.coroutine? v with
      | none => complain (.awaitedNonCoroutine v.kind) keyword m
      | some target =>
        if r = target then complain .awaitedItself keyword m
        else
          let c := (launched m target).world.coroutines.get target
          if c.isDone then
            (do settle (← onHeap (Heap.duplicateOutcome c.outcome)) : Eval Held) (launched m target)
          else .error .suspended { launched m target with
            world := (launched m target).world.suspendOn r target } := by
  simp only [waitFor, bind, EStateM.bind, ask]
  cases m.world.coroutine? v with
  | none => rfl
  | some target =>
    simp only [EStateM.bind, get_run, ht]
    by_cases hr : r = target
    · simp only [hr, if_true]
      rfl
    · simp only [hr, if_false, EStateM.bind, launch_run target hd, ask]
      -- whoever is done gives its outcome at once; for the others the coroutine waits
      by_cases hn : ((launched m target).world.coroutines.get target).isDone = true
      · simp only [hn, if_true]
        rfl
      · simp only [hn]
        rfl

omit hj in
/-- A coroutine that is waited for is not new. -/
theorem stage_launched_ne_new {m : Machine} {target : Ref .coroutine} (h : m.world.Has target)
    (hn : ¬ ((launched m target).world.coroutines.get target).isDone = true) :
    ((launched m target).world.coroutines.get target).stage ≠ .new := by
  unfold launched at hn ⊢
  split
  · rename_i hd
    rw [if_pos hd] at hn
    exact absurd hd hn
  · exact World.stage_start_ne_new m.world h

omit hj in
theorem ended_waitFor (keyword : Token) (v : Value) {c : Control} {m : Machine} (hm : Ready c m)
    (ha : m.thread.mode.inAsync = true) (hk : m.thread.skip = 0)
    (hr : m.thread.replays = false) : Ended c m (waitFor keyword v m) := by
  have hd := hm.async ha
  obtain ⟨r, rfl, ht⟩ := hm.driven hd
  have raises (complaint : Complaint) :
      Ended (.turn r) m (complain complaint keyword m : EStateM.Result _ _ Held) :=
    quiet_complain (A := fun _ => True) complaint keyword _ m hm trivial
  rw [waitFor_run keyword v ht hd]
  split
  · exact raises _
  · rename_i target hv
    have htarget : m.world.Has target := World.has_of_coroutine? hv
    by_cases hself : r = target
    · rw [if_pos hself]
      exact raises _
    · rw [if_neg hself]
      -- a coroutine that is new begins by being waited for, which is one step
      have hs : Settles (.turn r) m (launched m target) := by
        unfold launched
        split
        · exact .refl hm.sound
        · exact .step hm (.start target htarget)
            (World.events_start m.world target (World.active_none _)).evolves.size
      have hm₁ := hm.settles hs
      have hr₁ := Thread.replays_of_settled hs.1 hr
      refine .trans hs ?_
      dsimp only
      split
      · have copies : Quiet (fun _ => True) (onHeap (Heap.duplicateOutcome
            ((launched m target).world.coroutines.get target).outcome) : Eval Outcome) :=
          quiet_onHeap _
        have copied := copies _ _ hm₁ trivial
        refine .trans copied (ended_settle (hm₁.settles copied) _ ?_)
        exact Thread.replays_of_settled copied.1 hr₁
      · rename_i hn
        -- nothing is left to replay, or the await would have taken its outcome from the tape
        have tape : (launched m target).thread.tape.replaying = false := by
          simpa [Thread.replays, hs.1.mode, ha, hs.1.skip, hk] using hr₁
        refine ⟨r, rfl, hs.1.mode ▸ ha, ?_, tape, ?_⟩
        · exact .of_thread ⟨⟨rfl, rfl, rfl, rfl, rfl, rfl⟩, rfl, rfl⟩ rfl hs.1.sound
        · refine .single (.wait target hself (Bool.eq_false_iff.2 hn) ?_) (by simp)
            ((Arena.size_modify _ _ _).trans (Arena.size_modify _ _ _))
          exact stage_launched_ne_new htarget hn

/-- Only the body of a coroutine that a loop drives gets past the keyword. -/
theorem quiet_awaitExpr : Quiet A (awaitExpr j) := by
  refine .bind (.lift (quiet_advance _)) fun keyword c m hm hs => ?_
  show Ended c m ((if (!m.thread.mode.inAsync) = true then _ else _ : Eval Held) m)
  cases ha : m.thread.mode.inAsync with
  | false => exact (Settles.refl hm.sound).breaks_self trivial
  | true =>
    have h := hj.unary c m hm hs
    show Ended c m (EStateM.bind j.unary _ m)
    unfold EStateM.bind
    cases hu : j.unary m with
    | error e m₁ =>
      rw [hu] at h
      exact h
    | ok operand m₁ =>
      rw [hu] at h
      refine .trans h ?_
      have hm₁ := hm.settles h
      refine Ended.ite (x := pure Held.null) (fun _ => Settles.refl hm₁.sound) fun hk => ?_
      have hk : m₁.thread.skip = 0 := by simpa using hk
      show Ended c m₁ (EStateM.bind replayed _ m₁)
      unfold EStateM.bind
      -- the outcome is taken from the tape as long as there is one
      cases hr : m₁.thread.replays with
      | false =>
        rw [replayed_of_not_replays hr]
        exact ended_waitFor keyword operand.value hm₁ (h.1.mode ▸ ha) hk hr
      | true =>
        obtain ⟨entry, -, he⟩ := replayed_of_replays hr
        have taken := quiet_replayed (A := fun _ => True) c m₁ hm₁ trivial
        rw [he] at taken ⊢
        exact .trans taken (quiet_resume (A := fun _ => True) _ c _ (hm₁.settles taken) trivial)

theorem quiet_unaryExpr (n : Nat) : Quiet A (unaryExpr j n) := by
  refine .bind quiet_kind fun k => ?_
  split
  · refine .bind (.lift quiet_bump) fun _ => .bind hj.unary fun _ => ?_
    exact quiet_unlessSkipping (.bind (quiet_truthy _) fun _ => .pure _)
  · refine .bind (.lift quiet_bump) fun _ => .bind hj.unary fun _ => ?_
    exact quiet_unlessSkipping (.bind (quiet_orComplain _ _) fun _ => .pure _)
  · exact quiet_awaitExpr hj
  · exact quiet_power hj n

/-! ### Binary operators -/

omit hj in
theorem quiet_repeated (text : String) (count : Int) (op : Token) :
    Quiet A (repeated text count op) := by
  have written : Quiet A (do
      if maxTextBytes < text.utf8ByteSize * count.toNat then
        fail (.system (.repeatTooLong count op.line))
      return .str (repeatText text count.toNat) : Eval Value) :=
    .ite (fun _ => .bind (.lift (quiet_fail _ (by trivial))) fun _ => .pure _) fun _ => .pure _
  exact .ite (fun _ => .bind (quiet_complain _ _) fun _ => written) fun _ => written

omit hj in
theorem quiet_multiply (op : Token) (a b : Value) : Quiet A (multiply op a b) := by
  unfold multiply
  split
  · exact quiet_repeated _ _ _
  · exact quiet_repeated _ _ _
  all_goals exact quiet_orComplain _ _

theorem quiet_multiplicativeTail (n : Nat) (left : Held) :
    Quiet A (multiplicativeTail j n left) := by
  induction n generalizing left with
  | zero => exact .lift quiet_exhausted
  | succ n ih =>
    have applied : Quiet A (do
        let op ← bump
        let right ← holding [left.value] j.unary
        if ← isSkipping then multiplicativeTail j n left
        else multiplicativeTail j n (.fresh (← multiply op left.value right.value)) : Eval Held) := by
      refine .bind (.lift quiet_bump) fun _ => .bind (quiet_holding _ hj.unary) fun _ => ?_
      exact .bind quiet_isSkipping fun _ => .ite (fun _ => ih _) fun _ =>
        .bind (quiet_multiply _ _ _) fun _ => ih _
    refine .bind quiet_kind fun k => ?_
    cases k with
    | star | slash | percent => exact applied
    | _ => exact .pure _

theorem quiet_multiplicative (n : Nat) : Quiet A (multiplicative j n) :=
  .bind hj.unary fun _ => quiet_multiplicativeTail hj n _

theorem quiet_add (op : Token) (left right : Held) : Quiet A (add j op left right) := by
  have joined : Quiet A (holding [left.value, right.value] do
      let first ← render j left.value op
      let second ← render j right.value op
      return .fresh (.str (first ++ second)) : Eval Held) :=
    quiet_holding _ (.bind (quiet_render hj _ _) fun _ => .bind (quiet_render hj _ _) fun _ =>
      .pure _)
  unfold add
  split
  · exact joined
  · exact joined
  · refine .bind (quiet_ask _) fun found => ?_
    split
    · exact quiet_complain _ _
    · exact .bind (quiet_newMethod _) fun _ => .bind (quiet_own _) fun _ =>
        quiet_holding _ (hj.invoke _ _ _)
  · exact .bind (quiet_orComplain _ _) fun _ => .pure _

theorem quiet_additiveTail (n : Nat) (left : Held) : Quiet A (additiveTail j n left) := by
  induction n generalizing left with
  | zero => exact .lift quiet_exhausted
  | succ n ih =>
    refine .bind quiet_kind fun k => ?_
    split
    · refine .bind (.lift quiet_bump) fun _ =>
        .bind (quiet_holding _ (quiet_multiplicative hj n)) fun _ => ?_
      exact .bind quiet_isSkipping fun _ => .ite (fun _ => ih _) fun _ =>
        .bind (quiet_add hj _ _ _) fun _ => ih _
    · refine .bind (.lift quiet_bump) fun _ =>
        .bind (quiet_holding _ (quiet_multiplicative hj n)) fun _ => ?_
      exact .bind quiet_isSkipping fun _ => .ite (fun _ => ih _) fun _ =>
        .bind (quiet_orComplain _ _) fun _ => ih _
    · exact .pure _

theorem quiet_additive (n : Nat) : Quiet A (additive j n) :=
  .bind (quiet_multiplicative hj n) fun _ => quiet_additiveTail hj n _

theorem quiet_comparisonTail (n : Nat) (left : Held) : Quiet A (comparisonTail j n left) := by
  induction n generalizing left with
  | zero => exact .lift quiet_exhausted
  | succ n ih =>
    have applied : Quiet A (do
        let op ← bump
        let right ← holding [left.value] (additive j n)
        if ← isSkipping then comparisonTail j n left
        else
          comparisonTail j n
            (.fresh (.bool (← orComplain op (Value.compare op left.value right.value))))
        : Eval Held) := by
      refine .bind (.lift quiet_bump) fun _ =>
        .bind (quiet_holding _ (quiet_additive hj n)) fun _ => ?_
      exact .bind quiet_isSkipping fun _ => .ite (fun _ => ih _) fun _ =>
        .bind (quiet_orComplain _ _) fun _ => ih _
    refine .bind quiet_kind fun k => ?_
    cases k with
    | lt | gt | lte | gte => exact applied
    | _ => exact .pure _

theorem quiet_comparison (n : Nat) : Quiet A (comparison j n) :=
  .bind (quiet_additive hj n) fun _ => quiet_comparisonTail hj n _

theorem quiet_identityTail (n : Nat) (left : Held) : Quiet A (identityTail j n left) := by
  induction n generalizing left with
  | zero => exact .lift quiet_exhausted
  | succ n ih =>
    refine .bind (.lift (quiet_skipOver _)) fun _ => .ite (fun _ => .pure _) fun _ => ?_
    refine .bind (.lift (quiet_skipOver _)) fun _ =>
      .bind (quiet_holding _ (quiet_comparison hj n)) fun _ => ?_
    exact .bind quiet_isSkipping fun _ => .ite (fun _ => ih _) fun _ => ih _

theorem quiet_identity (n : Nat) : Quiet A (identity j n) :=
  .bind (quiet_comparison hj n) fun _ => quiet_identityTail hj n _

theorem quiet_equalityTail (n : Nat) (left : Held) : Quiet A (equalityTail j n left) := by
  induction n generalizing left with
  | zero => exact .lift quiet_exhausted
  | succ n ih =>
    have applied : Quiet A (do
        let op ← bump
        let right ← holding [left.value] (identity j n)
        if ← isSkipping then equalityTail j n left
        else
          equalityTail j n (.fresh (.bool (left.value.equals right.value != (op.kind == .neq))))
        : Eval Held) := by
      refine .bind (.lift quiet_bump) fun _ =>
        .bind (quiet_holding _ (quiet_identity hj n)) fun _ => ?_
      exact .bind quiet_isSkipping fun _ => .ite (fun _ => ih _) fun _ => ih _
    refine .bind quiet_kind fun k => ?_
    cases k with
    | eq | neq => exact applied
    | _ => exact .pure _

theorem quiet_equality (n : Nat) : Quiet A (equality j n) :=
  .bind (quiet_identity hj n) fun _ => quiet_equalityTail hj n _

theorem quiet_andTail (n : Nat) (left : Held) : Quiet A (andTail j n left) := by
  induction n generalizing left with
  | zero => exact .lift quiet_exhausted
  | succ n ih =>
    refine .bind (.lift (quiet_skipOver _)) fun _ => .ite (fun _ => .pure _) fun _ => ?_
    refine .bind quiet_isSkipping fun _ => .bind (quiet_truthy _) fun _ => .ite (fun _ => ?_) fun _ => ?_
    · exact .bind (quiet_skipping (quiet_equality hj n)) fun _ => ih _
    · exact .bind (quiet_holding _ (quiet_equality hj n)) fun _ => ih _

theorem quiet_andExpr (n : Nat) : Quiet A (andExpr j n) :=
  .bind (quiet_equality hj n) fun _ => quiet_andTail hj n _

theorem quiet_orTail (n : Nat) (left : Held) : Quiet A (orTail j n left) := by
  induction n generalizing left with
  | zero => exact .lift quiet_exhausted
  | succ n ih =>
    refine .bind (.lift (quiet_skipOver _)) fun _ => .ite (fun _ => .pure _) fun _ => ?_
    refine .bind quiet_isSkipping fun _ => .bind (quiet_truthy _) fun _ => .ite (fun _ => ?_) fun _ => ?_
    · exact .bind (quiet_skipping (quiet_andExpr hj n)) fun _ => ih _
    · exact .bind (quiet_holding _ (quiet_andExpr hj n)) fun _ => ih _

theorem quiet_orExpr (n : Nat) : Quiet A (orExpr j n) :=
  .bind (quiet_andExpr hj n) fun _ => quiet_orTail hj n _

/-! ### Conditional expressions -/

theorem quiet_skipConditional (n : Nat) : Quiet A (skipConditional j n) := by
  refine .bind (quiet_orExpr hj n) fun _ => .bind (.lift (quiet_skipOver _)) fun _ => ?_
  refine .ite (fun _ => ?_) fun _ => .pure _
  exact .bind (quiet_orExpr hj n) fun _ => .bind (.lift (quiet_advance _)) fun _ =>
    .bind hj.expression fun _ => .pure _

/-- The part in front of `if` is passed, and if it is chosen the cursor goes back to it. -/
theorem quiet_conditional (n : Nat) : Quiet A (conditional j n) := by
  refine .bind quiet_isSkipping fun _ => .ite (fun _ => ?_) fun _ => ?_
  · exact .bind (quiet_skipConditional hj n) fun _ => .pure _
  · refine .get_bind fun c m hm hs => ?_
    cases ha : m.thread.cursor.conditionalAhead with
    | error failure => exact (Settles.refl hm.sound).breaks_self (reads_conditionalFrom _ _ _ _ ha)
    | ok ahead =>
      cases ahead with
      | false => exact quiet_orExpr hj n c m hm hs
      | true =>
        refine Quiet.capture_bind (fun start => ?_) c m hm hs
        -- back to the first side, which is evaluated now, while the rest is passed over
        have rewound : Quiet (fun s => A s ∧ s.Marks start) (do
            rewind start
            let v ← orExpr j n
            skipping do
              let _ ← advance .kwIf
              let _ ← orExpr j n
              let _ ← advance .kwElse
              let _ ← j.expression
            return v : Eval Held) := by
          refine .bind (.lift (quiet_rewind start)) fun _ => .bind (quiet_orExpr hj n) fun _ => ?_
          refine .bind (quiet_skipping ?_) fun _ => .pure _
          exact .bind (.lift (quiet_advance _)) fun _ => .bind (quiet_orExpr hj n) fun _ =>
            .bind (.lift (quiet_advance _)) fun _ => .bind hj.expression fun _ => .pure _
        refine .bind (quiet_skipping (quiet_orExpr hj n)) fun _ => ?_
        refine .bind (.lift (quiet_advance _)) fun _ => .bind (quiet_orExpr hj n) fun _ => ?_
        refine .bind (quiet_truthy _) fun _ => .bind (.lift (quiet_advance _)) fun _ => ?_
        exact .ite (fun _ => hj.expression) fun _ => rewound

end Rewind.Eval
