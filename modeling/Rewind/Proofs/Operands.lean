/-
Expressions keep values apart.

What a literal, an operator or a call gives is one's own; a name, an attribute or an item of what was
come upon is come upon itself.  Values that an expression has at hand while another part of it is
evaluated are its own all the while.

* `keeps_items`, `keeps_arguments`, `keeps_dictEntries` — values that are collected;
* `keeps_fill`, `keeps_primary`, `keeps_chain` — operands;
* `keeps_waitFor` — waiting;
* `keeps_conditional` — expressions.
-/
import Rewind.Proofs.Lending

namespace Rewind

variable {ε α β : Type} [Stops ε] {H K : Hand}

/-! ### Numbers -/

namespace Value

/-- Whatever comes of a computation with numbers, it is no container. -/
def Flat (x : Except Complaint Value) : Prop := ∀ v, x = .ok v → v.box? = none

theorem Flat.ok {v : Value} (h : v.box? = none) : Flat (.ok v) := by
  rintro w ⟨⟩
  exact h

theorem Flat.error (c : Complaint) : Flat (.error c) := nofun

theorem box?_checked {n : Int} {v : Value} (h : checked n = some v) : v.box? = none := by
  unfold checked at h
  split at h
  · obtain rfl := Option.some.inj h
    rfl
  · contradiction

theorem flat_numeric (op : Token) (a b : Value) : Flat (numeric op a b) := by
  unfold numeric
  split
  · dsimp only
    split
    · exact .ok (box?_checked ‹_›)
    · exact .error _
  · split
    · exact .ok rfl
    · exact .error _

theorem flat_divide (op : Token) (a b : Value) : Flat (divide op a b) := by
  unfold divide
  split
  · split
    · exact .error _
    · exact .ok rfl
  · exact .error _

theorem flat_remainder (op : Token) (a b : Value) : Flat (remainder op a b) := by
  unfold remainder
  split
  · split
    · exact .error _
    · exact .ok rfl
  · exact .error _

theorem flat_power (op : Token) (a b : Value) : Flat (power op a b) := by
  unfold power
  split
  · exact .ok rfl
  · exact .error _

theorem flat_negate (v : Value) : Flat (negate v) := by
  unfold negate
  split
  · split
    · exact .ok (box?_checked ‹_›)
    · exact .error _
  · exact .ok rfl
  · exact .error _

end Value

namespace Eval

/-- What is computed with numbers costs nothing. -/
theorem keeps_computed (site : Token) {x : Except Complaint Value} (hx : Value.Flat x) :
    Keeps H (orComplain site x) (orComplain site x) fun v => {.owned v} := by
  refine .of_gives ?_ (keeps_orComplain site x)
  cases x with
  | ok v => exact .of_flat (g := .owned v) (hx v rfl)
  | error c => exact .drop _

/-- What is no value costs nothing either. -/
theorem keeps_told (site : Token) (x : Except Complaint α) :
    Keeps 0 (orComplain site x) (orComplain site x) fun _ => 0 := by
  cases x with
  | ok a => exact .pure (.refl _)
  | error c => exact keeps_complain c site

section Jobs

variable {j j' : Jobs} (hj : j.Keep j')

include hj

/-! ### Values that are collected -/

omit hj in
theorem hand_collected (v : Value) (read : List Value) :
    Hand.ofValues ↑read + {.owned v} = .ofValues ↑(v :: read) := by
  rw [← Multiset.cons_coe, Hand.ofValues_cons, add_comm]

/-- An expression is evaluated and its value kept. -/
theorem keeps_kept (vs : List Value) {f f' : Value → Eval α} {post : α → Hand}
    (hf : ∀ v, Keeps (H + {.owned v}) (f v) (f' v) post) :
    Keeps H (do f (← own (← holding vs j.expression)) : Eval α)
      (do f' (← own (← holding vs j'.expression))) post :=
  .next (.holding _ hj.expression) fun held => .after (keeps_own held) hf

omit hj in
theorem gives_reverse (read : List Value) :
    (Hand.ofValues ↑read).Gives (.ofValues ↑read.reverse) := by
  rw [Multiset.coe_reverse]
  exact .refl _

omit hj in
theorem keeps_unlessSkipping {x x' : Eval Held} (hx : Keeps H x x' Held.hand) :
    Keeps H (unlessSkipping x) (unlessSkipping x') Held.hand :=
  .skip keeps_isSkipping fun _ => .ite (.pure (.of_flat rfl)) hx

theorem keeps_items (close : TokenKind) (n : Nat) (read : List Value) :
    Keeps (.ofValues ↑read) (items j close n read) (items j' close n read)
      fun vs => .ofValues ↑vs := by
  induction n generalizing read with
  | zero => exact .lift keeps_exhausted
  | succ n ih =>
    refine .skip keeps_kind fun _ => .ite (.pure (gives_reverse read)) ?_
    refine keeps_kept hj read fun v => ?_
    rw [hand_collected]
    exact .skip (.lift (keeps_skipOver _)) fun _ => .ite (ih _) (.pure (gives_reverse _))

omit hj in
theorem keeps_isNamed : Keeps 0 arguments.isNamed arguments.isNamed fun _ => 0 := by
  refine .skip keeps_kind fun _ => .ite (.pure (.refl _)) (.skip keeps_get fun m => ?_)
  split
  · exact .pure (.refl _)
  · exact keeps_fail _

omit hj in
theorem keeps_finishArguments (args : CallArgs) :
    Keeps args.hand (arguments.finish args) (arguments.finish args) CallArgs.hand :=
  .skip (keeps_advance _) fun _ => .pure (.refl _)

omit hj in
theorem hand_named (args : CallArgs) (name : String) (v : Value) (site : Token) :
    args.hand + {.owned v} =
      CallArgs.hand { args with named := args.named ++ [(name, v, site)] } := by
  simp only [CallArgs.hand, CallArgs.values, List.map_append, ← Multiset.coe_add,
    Hand.ofValues_add, add_assoc]
  rfl

omit hj in
theorem hand_positional (args : CallArgs) (v : Value) :
    args.hand + {.owned v} = CallArgs.hand { args with positional := args.positional ++ [v] } := by
  simp only [CallArgs.hand, CallArgs.values, ← Multiset.coe_add, Hand.ofValues_add,
    Multiset.coe_singleton, Hand.ofValues_singleton]
  abel

theorem keeps_arguments (n : Nat) (args : CallArgs) :
    Keeps args.hand (arguments j n args) (arguments j' n args) CallArgs.hand := by
  induction n generalizing args with
  | zero => exact .lift keeps_exhausted
  | succ n ih =>
    refine .skip keeps_kind fun _ => .ite (.lift (keeps_finishArguments _)) ?_
    have more (args : CallArgs) : Keeps args.hand
        (do if ← skipOver .comma then arguments j n args else arguments.finish args : Eval CallArgs)
        (do if ← skipOver .comma then arguments j' n args else arguments.finish args)
        CallArgs.hand :=
      .skip (.lift (keeps_skipOver _)) fun _ => .ite (ih _) (.lift (keeps_finishArguments _))
    refine .skip (.lift keeps_isNamed) fun named => .ite ?_ ?_
    · refine .skip (.lift keeps_bump) fun name => .skip (.lift keeps_bump) fun _ => ?_
      refine .next (.holding _ hj.expression) fun held => .after (keeps_own held) fun v => ?_
      exact .of_gives (.of_eq (hand_named args name.text v name)) (more _)
    · split
      · exact .bind (M := CallArgs.hand) (.lift (keeps_malformed _ _)) fun _ => more _
      · refine .next (.holding _ hj.expression) fun held => .after (keeps_own held) fun v => ?_
        exact .of_gives (.of_eq (hand_positional args v)) (more _)

theorem keeps_tupleItems (n : Nat) (read : List Value) :
    Keeps (.ofValues ↑read) (tupleItems j n read) (tupleItems j' n read)
      fun vs => .ofValues ↑vs := by
  induction n generalizing read with
  | zero => exact .lift keeps_exhausted
  | succ n ih =>
    refine .skip (.lift (keeps_skipOver _)) fun _ => .ite (.pure (gives_reverse read)) ?_
    refine .skip keeps_kind fun _ => .ite (.pure (gives_reverse read)) ?_
    refine keeps_kept hj read fun v => ?_
    rw [hand_collected]
    exact ih _

theorem keeps_parenthesized (n : Nat) :
    Keeps 0 (parenthesized j n) (parenthesized j' n) Held.hand := by
  refine .skip (.lift (keeps_skipOver _)) fun _ => .ite ?_ ?_
  · exact keeps_unlessSkipping (.bind (keeps_newTuple []) fun _ => .pure (.refl _))
  · refine .bind hj.expression fun first => .skip keeps_kind fun _ => .ite ?_ ?_
    · exact .skip (.lift (keeps_advance _)) fun _ => .pure (.refl _)
    · refine .bind (keeps_own first) fun v => .bind (keeps_tupleItems hj n [v]) fun values => ?_
      refine .skip (.lift (keeps_advance _)) fun _ => ?_
      exact keeps_unlessSkipping (.bind (keeps_newTuple values) fun _ => .pure (.refl _))

theorem keeps_arrayLiteral (n : Nat) :
    Keeps 0 (arrayLiteral j n) (arrayLiteral j' n) Held.hand :=
  .bind (keeps_items hj _ n []) fun values => .skip (.lift (keeps_advance _)) fun _ =>
    keeps_unlessSkipping (.bind (keeps_newArray values) fun _ => .pure (.refl _))

theorem keeps_dictEntries (n : Nat) (d : Dict Value) :
    Keeps (.ofValues ↑d.values) (dictEntries j n d) (dictEntries j' n d)
      fun d => .ofValues ↑d.values := by
  induction n generalizing d with
  | zero => exact .lift keeps_exhausted
  | succ n ih =>
    refine .skip keeps_kind fun _ => .ite (.pure (.refl _)) ?_
    refine .skip keeps_current fun site => .next (.holding _ hj.expression) fun key => ?_
    refine .of_gives (.of_le (Multiset.le_add_right _ _)) ?_
    refine .skip (.lift (keeps_advance _)) fun _ => keeps_kept hj _ fun v => ?_
    have more (d : Dict Value) : Keeps (.ofValues ↑d.values)
        (do if ← skipOver .comma then dictEntries j n d else return d : Eval (Dict Value))
        (do if ← skipOver .comma then dictEntries j' n d else return d)
        fun d => .ofValues ↑d.values :=
      .skip (.lift (keeps_skipOver _)) fun _ => .ite (ih _) (.pure (.refl _))
    refine .skip keeps_isSkipping fun _ => .ite ?_ ?_
    · exact .of_gives (.of_le (Multiset.le_add_right _ _)) (more d)
    cases key.value with
    | str k =>
      -- a value that is put in another's place is dropped, so no more is held than before
      refine .of_gives (.of_le ?_) (more (d.set k v))
      rw [hand_collected]
      exact Hand.ofValues_mono (d.values_set_le k v)
    | _ =>
      exact .bind (M := fun d => .ofValues ↑d.values) (keeps_complain _ _) fun _ => more _

theorem keeps_dictLiteral (n : Nat) :
    Keeps 0 (dictLiteral j n) (dictLiteral j' n) Held.hand :=
  .bind (keeps_dictEntries hj n {}) fun d => .skip (.lift (keeps_advance _)) fun _ =>
    keeps_unlessSkipping (.bind (keeps_newDict d) fun _ => .pure (.refl _))

/-! ### Operands -/

theorem keeps_embedded (code : List Char) (site : Token) :
    Keeps 0 (embedded j code site) (embedded j' code site) fun v => {.owned v} := by
  refine .skip keeps_get fun m => ?_
  refine .skip (keeps_modify (fun _ => rfl) (fun _ => rfl) (fun _ => rfl) fun _ => rfl) fun _ => ?_
  split
  · exact .lift (keeps_malformed _ _)
  · refine .skip keeps_get fun m => .skip (keeps_thread fun _ => ⟨rfl, rfl, rfl⟩) fun _ => ?_
    have ended : Keeps 0 (do let held ← j.expression; return (held, ← kind) : Eval (Held × TokenKind))
        (do let held ← j'.expression; return (held, ← kind)) fun p => p.1.hand :=
      .bind hj.expression fun _ => .skip keeps_kind fun _ => .pure (.refl _)
    refine .bind (.restoring _ ended) fun p => ?_
    exact .guard (.lift (keeps_malformed _ _)) (keeps_own _)

theorem keeps_fill (site : Token) (done : String) (t : Template) :
    Keeps 0 (fill j site done t) (fill j' site done t) fun _ => 0 := by
  induction t generalizing done with
  | plain text => exact .pure (.refl _)
  | broken => exact .lift (keeps_malformed _ _)
  | hole before code rest ih =>
    exact .bind (keeps_embedded hj _ _) fun _ => .of_gives (.drop _)
      (.skip (keeps_render hj _ _) fun _ => ih _)

theorem keeps_interpolate (token : Token) :
    Keeps 0 (interpolate j token) (interpolate j' token) fun _ => 0 := keeps_fill hj _ _ _

omit hj in
theorem keeps_variable (token : Token) : Keeps 0
    (do
      match ← lookup token.text with
      | some v => return .view v
      | none => complain (.undefinedVariable token.text) token : Eval Held)
    (do
      match ← lookup token.text with
      | some v => return .view v
      | none => complain (.undefinedVariable token.text) token) Held.hand := by
  refine .bind (keeps_lookup _) fun found => ?_
  split
  · exact .pure (.refl _)
  · exact keeps_complain _ _

omit hj in
theorem keeps_name (token : Token) : Keeps 0 (name token) (name token) Held.hand := by
  refine .skip keeps_kind fun _ => .ite ?_ (keeps_variable token)
  split
  · exact .bind (keeps_newFunction ⟨_, .native _⟩) fun _ => .pure (.refl _)
  · exact keeps_variable token

theorem keeps_primary (n : Nat) : Keeps 0 (primary j n) (primary j' n) Held.hand := by
  refine .skip (.lift keeps_bump) fun token => ?_
  cases token.kind with
  | int | float | kwTrue | kwFalse | kwNull => exact .pure (.of_flat rfl)
  | str =>
    exact keeps_unlessSkipping (.skip (keeps_interpolate hj _) fun _ => .pure (.of_flat rfl))
  | lparen => exact keeps_parenthesized hj n
  | lbracket => exact keeps_arrayLiteral hj n
  | lbrace => exact keeps_dictLiteral hj n
  | ident => exact keeps_unlessSkipping (keeps_name _)
  | kwSuper => exact keeps_unlessSkipping (keeps_superProxy _)
  | _ => exact .lift (keeps_malformed _ _)

theorem keeps_chain (n : Nat) (v : Held) :
    Keeps v.hand (chain j n v) (chain j' n v) Held.hand := by
  induction n generalizing v with
  | zero => exact .lift keeps_exhausted
  | succ n ih =>
    refine .skip keeps_kind fun k => ?_
    split
    · -- what is read from a value is a part of it, and the value itself is let go
      have member (member : Token) : Keeps v.hand (do
          if ← isSkipping then chain j n v
          else chain j n (← readAttribute v member.text member) : Eval Held) (do
          if ← isSkipping then chain j' n v
          else chain j' n (← readAttribute v member.text member) : Eval Held) Held.hand :=
        .skip keeps_isSkipping fun _ => .ite (ih _)
          (.bind (keeps_readAttribute _ _ _) fun _ => ih _)
      refine .skip (.lift keeps_bump) fun _ => .skip keeps_kind fun _ => .ite ?_ ?_
      · exact .skip (.lift keeps_bump) member
      · exact .skip (.lift (keeps_advance _)) member
    · refine .skip (.lift keeps_bump) fun _ => .next (.holding _ hj.expression) fun index => ?_
      refine .skip (.lift (keeps_advance _)) fun _ => .skip keeps_isSkipping fun _ => .ite ?_ ?_
      · exact .of_gives (.of_le (Multiset.le_add_right _ _)) (ih _)
      · exact .after (keeps_own index) fun _ => .of_gives (.of_le (Multiset.le_add_right _ _))
          (.bind (keeps_readItem _ _ _) fun _ => ih _)
    · refine .skip (.lift keeps_bump) fun _ =>
        .next (.holding _ (keeps_arguments hj n {})) fun args => ?_
      refine .skip keeps_isSkipping fun _ => .ite ?_ ?_
      · exact .of_gives (.of_le (Multiset.le_add_right _ _)) (ih _)
      · exact .of_gives (.of_le (Multiset.le_add_left _ _))
          (.bind (hj.invoke _ _ _) fun _ => ih _)
    · exact .pure (.refl _)

theorem keeps_power (n : Nat) : Keeps 0 (power j n) (power j' n) Held.hand := by
  refine .bind (keeps_primary hj n) fun _ => .bind (keeps_chain hj n _) fun base => ?_
  refine .skip keeps_kind fun _ => .ite (.pure (.refl _)) (.of_gives (.drop _) ?_)
  refine .skip (.lift keeps_bump) fun _ => .bind (.holding _ hj.unary) fun _ => ?_
  refine .of_gives (.drop _) (keeps_unlessSkipping ?_)
  exact .bind (keeps_computed _ (Value.flat_power _ _ _)) fun _ => .pure (.refl _)

/-! ### Waiting -/

omit hj in
/-- A coroutine that is waited for has joined a loop, if it is not done already. -/
theorem keeps_launch (target : Ref .coroutine) : Keeps {.stands (.there target)} (launch target)
    (launch target) fun _ => {.stands (.joined target)} := by
  have asked : Keeps {.stands (.there target)}
      (ask fun w => (w.coroutines.get target).isDone : Eval Bool)
      (ask fun w => (w.coroutines.get target).isDone)
      fun done => if done then {.stands (.joined target)} else {.stands (.there target)} :=
    keeps_askFor _ _ fun w R hw => by
      split
      · rename_i hd
        refine hw.left.note (s := .joined target) fun hn => ?_
        simp [Coroutine.isDone, hn] at hd
      · exact hw
  refine .bind asked fun done => ?_
  cases done with
  | true => exact .pure (.refl _)
  | false =>
    exact .skip keeps_get fun _ => .guard (.lift (keeps_fail _)) (keeps_start target)

omit hj in
/-- The coroutine that has the turn gets the outcome of one that is done, or begins to wait. -/
theorem fares_outcome {task target : Ref .coroutine} (hne : task ≠ target) {m : Machine} {R : Hand}
    (hm : m.Safe (R + {.stands (.joined target)})) (ht : m.thread.task = some task) :
    Fares Machine.bonds m.bonds (fun a m' => m'.Safe (R + a.hand)) (fun e m' => m'.Safe (R + e.hand))
      ((do
        let c ← ask fun w => w.coroutines.get target
        if c.isDone then
          return ← settle (← onHeap (Heap.duplicateOutcome c.outcome))
        modifyWorld (·.suspendOn task target)
        throw .suspended : Eval Held) m)
      ((do
        let c ← ask fun w => w.coroutines.get target
        if c.isDone then
          return ← settle (← onHeap (Heap.duplicateOutcome c.outcome))
        modifyWorld (·.suspendOn task target)
        throw .suspended : Eval Held) m) := by
  show Fares _ _ _ _ ((if (m.world.coroutines.get target).isDone = true then _ else _ : Eval Held) m)
    ((if (m.world.coroutines.get target).isDone = true then _ else _ : Eval Held) m)
  split
  · have learnt := hm.left.world.learn (hm.world.knows_outcome target)
    refine Keeps.bind (keeps_duplicateOutcome _) (fun _ => keeps_settle _) m R { hm with world := ?_ }
    rwa [← add_assoc]
  · rename_i hd
    -- only a coroutine that has begun is waited for, so its end will come
    have joined : (m.world.coroutines.get target).stage ≠ .new :=
      hm.world.stands (s := .joined target) (by simp)
    have acts := (hm.acts task (Machine.mem_tasks.2 (.inl ht))).2
    have waits : ({ m with world := m.world.suspendOn task target } : Machine).Safe R :=
      hm.left.onWorld (fun _ hw => hw.suspendOn acts hne (Bool.eq_false_iff.2 hd) joined)
        fun _ hs => hs.suspendOn task target
    exact .error rfl (waits.mono (add_zero R).le)

omit hj in
theorem keeps_waitFor (keyword : Token) (v : Value) :
    Keeps 0 (waitFor keyword v) (waitFor keyword v) Held.hand := by
  refine .bind (keeps_askCoroutine v) fun target => ?_
  cases target with
  | none => exact keeps_complain _ _
  | some target =>
    refine .get_bind fun m R hm => ?_
    cases ht : m.thread.task with
    | none => exact Keeps.lift (keeps_fail _) m R hm
    | some task =>
      show Fares _ _ _ _ ((if task = target then _ else _ : Eval Held) m)
        ((if task = target then _ else _ : Eval Held) m)
      split
      · exact .error rfl (hm.of_gives (.frame R (.of_flat rfl)))
      · rename_i hne
        refine (keeps_launch target m R hm).bind fun _ m' hb hm' => ?_
        rw [← hb]
        exact fares_outcome hne hm' ((congrArg Bonds.task hb).trans ht)

theorem keeps_awaitExpr : Keeps 0 (awaitExpr j) (awaitExpr j') Held.hand := by
  refine .skip (.lift (keeps_advance _)) fun _ => .skip keeps_mode fun _ => ?_
  refine .guard (.lift (keeps_malformed _ _)) (.bind hj.unary fun _ => .of_gives (.drop _) ?_)
  refine .skip keeps_isSkipping fun _ => .ite (.pure (.of_flat rfl)) ?_
  refine .bind keeps_replayed fun outcome => ?_
  split
  · exact keeps_resume _
  · exact .of_gives (.drop _) (keeps_waitFor _ _)

theorem keeps_unaryExpr (n : Nat) : Keeps 0 (unaryExpr j n) (unaryExpr j' n) Held.hand := by
  refine .skip keeps_kind fun k => ?_
  split
  · refine .skip (.lift keeps_bump) fun _ => .bind hj.unary fun _ => .of_gives (.drop _) ?_
    exact keeps_unlessSkipping (.skip (keeps_truthy _) fun _ => .pure (.of_flat rfl))
  · refine .skip (.lift keeps_bump) fun _ => .bind hj.unary fun _ => .of_gives (.drop _) ?_
    exact keeps_unlessSkipping (.bind (keeps_computed _ (Value.flat_negate _)) fun _ =>
      .pure (.refl _))
  · exact keeps_awaitExpr hj
  · exact keeps_power hj n

/-! ### Binary operators -/

omit hj in
theorem keeps_repeated (text : String) (count : Int) (op : Token) :
    Keeps 0 (repeated text count op) (repeated text count op) fun v => {.owned v} := by
  have written : Keeps 0 (do
      if maxTextBytes < text.utf8ByteSize * count.toNat then
        fail (.system (.repeatTooLong count op.line))
      return .str (repeatText text count.toNat) : Eval Value) (do
      if maxTextBytes < text.utf8ByteSize * count.toNat then
        fail (.system (.repeatTooLong count op.line))
      return .str (repeatText text count.toNat) : Eval Value) fun v => {.owned v} :=
    .guard (.lift (keeps_fail _)) (.pure (.of_flat rfl))
  exact .ite (.skip (keeps_complain _ _) fun _ => written) written

omit hj in
theorem keeps_multiply (op : Token) (a b : Value) :
    Keeps 0 (multiply op a b) (multiply op a b) fun v => {.owned v} := by
  unfold multiply
  split
  · exact keeps_repeated _ _ _
  · exact keeps_repeated _ _ _
  · exact keeps_computed _ (Value.flat_divide _ _ _)
  · exact keeps_computed _ (Value.flat_remainder _ _ _)
  · exact keeps_computed _ (Value.flat_numeric _ _ _)

omit hj in
/-- The right operand of an operator is evaluated while the left one is at hand. -/
theorem keeps_operand {left : Held} {x x' y y' : Eval Held} {f f' : Held → Eval Held}
    (hx : Keeps 0 x x' Held.hand) (hy : Keeps left.hand y y' Held.hand)
    (hf : ∀ right, Keeps (left.hand + right.hand) (f right) (f' right) Held.hand) :
    Keeps left.hand
      (do let right ← holding [left.value] x; if ← isSkipping then y else f right : Eval Held)
      (do let right ← holding [left.value] x'; if ← isSkipping then y' else f' right) Held.hand :=
  .next (.holding _ hx) fun right => .skip keeps_isSkipping fun _ =>
    .ite (.of_gives (.of_le (Multiset.le_add_right _ _)) hy) (hf right)

theorem keeps_multiplicativeTail (n : Nat) (left : Held) :
    Keeps left.hand (multiplicativeTail j n left) (multiplicativeTail j' n left) Held.hand := by
  induction n generalizing left with
  | zero => exact .lift keeps_exhausted
  | succ n ih =>
    refine .skip keeps_kind fun k => ?_
    cases k with
    | star | slash | percent =>
      refine .skip (.lift keeps_bump) fun op => keeps_operand hj.unary (ih left) fun right => ?_
      exact .of_gives (.drop _) (.bind (keeps_multiply _ _ _) fun v => ih (.fresh v))
    | _ => exact .pure (.refl _)

theorem keeps_multiplicative (n : Nat) :
    Keeps 0 (multiplicative j n) (multiplicative j' n) Held.hand :=
  .bind hj.unary fun _ => keeps_multiplicativeTail hj n _

theorem keeps_add (op : Token) (left right : Held) :
    Keeps (left.hand + right.hand) (add j op left right) (add j' op left right) Held.hand := by
  unfold add
  split
  on_goal 3 =>
    refine .of_gives (.of_le (Multiset.le_add_left _ _)) (.skip (keeps_ask _) fun found => ?_)
    split
    · exact keeps_complain _ _
    · refine .next (keeps_newMethod _ rfl) fun method => ?_
      refine .of_gives (.of_le (Multiset.le_add_right _ _)) (.bind (keeps_own right) fun v => ?_)
      exact .holding _ (hj.invoke _ ⟨[v], []⟩ _)
  all_goals refine .of_gives (.drop _) ?_
  on_goal 3 => exact .bind (keeps_computed _ (Value.flat_numeric _ _ _)) fun _ => .pure (.refl _)
  all_goals exact .holding _ (.skip (keeps_render hj _ _) fun _ =>
    .skip (keeps_render hj _ _) fun _ => .pure (.of_flat rfl))

theorem keeps_additiveTail (n : Nat) (left : Held) :
    Keeps left.hand (additiveTail j n left) (additiveTail j' n left) Held.hand := by
  induction n generalizing left with
  | zero => exact .lift keeps_exhausted
  | succ n ih =>
    refine .skip keeps_kind fun k => ?_
    split
    · refine .skip (.lift keeps_bump) fun op =>
        keeps_operand (keeps_multiplicative hj n) (ih left) fun right => ?_
      exact .bind (keeps_add hj op left right) ih
    · refine .skip (.lift keeps_bump) fun op =>
        keeps_operand (keeps_multiplicative hj n) (ih left) fun right => .of_gives (.drop _) ?_
      exact .bind (keeps_computed _ (Value.flat_numeric _ _ _)) fun v => ih (.fresh v)
    · exact .pure (.refl _)

theorem keeps_additive (n : Nat) : Keeps 0 (additive j n) (additive j' n) Held.hand :=
  .bind (keeps_multiplicative hj n) fun _ => keeps_additiveTail hj n _

theorem keeps_comparisonTail (n : Nat) (left : Held) :
    Keeps left.hand (comparisonTail j n left) (comparisonTail j' n left) Held.hand := by
  induction n generalizing left with
  | zero => exact .lift keeps_exhausted
  | succ n ih =>
    refine .skip keeps_kind fun k => ?_
    cases k with
    | lt | gt | lte | gte =>
      refine .skip (.lift keeps_bump) fun op =>
        keeps_operand (keeps_additive hj n) (ih left) fun right => ?_
      exact .of_gives (.drop _) (.bind (keeps_told op _) fun b =>
        .of_gives (.of_flat (g := .owned (.bool b)) rfl) (ih (.fresh (.bool b))))
    | _ => exact .pure (.refl _)

theorem keeps_comparison (n : Nat) : Keeps 0 (comparison j n) (comparison j' n) Held.hand :=
  .bind (keeps_additive hj n) fun _ => keeps_comparisonTail hj n _

theorem keeps_identityTail (n : Nat) (left : Held) :
    Keeps left.hand (identityTail j n left) (identityTail j' n left) Held.hand := by
  induction n generalizing left with
  | zero => exact .lift keeps_exhausted
  | succ n ih =>
    refine .skip (.lift (keeps_skipOver _)) fun _ => .ite (.pure (.refl _)) ?_
    refine .skip (.lift (keeps_skipOver _)) fun negated =>
      keeps_operand (keeps_comparison hj n) (ih left) fun right => ?_
    exact .of_gives (.of_flat (g := .owned (.bool _)) rfl)
      (ih (.fresh (.bool (left.value.identical right.value != negated))))

theorem keeps_identity (n : Nat) : Keeps 0 (identity j n) (identity j' n) Held.hand :=
  .bind (keeps_comparison hj n) fun _ => keeps_identityTail hj n _

theorem keeps_equalityTail (n : Nat) (left : Held) :
    Keeps left.hand (equalityTail j n left) (equalityTail j' n left) Held.hand := by
  induction n generalizing left with
  | zero => exact .lift keeps_exhausted
  | succ n ih =>
    refine .skip keeps_kind fun k => ?_
    cases k with
    | eq | neq =>
      refine .skip (.lift keeps_bump) fun op =>
        keeps_operand (keeps_identity hj n) (ih left) fun right => ?_
      exact .of_gives (.of_flat (g := .owned (.bool _)) rfl)
        (ih (.fresh (.bool (left.value.equals right.value != (op.kind == .neq)))))
    | _ => exact .pure (.refl _)

theorem keeps_equality (n : Nat) : Keeps 0 (equality j n) (equality j' n) Held.hand :=
  .bind (keeps_identity hj n) fun _ => keeps_equalityTail hj n _

theorem keeps_andTail (n : Nat) (left : Held) :
    Keeps left.hand (andTail j n left) (andTail j' n left) Held.hand := by
  induction n generalizing left with
  | zero => exact .lift keeps_exhausted
  | succ n ih =>
    refine .skip (.lift (keeps_skipOver _)) fun _ => .ite (.pure (.refl _)) ?_
    refine .skip keeps_isSkipping fun _ => .skip (keeps_truthy _) fun _ => .ite ?_ ?_
    · exact .next (.skipping (keeps_equality hj n)) fun _ =>
        .of_gives (.of_le (Multiset.le_add_right _ _)) (ih _)
    · exact .of_gives (.drop _) (.bind (.holding _ (keeps_equality hj n)) ih)

theorem keeps_andExpr (n : Nat) : Keeps 0 (andExpr j n) (andExpr j' n) Held.hand :=
  .bind (keeps_equality hj n) fun _ => keeps_andTail hj n _

theorem keeps_orTail (n : Nat) (left : Held) :
    Keeps left.hand (orTail j n left) (orTail j' n left) Held.hand := by
  induction n generalizing left with
  | zero => exact .lift keeps_exhausted
  | succ n ih =>
    refine .skip (.lift (keeps_skipOver _)) fun _ => .ite (.pure (.refl _)) ?_
    refine .skip keeps_isSkipping fun _ => .skip (keeps_truthy _) fun _ => .ite ?_ ?_
    · exact .next (.skipping (keeps_andExpr hj n)) fun _ =>
        .of_gives (.of_le (Multiset.le_add_right _ _)) (ih _)
    · exact .of_gives (.drop _) (.bind (.holding _ (keeps_andExpr hj n)) ih)

theorem keeps_orExpr (n : Nat) : Keeps 0 (orExpr j n) (orExpr j' n) Held.hand :=
  .bind (keeps_andExpr hj n) fun _ => keeps_orTail hj n _

/-! ### Conditional expressions -/

theorem keeps_skipConditional (n : Nat) :
    Keeps 0 (skipConditional j n) (skipConditional j' n) fun _ => 0 := by
  refine .bind (keeps_orExpr hj n) fun _ => .of_gives (.drop _) ?_
  refine .skip (.lift (keeps_skipOver _)) fun _ => .ite ?_ (.pure (.refl _))
  refine .bind (keeps_orExpr hj n) fun _ => .of_gives (.drop _) ?_
  exact .skip (.lift (keeps_advance _)) fun _ => .bind hj.expression fun _ => .pure (.drop _)

theorem keeps_conditional (n : Nat) :
    Keeps 0 (conditional j n) (conditional j' n) Held.hand := by
  refine .skip keeps_isSkipping fun _ => .ite ?_ ?_
  · exact .skip (keeps_skipConditional hj n) fun _ => .pure (.of_flat rfl)
  · refine .skip keeps_get fun m => ?_
    split
    · exact .lift (keeps_fail _)
    · exact keeps_orExpr hj n
    · refine .skip keeps_capture fun _ => .bind (.skipping (keeps_orExpr hj n)) fun _ => ?_
      refine .of_gives (.drop _) (.skip (.lift (keeps_advance _)) fun _ => ?_)
      refine .bind (keeps_orExpr hj n) fun _ => .of_gives (.drop _) ?_
      refine .skip (keeps_truthy _) fun _ => .skip (.lift (keeps_advance _)) fun _ => ?_
      refine .ite hj.expression (.skip (.lift (keeps_rewind _)) fun _ => ?_)
      refine .bind (keeps_orExpr hj n) fun v => .skip (.skipping ?_) fun _ => .pure (.refl _)
      refine .skip (.lift (keeps_advance _)) fun _ => .bind (keeps_orExpr hj n) fun _ => ?_
      refine .of_gives (.drop _) (.skip (.lift (keeps_advance _)) fun _ => ?_)
      exact .bind hj.expression fun _ => .pure (.drop _)

end Jobs

end Eval
end Rewind
