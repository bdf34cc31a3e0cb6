/-
What is passed without effect.

While tokens are skipped an expression is read and not evaluated.  How far the reading goes, and
whether the text turns out to be no expression, depends on the token stood on and on whether an
`await` may stand there, and on nothing else: not on a variable, a container, a tape, a coroutine or
a module, nor on what a call would do.  Whichever way the reading ends, it has moved the cursor, and
all else is as it was.

* `Passage`, `Passage.step`, `Machine.after` — where a reading ends, as a function of where it begins;
* `Skims` — in every machine that skips, two computations are the same passage;
* `skims_primary`, …, `skims_conditional` — the levels of an expression;
* `jobsWith` — evaluation in which calls and bodies do something else;
* `skipped_without_effect` — every level is a passage, whatever calls and bodies do.
-/
import Rewind.Proofs.Extent
import Rewind.Proofs.Precedence

namespace Rewind

open Eval

variable {α β γ : Type}

/-- Where a reading ends that begins at a token: with a value or with what ends the run, and at which
token. -/
abbrev Passage (α : Type) := Cursor → Except Fault α × Cursor

/-- Where a move ends, which may fail, and what was read at the token it began on. -/
def Passage.step (f : Cursor → Except Failure Cursor) (read : Cursor → α) : Passage α := fun c =>
  match f c with
  | .ok d => (.ok (read c), d)
  | .error failure => (.error (.failure failure), c)

/-- The machine once its cursor has moved, and nothing else. -/
def Machine.after (m : Machine) : Except Fault α × Cursor → EStateM.Result Interrupt Machine α
  | (.ok a, c) => .ok a (m.moved c)
  | (.error f, c) => .error (.fault f) (m.moved c)

/-- In every machine that skips, and where an `await` may stand if `async` says so, `x` and `y` are
the same passage; what it gives is as `P` says. -/
def Skims (async : Bool) (P : α → Prop) (x y : Eval α) : Prop :=
  ∃ f : Passage α, (∀ c a, (f c).1 = .ok a → P a) ∧
    ∀ m : Machine, m.thread.skip ≠ 0 → m.thread.mode.inAsync = async →
      x m = m.after (f m.thread.cursor) ∧ y m = m.after (f m.thread.cursor)

/-- Nothing is known of the value. -/
def Anything : α → Prop := fun _ => True

/-- What is given while skipping: a null of one's own. -/
def Nothing : Held → Prop := (· = Held.null)

namespace Skims

variable {async : Bool} {P : α → Prop} {Q : β → Prop}

theorem pure {a : α} (h : P a) : Skims async P (Pure.pure a : Eval α) (Pure.pure a) :=
  ⟨fun c => (.ok a, c), fun _ _ h' => Except.ok.inj h' ▸ h, fun _ _ _ => ⟨rfl, rfl⟩⟩

theorem fault (f : Fault) : Skims async P (throw (.fault f) : Eval α) (throw (.fault f)) :=
  ⟨fun c => (.error f, c), nofun, fun _ _ _ => ⟨rfl, rfl⟩⟩

theorem mono {P' : α → Prop} {x y : Eval α} (h : Skims async P x y) (hP : ∀ a, P a → P' a) :
    Skims async P' x y := by
  obtain ⟨f, hf, hm⟩ := h
  exact ⟨f, fun c a ha => hP a (hf c a ha), hm⟩

theorem anything {x y : Eval α} (h : Skims async P x y) : Skims async Anything x y :=
  h.mono fun _ _ => trivial

/-- One passage behind another: the second begins where the first has ended. -/
theorem bind {x y : Eval α} {k k' : α → Eval β} (hx : Skims async P x y)
    (hk : ∀ a, P a → Skims async Q (k a) (k' a)) : Skims async Q (x >>= k) (y >>= k') := by
  classical
  obtain ⟨f, hf, hxm⟩ := hx
  choose g hg hkm using hk
  let whole : Passage β := fun c =>
    match f c with
    | (.ok a, d) => if h : P a then g a h d else (.error .exhausted, d)
    | (.error e, d) => (.error e, d)
  have ended {c d : Cursor} {e : Fault} (h : f c = (.error e, d)) : whole c = (.error e, d) := by
    simp only [whole, h]
  have goesOn {c d : Cursor} {a : α} (h : f c = (.ok a, d)) (ha : P a) : whole c = g a ha d := by
    simp only [whole, h, dif_pos ha]
  refine ⟨whole, fun c v hv => ?_, fun m hm hb => ?_⟩
  · rcases hr : f c with ⟨e | a, d⟩
    · rw [ended hr] at hv
      nomatch hv
    · -- what the first passage comes to allows the second one to go on
      have ha : P a := hf c a (by rw [hr])
      rw [goesOn hr ha] at hv
      exact hg a ha d v hv
  · obtain ⟨hx, hy⟩ := hxm m hm hb
    show EStateM.bind x k m = _ ∧ EStateM.bind y k' m = _
    unfold EStateM.bind
    rw [hx, hy]
    rcases hr : f m.thread.cursor with ⟨e | a, d⟩
    · rw [ended hr]
      exact ⟨rfl, rfl⟩
    · have ha : P a := hf _ a (by rw [hr])
      rw [goesOn hr ha]
      exact hkm a ha (m.moved d) hm hb

theorem ite {p : Prop} [Decidable p] {x x' y y' : Eval α} (h : p → Skims async P x y)
    (h' : ¬ p → Skims async P x' y') :
    Skims async P (if p then x else x') (if p then y else y') := by
  split
  · exact h ‹_›
  · exact h' ‹_›

/-- A computation that begins with something that every machine which skips knows. -/
theorem known_bind {z : Eval γ} {k k' : γ → Eval α} {c : γ} (h : Skims async P (k c) (k' c))
    (hz : ∀ m : Machine, m.thread.skip ≠ 0 → m.thread.mode.inAsync = async → z m = .ok c m) :
    Skims async P (z >>= k) (z >>= k') := by
  obtain ⟨f, hf, hm⟩ := h
  refine ⟨f, hf, fun m hs hb => ?_⟩
  rw [bind_of_ok (hz m hs hb), bind_of_ok (hz m hs hb)]
  exact hm m hs hb

/-- A machine that skips knows that it does. -/
theorem isSkipping_bind {k k' : Bool → Eval α} (h : Skims async P (k true) (k' true)) :
    Skims async P (isSkipping >>= k) (isSkipping >>= k') :=
  h.known_bind fun _ hs _ => isSkipping_of_skipping hs

/-- A look at the world that is of no account. -/
theorem look {z : World → γ} {x y : Eval α} (h : Skims async P x y) :
    Skims async P (ask z >>= fun _ => x) (ask z >>= fun _ => y) := by
  obtain ⟨f, hf, hm⟩ := h
  exact ⟨f, hf, hm⟩

/-- A look at the body the machine is in, of which only that matters whether it may wait. -/
theorem mode_bind {k k' : Mode → Eval α} (hk : ∀ a, k a = k { inAsync := a.inAsync })
    (hk' : ∀ a, k' a = k' { inAsync := a.inAsync })
    (h : Skims async P (k { inAsync := async }) (k' { inAsync := async })) :
    Skims async P (mode >>= k) (mode >>= k') := by
  obtain ⟨f, hf, hm⟩ := h
  refine ⟨f, hf, fun m hs hb => ?_⟩
  show k m.thread.mode m = _ ∧ k' m.thread.mode m = _
  rw [hk, hk', hb]
  exact hm m hs hb

/-- A look at the cursor. -/
theorem cursor {z : Eval γ} (k : Cursor → γ) (hz : ∀ m, z m = .ok (k m.thread.cursor) m) :
    Skims async Anything z z :=
  ⟨fun c => (.ok (k c), c), fun _ _ _ => trivial, fun m _ _ => ⟨hz m, hz m⟩⟩

/-- A run that only moves the cursor. -/
theorem lift {x : Run α} (f : Passage α) (hx : ∀ m : Machine, x m = match f m.thread.cursor with
      | (.ok a, c) => .ok a (m.moved c)
      | (.error e, c) => .error e (m.moved c)) :
    Skims async Anything (liftM x : Eval α) (liftM x) := by
  have run (m : Machine) : (liftM x : Eval α) m = m.after (f m.thread.cursor) := by
    rw [Quiet.run_lift, hx]
    rcases f m.thread.cursor with ⟨e | a, c⟩ <;> rfl
  exact ⟨f, fun _ _ _ => trivial, fun m _ _ => ⟨run m, run m⟩⟩

/-- What is at hand meanwhile is of no account. -/
theorem holding (vs : List Value) {x y : Eval α} (h : Skims async P x y) :
    Skims async P (Eval.holding vs x) (Eval.holding vs y) := by
  obtain ⟨f, hf, hm⟩ := h
  refine ⟨f, hf, fun m hs hb => ?_⟩
  obtain ⟨hx, hy⟩ := hm { m with pinned := .values vs :: m.pinned } hs hb
  simp only [Eval.holding, pinning, hx, hy]
  rcases f m.thread.cursor with ⟨e | a, c⟩ <;> exact ⟨rfl, rfl⟩

/-- To skip while skipping is to skip. -/
theorem skipping {x y : Eval α} (h : Skims async P x y) :
    Skims async P (Eval.skipping x) (Eval.skipping y) := by
  obtain ⟨f, hf, hm⟩ := h
  refine ⟨f, hf, fun m hs hb => ?_⟩
  obtain ⟨hx, hy⟩ := hm { m with thread := { m.thread with skip := m.thread.skip + 1 } }
    (Nat.succ_ne_zero _) hb
  simp only [Eval.skipping, hx, hy]
  rcases f m.thread.cursor with ⟨e | a, c⟩ <;> exact ⟨rfl, rfl⟩

/-- A value is not made while skipping. -/
theorem unlessSkipping (x y : Eval Held) :
    Skims async Nothing (Eval.unlessSkipping x) (Eval.unlessSkipping y) :=
  .isSkipping_bind (.pure rfl)

/-- What would be done with the operands is not done. -/
theorem ifSkipping {x y : Eval α} {z z' : Eval α} (h : Skims async P x y) :
    Skims async P (do if ← isSkipping then x else z) (do if ← isSkipping then y else z') :=
  .isSkipping_bind h

/-- A null of one's own is kept as it is. -/
theorem own_bind {a : Held} (ha : Nothing a) {k k' : Value → Eval α}
    (h : Skims async P (k .null) (k' .null)) : Skims async P (own a >>= k) (own a >>= k') := by
  cases ha
  exact h.known_bind fun _ _ _ => rfl

end Skims

namespace Eval

variable {async : Bool}

/-! ### Moves -/

theorem skims_kind : Skims async Anything (kind : Eval TokenKind) kind := .cursor _ fun _ => rfl

theorem skims_current : Skims async Anything (current : Eval Token) current := .cursor _ fun _ => rfl

/-- A move that gives the token passed. -/
theorem skims_passing (f : Cursor → Except Failure Cursor) :
    Skims async Anything (liftM (do let passed ← current; move f; return passed : Run Token) : Eval _)
      (liftM (do let passed ← current; move f; return passed : Run Token)) := by
  refine .lift (Passage.step f Cursor.current) fun m => ?_
  simp only [bind, EStateM.bind, current, move, Passage.step]
  cases f m.thread.cursor <;> rfl

theorem skims_bump : Skims async Anything (liftM bump : Eval Token) (liftM bump) := skims_passing _

theorem skims_advance (k : TokenKind) :
    Skims async Anything (liftM (advance k) : Eval Token) (liftM (advance k)) := skims_passing _

theorem skims_skipOver (k : TokenKind) :
    Skims async Anything (liftM (skipOver k) : Eval Bool) (liftM (skipOver k)) := by
  refine .lift (fun c => if c.kind = k then Passage.step Cursor.bump (fun _ => true) c
    else (.ok false, c)) fun m => ?_
  rw [skipOver_run]
  split
  · unfold Passage.step
    cases m.thread.cursor.bump <;> rfl
  · rfl

theorem skims_isNamed :
    Skims async Anything (liftM arguments.isNamed : Eval Bool) (liftM arguments.isNamed) := by
  refine .lift (fun c => if c.kind ≠ .ident then (.ok false, c)
    else ((c.peek.mapError Fault.failure).map fun next => next.kind == .assign, c)) fun m => ?_
  rw [isNamed_run]
  split
  · rfl
  · cases m.thread.cursor.peek <;> rfl

theorem skims_malformed {α : Type} {P : α → Prop} (issue : SyntaxIssue) (site : Token) :
    Skims async P (liftM (malformed issue site : Run α) : Eval α) (liftM (malformed issue site : Run α)) :=
  .fault _

theorem skims_finish (args : CallArgs) :
    Skims async Anything (liftM (arguments.finish args) : Eval CallArgs)
      (liftM (arguments.finish args)) := by
  rw [finish_eq]
  exact .bind (skims_advance _) fun _ _ => .pure trivial

/-! ### Items and arguments -/

/-- What the levels of an expression ask of the jobs. -/
structure Skimmed (async : Bool) (j j' : Jobs) : Prop where
  expression : Skims async Nothing j.expression j'.expression
  unary : Skims async Anything j.unary j'.unary

section Levels

variable {j j' : Jobs} (hj : Skimmed async j j')
include hj

/-- An expression whose value is kept. -/
theorem skims_kept {β : Type} {Q : β → Prop} (vs : List Value) {k k' : Value → Eval β}
    (h : Skims async Q (k .null) (k' .null)) :
    Skims async Q (holding vs j.expression >>= fun a => own a >>= k)
      (holding vs j'.expression >>= fun a => own a >>= k') :=
  .bind (.holding vs hj.expression) fun _ ha => .own_bind ha h

theorem skims_items (close : TokenKind) (n : Nat) (read : List Value) :
    Skims async Anything (items j close n read) (items j' close n read) := by
  induction n generalizing read with
  | zero => exact .fault _
  | succ n ih =>
    refine .bind skims_kind fun k _ => .ite (fun _ => .pure trivial) fun _ => ?_
    refine skims_kept hj _ (.bind (skims_skipOver _) fun b _ => .ite (fun _ => ih _) fun _ => ?_)
    exact .pure trivial

theorem skims_arguments (n : Nat) (args : CallArgs) :
    Skims async Anything (arguments j n args) (arguments j' n args) := by
  induction n generalizing args with
  | zero => exact .fault _
  | succ n ih =>
    have goesOn (args : CallArgs) : Skims async Anything
        (do if ← skipOver .comma then arguments j n args else arguments.finish args)
        (do if ← skipOver .comma then arguments j' n args else arguments.finish args) :=
      .bind (skims_skipOver _) fun _ _ => .ite (fun _ => ih _) fun _ => skims_finish _
    refine .bind skims_kind fun k _ => .ite (fun _ => skims_finish _) fun _ => ?_
    refine .bind skims_isNamed fun named _ => .ite (fun _ => ?_) fun _ => ?_
    · refine .bind skims_bump fun name _ => .bind skims_bump fun _ _ => ?_
      exact skims_kept hj _ (goesOn _)
    · cases args.named with
      | cons first rest => exact skims_malformed _ _
      | nil => exact skims_kept hj _ (goesOn _)

theorem skims_tupleItems (n : Nat) (read : List Value) :
    Skims async Anything (tupleItems j n read) (tupleItems j' n read) := by
  induction n generalizing read with
  | zero => exact .fault _
  | succ n ih =>
    refine .bind (skims_skipOver _) fun b _ => .ite (fun _ => .pure trivial) fun _ => ?_
    refine .bind skims_kind fun k _ => .ite (fun _ => .pure trivial) fun _ => ?_
    exact skims_kept hj _ (ih _)

theorem skims_parenthesized (n : Nat) :
    Skims async Anything (parenthesized j n) (parenthesized j' n) := by
  refine .bind (skims_skipOver _) fun b _ => .ite (fun _ => (Skims.unlessSkipping _ _).anything)
    fun _ => ?_
  refine .bind hj.expression fun first hfirst => .bind skims_kind fun k _ =>
    .ite (fun _ => ?_) fun _ => .own_bind hfirst ?_
  · exact .bind (skims_advance _) fun _ _ => .pure trivial
  · exact .bind (skims_tupleItems hj _ _) fun _ _ => .bind (skims_advance _) fun _ _ =>
      (Skims.unlessSkipping _ _).anything

theorem skims_arrayLiteral (n : Nat) :
    Skims async Anything (arrayLiteral j n) (arrayLiteral j' n) :=
  .bind (skims_items hj _ _ _) fun _ _ => .bind (skims_advance _) fun _ _ =>
    (Skims.unlessSkipping _ _).anything

theorem skims_dictEntries (n : Nat) (d : Dict Value) :
    Skims async Anything (dictEntries j n d) (dictEntries j' n d) := by
  induction n generalizing d with
  | zero => exact .fault _
  | succ n ih =>
    refine .bind skims_kind fun k _ => .ite (fun _ => .pure trivial) fun _ => ?_
    refine .bind skims_current fun site _ => .bind (.holding _ hj.expression) fun key _ => ?_
    have goesOn : Skims async Anything
        (do if ← skipOver .comma then dictEntries j n d else return d)
        (do if ← skipOver .comma then dictEntries j' n d else return d) :=
      .bind (skims_skipOver _) fun b _ => .ite (fun _ => ih _) fun _ => .pure trivial
    -- what the key is does not matter: the entry is not made
    exact .bind (skims_advance _) fun _ _ => skims_kept hj _ (.isSkipping_bind goesOn)

theorem skims_dictLiteral (n : Nat) :
    Skims async Anything (dictLiteral j n) (dictLiteral j' n) :=
  .bind (skims_dictEntries hj _ _) fun _ _ => .bind (skims_advance _) fun _ _ =>
    (Skims.unlessSkipping _ _).anything

/-! ### Operands -/

theorem skims_primary (n : Nat) : Skims async Anything (primary j n) (primary j' n) := by
  refine .bind skims_bump fun token _ => ?_
  have unmade {x y : Eval Held} : Skims async Anything (unlessSkipping x) (unlessSkipping y) :=
    (Skims.unlessSkipping x y).anything
  split
  case h_3 | h_10 | h_11 => exact unmade
  case h_7 => exact skims_parenthesized hj n
  case h_8 => exact skims_arrayLiteral hj n
  case h_9 => exact skims_dictLiteral hj n
  case h_12 => exact skims_malformed _ _
  all_goals exact .pure trivial

/-- Behind an operand no attribute is read, no item is read and nothing is called. -/
theorem skims_chain (n : Nat) (v : Held) : Skims async Anything (chain j n v) (chain j' n v) := by
  induction n generalizing v with
  | zero => exact .fault _
  | succ n ih =>
    refine .bind skims_kind fun k _ => ?_
    split
    · refine .bind skims_bump fun _ _ => .bind skims_kind fun k _ => .ite (fun _ => ?_) fun _ => ?_
      · exact .bind skims_bump fun _ _ => .ifSkipping (ih v)
      · exact .bind (skims_advance _) fun _ _ => .ifSkipping (ih v)
    · refine .bind skims_bump fun site _ => .bind (.holding _ hj.expression) fun index _ => ?_
      exact .bind (skims_advance _) fun _ _ => .ifSkipping (ih v)
    · refine .bind skims_bump fun site _ => .bind (.holding _ (skims_arguments hj n _)) fun args _ => ?_
      exact .ifSkipping (ih v)
    · exact .pure trivial

theorem skims_power (n : Nat) : Skims async Anything (power j n) (power j' n) := by
  refine .bind (skims_primary hj n) fun first _ => .bind (skims_chain hj n first) fun base _ => ?_
  refine .bind skims_kind fun k _ => .ite (fun _ => .pure trivial) fun _ => ?_
  exact .bind skims_bump fun op _ => .bind (.holding _ hj.unary) fun _ _ =>
    (Skims.unlessSkipping _ _).anything

/-- An operand that is skipped is not waited for, and no outcome is taken from the tape. -/
theorem skims_awaitExpr : Skims async Anything (awaitExpr j) (awaitExpr j') := by
  refine .bind (skims_advance _) fun keyword _ => .mode_bind (fun _ => rfl) (fun _ => rfl) ?_
  have operand (waits : Held → Eval Held) : Skims async Anything
      (j.unary >>= fun operand => do if ← isSkipping then return Held.null else waits operand)
      (j'.unary >>= fun operand => do if ← isSkipping then return Held.null else waits operand) :=
    .bind hj.unary fun _ _ => .isSkipping_bind (.pure trivial)
  exact .ite (fun _ => .bind (skims_malformed (P := Anything) _ _) fun _ _ => operand _)
    fun _ => operand _

theorem skims_unaryExpr (n : Nat) : Skims async Anything (unaryExpr j n) (unaryExpr j' n) := by
  refine .bind skims_kind fun k _ => ?_
  split
  case h_1 | h_2 =>
    exact .bind skims_bump fun _ _ => .bind hj.unary fun _ _ => (Skims.unlessSkipping _ _).anything
  · exact skims_awaitExpr hj
  · exact skims_power hj n

/-! ### Binary operators -/

theorem skims_multiplicativeTail (n : Nat) (left : Held) :
    Skims async Anything (multiplicativeTail j n left) (multiplicativeTail j' n left) := by
  induction n generalizing left with
  | zero => exact .fault _
  | succ n ih =>
    refine .bind skims_kind fun k _ => ?_
    split
    case h_4 => exact .pure trivial
    all_goals
      exact .bind skims_bump fun op _ => .bind (.holding _ hj.unary) fun _ _ => .ifSkipping (ih left)

theorem skims_multiplicative (n : Nat) :
    Skims async Anything (multiplicative j n) (multiplicative j' n) :=
  .bind hj.unary fun _ _ => skims_multiplicativeTail hj n _

theorem skims_additiveTail (n : Nat) (left : Held) :
    Skims async Anything (additiveTail j n left) (additiveTail j' n left) := by
  induction n generalizing left with
  | zero => exact .fault _
  | succ n ih =>
    refine .bind skims_kind fun k _ => ?_
    split
    case h_3 => exact .pure trivial
    all_goals
      exact .bind skims_bump fun op _ => .bind (.holding _ (skims_multiplicative hj n)) fun _ _ =>
        .ifSkipping (ih left)

theorem skims_additive (n : Nat) : Skims async Anything (additive j n) (additive j' n) :=
  .bind (skims_multiplicative hj n) fun _ _ => skims_additiveTail hj n _

theorem skims_comparisonTail (n : Nat) (left : Held) :
    Skims async Anything (comparisonTail j n left) (comparisonTail j' n left) := by
  induction n generalizing left with
  | zero => exact .fault _
  | succ n ih =>
    refine .bind skims_kind fun k _ => ?_
    split
    case h_5 => exact .pure trivial
    all_goals
      exact .bind skims_bump fun op _ => .bind (.holding _ (skims_additive hj n)) fun _ _ =>
        .ifSkipping (ih left)

theorem skims_comparison (n : Nat) : Skims async Anything (comparison j n) (comparison j' n) :=
  .bind (skims_additive hj n) fun _ _ => skims_comparisonTail hj n _

theorem skims_identityTail (n : Nat) (left : Held) :
    Skims async Anything (identityTail j n left) (identityTail j' n left) := by
  induction n generalizing left with
  | zero => exact .fault _
  | succ n ih =>
    refine .bind (skims_skipOver _) fun b _ => .ite (fun _ => .pure trivial) fun _ => ?_
    refine .bind (skims_skipOver _) fun negated _ => ?_
    exact .bind (.holding _ (skims_comparison hj n)) fun _ _ => .ifSkipping (ih left)

theorem skims_identity (n : Nat) : Skims async Anything (identity j n) (identity j' n) :=
  .bind (skims_comparison hj n) fun _ _ => skims_identityTail hj n _

theorem skims_equalityTail (n : Nat) (left : Held) :
    Skims async Anything (equalityTail j n left) (equalityTail j' n left) := by
  induction n generalizing left with
  | zero => exact .fault _
  | succ n ih =>
    refine .bind skims_kind fun k _ => ?_
    split
    case h_3 => exact .pure trivial
    all_goals
      exact .bind skims_bump fun op _ => .bind (.holding _ (skims_identity hj n)) fun _ _ =>
        .ifSkipping (ih left)

theorem skims_equality (n : Nat) : Skims async Anything (equality j n) (equality j' n) :=
  .bind (skims_identity hj n) fun _ _ => skims_equalityTail hj n _

/-- The second operand is passed, whatever the first one counts as. -/
theorem skims_andTail (n : Nat) (left : Held) :
    Skims async Anything (andTail j n left) (andTail j' n left) := by
  induction n generalizing left with
  | zero => exact .fault _
  | succ n ih =>
    refine .bind (skims_skipOver _) fun b _ => .ite (fun _ => .pure trivial) fun _ => ?_
    refine .isSkipping_bind ?_
    simp only [Bool.true_or, if_true]
    exact .look (.bind (.skipping (skims_equality hj n)) fun _ _ => ih left)

theorem skims_andExpr (n : Nat) : Skims async Anything (andExpr j n) (andExpr j' n) :=
  .bind (skims_equality hj n) fun _ _ => skims_andTail hj n _

/-- The second operand is passed, whatever the first one counts as. -/
theorem skims_orTail (n : Nat) (left : Held) :
    Skims async Anything (orTail j n left) (orTail j' n left) := by
  induction n generalizing left with
  | zero => exact .fault _
  | succ n ih =>
    refine .bind (skims_skipOver _) fun b _ => .ite (fun _ => .pure trivial) fun _ => ?_
    refine .isSkipping_bind ?_
    simp only [Bool.true_or, if_true]
    exact .look (.bind (.skipping (skims_andExpr hj n)) fun _ _ => ih left)

theorem skims_orExpr (n : Nat) : Skims async Anything (orExpr j n) (orExpr j' n) :=
  .bind (skims_andExpr hj n) fun _ _ => skims_orTail hj n _

/-! ### Conditional expressions -/

theorem skims_skipConditional (n : Nat) :
    Skims async Anything (skipConditional j n) (skipConditional j' n) := by
  have side := skims_orExpr hj n
  refine .bind side fun _ _ => .bind (skims_skipOver _) fun b _ => .ite (fun _ => ?_) fun _ => ?_
  · exact .bind side fun _ _ => .bind (skims_advance _) fun _ _ => .bind hj.expression fun _ _ =>
      .pure trivial
  · exact .pure trivial

/-- Neither is it looked whether a conditional is ahead, nor is a side of it evaluated. -/
theorem skims_conditional (n : Nat) : Skims async Nothing (conditional j n) (conditional j' n) :=
  .isSkipping_bind (.bind (skims_skipConditional hj n) fun _ _ => .pure rfl)

/-- Every level of precedence is passed. -/
theorem skims_atLevel (ℓ n : Nat) : Skims async Anything (atLevel ℓ j n) (atLevel ℓ j' n) := by
  unfold atLevel
  split
  · exact skims_orExpr hj n
  · exact skims_andExpr hj n
  · exact skims_equality hj n
  · exact skims_identity hj n
  · exact skims_comparison hj n
  · exact skims_additive hj n
  · exact skims_multiplicative hj n
  · exact skims_unaryExpr hj n
  · exact skims_power hj n
  · exact .bind (skims_primary hj n) fun _ _ => skims_chain hj n _
  · exact (skims_conditional hj n).anything

end Levels

/-- The jobs of a run in which a call and a body do something else. -/
def jobsWith (invoke : Value → CallArgs → Token → Eval Held) (body : Nat → Run Status) :
    (fuel : Nat) → Jobs
  | 0 => { jobs 0 with body, invoke }
  | fuel + 1 =>
    let j := jobsWith invoke body fuel
    { expression := conditional j fuel, unary := unaryExpr j fuel, body, invoke }

theorem skimmed_jobs (async : Bool) (invoke : Value → CallArgs → Token → Eval Held)
    (body : Nat → Run Status) (fuel : Nat) : Skimmed async (jobs fuel) (jobsWith invoke body fuel) := by
  induction fuel with
  | zero => exact ⟨.fault _, .fault _⟩
  | succ fuel ih => exact ⟨skims_conditional ih fuel, skims_unaryExpr ih fuel⟩

end Eval

open Eval

/-- An expression that is skipped, at whatever level of precedence, only moves the cursor, whether it
comes to its end or turns out to be none; it raises nothing and never waits.  How it ends and where
follows from the token it began on and from whether an `await` may stand there.  So nothing is read
that a machine holds besides, and whatever calls and bodies may do, they are not run. -/
theorem skipped_without_effect (ℓ n fuel : Nat) :
    ∃ passage : (async : Bool) → Cursor → Except Fault Held × Cursor,
      ∀ m : Machine, m.thread.skip ≠ 0 →
        atLevel ℓ (jobs fuel) n m = m.after (passage m.thread.mode.inAsync m.thread.cursor) ∧
        ∀ invoke body, atLevel ℓ (jobsWith invoke body fuel) n m =
          m.after (passage m.thread.mode.inAsync m.thread.cursor) := by
  have alike (async : Bool) (invoke body) : Skims async Anything _ _ :=
    skims_atLevel (skimmed_jobs async invoke body fuel) ℓ n
  choose passage hp hm using fun async => alike async (jobs 0).invoke (jobs 0).body
  refine ⟨passage, fun m hs => ⟨(hm _ m hs rfl).1, fun invoke body => ?_⟩⟩
  obtain ⟨f, -, hf⟩ := alike m.thread.mode.inAsync invoke body
  -- both passages are the one that the evaluation itself is
  rw [(hf m hs rfl).2, ← (hf m hs rfl).1, (hm _ m hs rfl).1]

/-- A machine that skips an expression full of effects, none of whose names is bound. -/
def skippedEffects : Machine :=
  let m := onText "show(await f(x)[1 / 0]).y if \"%\x7bnobody\x7d\" else \x7bz: -[g()]\x7d"
  { m with thread := { m.thread with skip := 1, mode := { inAsync := true } } }

/-- It is passed up to the end of the text, and no call is made on the way. -/
theorem skipped_effects :
    skippedEffects.thread.skip ≠ 0 ∧ ∃ v c,
      atLevel 1 (jobs 9) 9 skippedEffects = .ok v (skippedEffects.moved c) ∧ c.kind = .eof ∧
      ∀ invoke body, atLevel 1 (jobsWith invoke body 9) 9 skippedEffects =
        .ok v (skippedEffects.moved c) := by
  have hs : skippedEffects.thread.skip ≠ 0 := by decide +kernel
  obtain ⟨passage, h⟩ := skipped_without_effect 1 9 9
  obtain ⟨plain, other⟩ := h skippedEffects hs
  obtain ⟨v, m, he, hk⟩ := ok_of_endsOn (k := .eof)
    (r := atLevel 1 (jobs 9) 9 skippedEffects) (by decide +kernel)
  rcases hp : passage skippedEffects.thread.mode.inAsync skippedEffects.thread.cursor
    with ⟨f | w, c⟩
  · rw [he, hp] at plain
    nomatch plain
  · rw [hp] at plain other
    rw [he] at plain
    obtain ⟨rfl, rfl⟩ := EStateM.Result.ok.inj plain
    exact ⟨hs, v, c, he, hk, other⟩

end Rewind
