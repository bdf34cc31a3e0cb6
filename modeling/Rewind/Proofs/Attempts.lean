/-
Exceptions that are caught, and what is done in any case.

A `try` statement runs up to three parts: its body, the handler behind `catch`, and the part behind
`finally`.  Each may suspend any number of times, and the statement is then taken up again in the part
it was suspended in.  Over all its turns it enters the body once; the handler once if the body has
ended with an exception, and else never; and the last part once.  It ends as the last part says if
that was left by a signal, else as the handler has ended if it was entered, and else as the body has.

* `TryMark`, `notedTry` — the statement, with a note wherever a part is entered or ends and wherever a
  clause is looked for;
* `TryStage`, `Attempts` — the states of the statement and its steps;
* `clause_of_text` — behind a body is looked for what the text has there;
* `parts_of_try` — which parts are entered, and how the statement ends.
-/
import Rewind.Proofs.Extent
import Rewind.Proofs.Notes
import Rewind.Proofs.Outline

namespace Rewind

open Eval

/-! ### The statement with notes -/

/-- The parts of a `try` statement. -/
inductive TryPart where
  | body
  | handler
  | cleanup
  deriving DecidableEq

/-- The part that runs in a phase. -/
def TryPhase.part : TryPhase → TryPart
  | body => .body
  | handler => .handler
  | cleanup _ => .cleanup

/-- A note of a `try` statement: a part is entered, its run has come to a status, a clause is looked
for, or a handler is passed by from the first token of its body on. -/
inductive TryMark where
  | entered (part : TryPart) (c : Cursor)
  | ended (part : TryPart) (status : Status) (c : Cursor)
  | looked (k : TokenKind) (c : Cursor)
  | passed (c : Cursor)

namespace Eval

/-- A note of where the cursor is. -/
def markCursor (f : Cursor → TryMark) : Noted TryMark Unit := Noted.note fun m => f m.thread.cursor

/-- The run of a part. -/
def notedPart (part : TryPart) (body : Run Status) : Noted TryMark Status := do
  let status ← (liftM (liftM body : Eval Status) : Noted TryMark Status)
  markCursor (.ended part status)
  return status

/-- A computation while some values are at hand. -/
def notedHolding {ν α : Type} (vs : List Value) (x : Noted ν α) : Noted ν α :=
  Noted.within (fun m => { m with pinned := .values vs :: m.pinned })
    (fun m m' => { m' with pinned := m.pinned }) x

/-- The body of `finally`, as `finallyBody` runs it. -/
def notedFinallyBody (pending : Option Signal) (body : Run Status) : Noted TryMark Status := do
  match ← notedHolding (pending.toList.flatMap Signal.carried) (notedPart .cleanup body) with
  | .yielded => (park (.attempt (.cleanup pending)) : Eval Status)
  | .normal => return .ofPending pending
  | status => return status

/-- `finally`, as `finallyClause` looks for it. -/
def notedFinallyClause (j : Jobs) (column : Nat) (handled : Bool) (pending : Option Signal) :
    Noted TryMark Status := do
  let found ← (liftM (isClause .kwFinally column) : Eval Bool)
  markCursor (.looked .kwFinally)
  if found then
    (liftM (do let _ ← bump; enterBlock column : Run Unit) : Eval Unit)
    markCursor (.entered .cleanup)
    notedFinallyBody pending (j.body (column + 4))
  else
    (do if !handled then malformed .clauseMissing (← current)
        return .ofPending pending : Eval Status)

/-- The body of a handler and what follows, as `handlerBody` runs them. -/
def notedHandlerBody (j : Jobs) (column : Nat) (body : Run Status) : Noted TryMark Status := do
  match ← notedPart .handler body with
  | .yielded => (park (.attempt .handler) : Eval Status)
  | .normal =>
    (popScope : Eval Unit)
    notedFinallyClause j column true none
  | .leaving signal =>
    (popScope : Eval Unit)
    notedFinallyClause j column true (some signal)

/-- From `catch` up to the first token of the body behind it, and the name an exception gets. -/
def handlerHeader (column : Nat) : Run (Option Token) := do
  let _ ← bump
  let name ← if ← skipOver .kwAs then some <$> advance .ident else pure none
  enterBlock column
  return name

/-- The scope of a handler, with its exception. -/
def handlerScope (name : Option Token) (r : Raised) : Eval Unit := do
  pushScope
  match name with
  | some token => define token.text r.value
  | none => pure ()

/-- Where the cursor is. -/
def place : Eval Cursor := fun m => .ok m.thread.cursor m

/-- `catch` and what follows, as `handlerClause` takes it. -/
def notedHandlerClause (j : Jobs) (column : Nat) (pending : Option Signal) :
    Noted TryMark Status := do
  let name ← (liftM (handlerHeader column) : Eval (Option Token))
  match pending with
  | some (.raised r) =>
    (handlerScope name r : Eval Unit)
    markCursor (.entered .handler)
    notedHandlerBody j column (j.body (column + 4))
  | other =>
    let start ← (place : Eval Cursor)
    (liftM (skipBody (column + 4)) : Eval Unit)
    Noted.note fun _ => .passed start
    notedFinallyClause j column true other

/-- What follows the body, as `tryClauses` takes it. -/
def notedTryClauses (j : Jobs) (column : Nat) (pending : Option Signal) : Noted TryMark Status := do
  let found ← (liftM (isClause .kwCatch column) : Eval Bool)
  markCursor (.looked .kwCatch)
  if found then notedHandlerClause j column pending
  else notedFinallyClause j column false pending

/-- A `try` statement from a phase on, as `runTry` runs it. -/
def notedTry (j : Jobs) (column : Nat) (body : Run Status) : TryPhase → Noted TryMark Status
  | .body => do
    match ← notedPart .body body with
    | .yielded => (park (.attempt .body) : Eval Status)
    | .normal => notedTryClauses j column none
    | .leaving signal => notedTryClauses j column (some signal)
  | .handler => notedHandlerBody j column body
  | .cleanup pending => notedFinallyBody pending body

/-- A `try` statement from its keyword on. -/
def notedTryStatement (j : Jobs) : Noted TryMark Status := do
  let keyword ← (liftM bump : Eval Token)
  (liftM (enterBlock keyword.column) : Eval Unit)
  markCursor (.entered .body)
  notedTry j keyword.column (j.body (keyword.column + 4)) .body

/-- A construct that is taken up again, as `reenter` does it. -/
def notedTryAgain (column : Nat) (j : Jobs) (n : Nat) : FrameKind → Noted TryMark Status
  | .attempt phase => notedTry j column (j.body (column + 4)) phase
  | kind => (reenter j n column (j.body (column + 4)) kind : Eval Status)

section Result

variable (j : Jobs) (column : Nat) (body : Run Status)

@[simp] theorem result_markCursor (f : Cursor → TryMark) : (markCursor f).result = pure () := rfl

theorem result_notedPart (part : TryPart) : (notedPart part body).result = (liftM body : Eval Status) := by
  simp only [notedPart, Noted.result_bind, Noted.result_lift, result_markCursor, Noted.result_pure,
    pure_bind, bind_pure]

theorem result_notedHolding {ν α : Type} (vs : List Value) (x : Noted ν α) :
    (notedHolding vs x).result = holding vs x.result := by
  funext m
  simp only [Noted.result, notedHolding, Noted.within, holding, pinning]
  rcases x { m with pinned := .values vs :: m.pinned } with ⟨⟨a, m'⟩ | ⟨e, m'⟩, notes⟩ <;> rfl

theorem result_notedFinallyBody (pending : Option Signal) :
    (notedFinallyBody pending body).result = finallyBody pending body := by
  simp only [notedFinallyBody, finallyBody, Noted.result_bind, result_notedHolding, result_notedPart]
  refine congrArg _ (funext fun status => ?_)
  cases status <;> rfl

theorem result_notedFinallyClause (handled : Bool) (pending : Option Signal) :
    (notedFinallyClause j column handled pending).result = finallyClause j column handled pending := by
  simp only [notedFinallyClause, finallyClause, Noted.result_bind, Noted.result_lift,
    result_markCursor, pure_bind]
  refine congrArg _ (funext fun found => ?_)
  cases found with
  | false => rfl
  | true =>
    simp only [if_true, Noted.result_bind, Noted.result_lift, result_markCursor, pure_bind,
      result_notedFinallyBody, lift_bind, bind_assoc]

theorem result_notedHandlerBody :
    (notedHandlerBody j column body).result = handlerBody j column body := by
  simp only [notedHandlerBody, handlerBody, Noted.result_bind, result_notedPart]
  refine congrArg _ (funext fun status => ?_)
  cases status with
  | yielded => rfl
  | normal | leaving =>
    simp only [Noted.result_bind, Noted.result_lift, result_notedFinallyClause]

theorem handlerHeader_bind {α : Type} (f : Option Token → Eval α) :
    (liftM (handlerHeader column) : Eval (Option Token)) >>= f = (do
      let _ ← bump
      let name ← if ← skipOver .kwAs then some <$> advance .ident else pure none
      enterBlock column
      f name) := by
  simp only [handlerHeader, lift_bind, bind_assoc]
  refine congrArg _ (funext fun _ => congrArg _ (funext fun named => ?_))
  cases named with
  | true =>
    simp only [if_true, map_eq_pure_bind, lift_bind, bind_assoc]
    rfl
  | false =>
    simp only [Bool.false_eq_true, if_false, pure_bind, lift_bind, bind_assoc]
    rfl

theorem handlerScope_bind {α : Type} (name : Option Token) (r : Raised) (f : Unit → Eval α) :
    handlerScope name r >>= f = (do
      pushScope
      match name with
      | some token => define token.text r.value
      | none => pure ()
      f ()) := by
  cases name <;> simp only [handlerScope, bind_assoc, pure_bind]

theorem place_bind {α : Type} (x : Eval α) : (place >>= fun _ => x) = x := rfl

theorem result_notedHandlerClause (pending : Option Signal) :
    (notedHandlerClause j column pending).result = handlerClause j column pending := by
  simp only [notedHandlerClause, handlerClause, Noted.result_bind, Noted.result_lift,
    handlerHeader_bind]
  refine congrArg _ (funext fun _ => congrArg _ (funext fun named => ?_))
  cases pending with
  | none => simp only [Noted.result_bind, Noted.result_lift, Noted.result_note, pure_bind, place_bind,
      result_notedFinallyClause]
  | some signal =>
    cases signal with
    | raised r =>
      simp only [Noted.result_bind, Noted.result_lift, result_markCursor, pure_bind,
        result_notedHandlerBody]
      -- the clause with a name and the one without
      split
      · exact congrArg _ (funext fun name => congrArg _ (funext fun _ => handlerScope_bind name r _))
      · exact congrArg _ (funext fun _ => handlerScope_bind none r _)
    | _ => simp only [Noted.result_bind, Noted.result_lift, Noted.result_note, pure_bind, place_bind,
        result_notedFinallyClause]

theorem result_notedTryClauses (pending : Option Signal) :
    (notedTryClauses j column pending).result = tryClauses j column pending := by
  simp only [notedTryClauses, tryClauses, Noted.result_bind, Noted.result_lift, result_markCursor,
    pure_bind]
  refine congrArg _ (funext fun found => ?_)
  cases found with
  | false => exact result_notedFinallyClause j column false pending
  | true => exact result_notedHandlerClause j column pending

theorem result_notedTry (phase : TryPhase) :
    (notedTry j column body phase).result = runTry j column body phase := by
  cases phase with
  | handler => exact result_notedHandlerBody j column body
  | cleanup pending => exact result_notedFinallyBody body pending
  | body =>
    simp only [notedTry, runTry, Noted.result_bind, result_notedPart]
    refine congrArg _ (funext fun status => ?_)
    cases status with
    | yielded => rfl
    | normal => exact result_notedTryClauses j column none
    | leaving signal => exact result_notedTryClauses j column (some signal)

theorem result_notedTryStatement : (notedTryStatement j).result = tryStatement j := by
  simp only [notedTryStatement, tryStatement, Noted.result_bind, Noted.result_lift,
    result_markCursor, pure_bind, result_notedTry]

theorem result_notedTryAgain (n : Nat) (kind : FrameKind) :
    (notedTryAgain column j n kind).result = reenter j n column (j.body (column + 4)) kind := by
  cases kind with
  | attempt phase => exact result_notedTry j column _ phase
  | _ => rfl

end Result

end Eval

/-! ### Part after part -/

/-- The clause `k` of a `try` statement at `column` stands here. -/
def Cursor.stands (k : TokenKind) (column : Nat) (c : Cursor) : Bool :=
  c.current.kind == k && c.current.column == column

/-- Where the body at `column` has ended: at the end of the text, or at a token that starts a line left
of the body. -/
def Cursor.Behind (column : Nat) (c : Cursor) : Prop := c.kind = .eof ∨ c.StartsLeft column

/-- What is left if a part ends like this while `pending` is: a signal takes its place. -/
def Status.overriding : Status → Status → Status
  | .normal, pending => pending
  | status, _ => status

/-- Where a `try` statement is: before its body, inside of a part, behind its body, at the handler it
enters or passes by, before `finally`, behind that, and at its end. -/
inductive TryStage where
  | start
  | inside (phase : TryPhase)
  | tried (pending : Option Signal) (c : Cursor)
  | handling
  | passing (pending : Option Signal)
  | behind (pending : Option Signal) (c : Cursor)
  | closing (pending : Option Signal)
  | done (status : Status)

/-- The steps of a `try` statement at `column`. -/
inductive Attempts (column : Nat) : TryStage → TryMark → TryStage → Prop where
  | enter (c : Cursor) : Attempts column .start (.entered .body c) (.inside .body)
  | wait (phase : TryPhase) (c : Cursor) :
    Attempts column (.inside phase) (.ended phase.part .yielded c) (.inside phase)
  | tried {pending : Option Signal} {c : Cursor} : c.Behind (column + 4) →
    Attempts column (.inside .body) (.ended .body (.ofPending pending) c) (.tried pending c)
  | uncaught {pending : Option Signal} {c : Cursor} : c.stands .kwCatch column = false →
    Attempts column (.tried pending c) (.looked .kwCatch c) (.behind pending c)
  | caught {r : Raised} {c : Cursor} : c.stands .kwCatch column = true →
    Attempts column (.tried (some (.raised r)) c) (.looked .kwCatch c) .handling
  | handle (c : Cursor) : Attempts column .handling (.entered .handler c) (.inside .handler)
  | spared {pending : Option Signal} {c : Cursor} : c.stands .kwCatch column = true →
    (∀ r, pending ≠ some (.raised r)) →
    Attempts column (.tried pending c) (.looked .kwCatch c) (.passing pending)
  | pass {pending : Option Signal} {c d : Cursor} : c.skipBody (column + 4) 0 = .ok d →
    Attempts column (.passing pending) (.passed c) (.behind pending d)
  | handled {pending : Option Signal} {c : Cursor} : c.Behind (column + 4) →
    Attempts column (.inside .handler) (.ended .handler (.ofPending pending) c) (.behind pending c)
  | leave {pending : Option Signal} {c : Cursor} : c.stands .kwFinally column = false →
    Attempts column (.behind pending c) (.looked .kwFinally c) (.done (.ofPending pending))
  | close {pending : Option Signal} {c : Cursor} : c.stands .kwFinally column = true →
    Attempts column (.behind pending c) (.looked .kwFinally c) (.closing pending)
  | clean (pending : Option Signal) (c : Cursor) :
    Attempts column (.closing pending) (.entered .cleanup c) (.inside (.cleanup pending))
  | cleaned {pending : Option Signal} {status : Status} {c : Cursor} : c.Behind (column + 4) →
    status ≠ .yielded → Attempts column (.inside (.cleanup pending)) (.ended .cleanup status c)
      (.done (status.overriding (.ofPending pending)))

namespace TryStage

/-- A `try` statement that yields asks to go on in the part it is in. -/
def Asks (s : TryStage) (kind : FrameKind) : Prop :=
  ∃ phase, s = .inside phase ∧ kind = .attempt phase

/-- How the statement has ended. -/
def Over (status : Status) (s : TryStage) : Prop := s = .done status

end TryStage

namespace Eval

/-- However a body ends, taken up again or not, it ends behind itself. -/
theorem behind_of_body (fuel column : Nat) {m m' : Machine} {status : Status}
    (h : (jobs fuel).body column m = .ok status m') (hs : status ≠ .yielded) :
    m'.thread.cursor.Behind column := by
  cases fuel with
  | zero => cases h
  | succ fuel =>
    obtain ⟨m₀, m₁, hget, h⟩ := ok_of_bind h
    obtain ⟨rfl, rfl⟩ := EStateM.Result.ok.inj hget
    cases hr : m.thread.resume with
    | nil =>
      rw [hr] at h
      exact ends_of_statements _ column fuel h hs
    | cons frame rest =>
      rw [hr] at h
      obtain ⟨_, m₁, -, h⟩ := ok_of_bind h
      exact ends_of_statements _ column fuel h hs

/-- Where a part has come to. -/
def Reached (phase : TryPhase) (status : Status) (m : Machine) (s : TryStage) : Prop :=
  match status, phase with
  | .yielded, phase => s = .inside phase
  | status, .body => ∃ pending, status = .ofPending pending ∧ s = .tried pending m.thread.cursor
  | status, .handler => ∃ pending, status = .ofPending pending ∧ s = .behind pending m.thread.cursor
  | status, .cleanup pending => s = .done (status.overriding (.ofPending pending))

section Tells

variable {fuel column : Nat}

theorem tells_markCursor {s s' : TryStage} {Q : Unit → Machine → TryStage → Prop}
    {f : Cursor → TryMark} {m : Machine} (step : Attempts column s (f m.thread.cursor) s')
    (h : Q () m s') : Tells (Attempts column) s Q (markCursor f) m := .note step h

theorem tells_part (phase : TryPhase) (m : Machine) :
    Tells (Attempts column) (.inside phase) (Reached phase)
      (notedPart phase.part ((jobs fuel).body (column + 4))) m := by
  refine .bind (Q := fun status m s => s = .inside phase ∧
    (status ≠ .yielded → m.thread.cursor.Behind (column + 4)))
    (.run fun status m' h => ⟨rfl, behind_of_body fuel _ h⟩) ?_
  rintro status m₁ _ ⟨rfl, behind⟩
  have told {s : TryStage} (step : Attempts column (.inside phase)
      (.ended phase.part status m₁.thread.cursor) s) (h : Reached phase status m₁ s) :
      Tells (Attempts column) (.inside phase) (Reached phase)
        (do markCursor (.ended phase.part status); return status : Noted TryMark Status) m₁ := by
    refine .bind (Q := fun _ m' s' => m' = m₁ ∧ s' = s) (tells_markCursor step ⟨rfl, rfl⟩) ?_
    rintro _ _ _ ⟨rfl, rfl⟩
    exact .pure h
  by_cases hs : status = .yielded
  · subst hs
    exact told (.wait phase _) rfl
  · have ends := behind hs
    -- the ending of a part that has not yielded is what is pending behind it
    obtain ⟨pending, rfl⟩ : ∃ pending, status = .ofPending pending := by
      cases status with
      | yielded => exact absurd rfl hs
      | normal => exact ⟨none, rfl⟩
      | leaving signal => exact ⟨some signal, rfl⟩
    cases phase with
    | body => exact told (.tried ends) (by cases pending <;> exact ⟨_, rfl, rfl⟩)
    | handler => exact told (.handled ends) (by cases pending <;> exact ⟨_, rfl, rfl⟩)
    | cleanup before => exact told (.cleaned ends hs) (by cases pending <;> rfl)

theorem tells_notedHolding {s : TryStage} {Q : Status → Machine → TryStage → Prop} (vs : List Value)
    {x : Noted TryMark Status} {m : Machine}
    (hQ : ∀ status m' pinned s', Q status m' s' → Q status { m' with pinned } s')
    (h : ∀ m, Tells (Attempts column) s Q x m) :
    Tells (Attempts column) s Q (notedHolding vs x) m :=
  .within ((h _).mono fun _ _ _ hq => hQ _ _ _ _ hq)

theorem tells_finallyBody (pending : Option Signal) (m : Machine) :
    Tells (Attempts column) (.inside (.cleanup pending)) (Leaves TryStage.Asks TryStage.Over)
      (notedFinallyBody pending ((jobs fuel).body (column + 4))) m := by
  refine .bind (Q := Reached (.cleanup pending))
    (tells_notedHolding _ (fun status _ _ _ h => by cases status <;> exact h)
      (tells_part (.cleanup pending))) ?_
  intro status m₁ s hr
  -- only an ending of its own displaces what was pending
  cases status with
  | yielded =>
    obtain rfl : s = .inside (.cleanup pending) := hr
    exact .plain_ok rfl ⟨_, ⟨_, rfl, rfl⟩, rfl⟩
  | normal =>
    obtain rfl : s = .done (.ofPending pending) := hr
    refine .pure ?_
    cases pending <;> rfl
  | leaving signal =>
    obtain rfl : s = .done (.leaving signal) := hr
    exact .pure rfl

theorem tells_finallyClause (handled : Bool) (pending : Option Signal) (m : Machine) :
    Tells (Attempts column) (.behind pending m.thread.cursor)
      (Leaves TryStage.Asks TryStage.Over)
      (notedFinallyClause (jobs fuel) column handled pending) m := by
  refine .bind (Q := fun found m' s => m = m' ∧ m.thread.cursor.stands .kwFinally column = found ∧
    s = .behind pending m.thread.cursor) (.plain_ok rfl ⟨rfl, rfl, rfl⟩) ?_
  rintro _ _ _ ⟨rfl, rfl, rfl⟩
  cases found : m.thread.cursor.stands .kwFinally column with
  | false =>
    refine .bind (Q := fun _ m' s => s = .done (.ofPending pending))
      (tells_markCursor (.leave found) rfl) ?_
    rintro _ m₁ _ rfl
    -- without a cleanup part somebody else must have taken up the exception
    cases handled with
    | true => exact .plain_ok rfl (by cases pending <;> rfl)
    | false => exact ⟨_, .nil _, _, rfl⟩
  | true =>
    refine .bind (Q := fun _ m' s => s = .closing pending) (tells_markCursor (.close found) rfl) ?_
    rintro _ m₁ _ rfl
    refine .bind (Q := fun _ _ s => s = .closing pending) (.run fun _ _ _ => rfl) ?_
    rintro _ m₂ _ rfl
    refine .bind (Q := fun _ _ s => s = .inside (.cleanup pending))
      (tells_markCursor (.clean pending _) rfl) ?_
    rintro _ m₃ _ rfl
    exact tells_finallyBody pending m₃

theorem tells_handlerBody (m : Machine) :
    Tells (Attempts column) (.inside .handler) (Leaves TryStage.Asks TryStage.Over)
      (notedHandlerBody (jobs fuel) column ((jobs fuel).body (column + 4))) m := by
  refine .bind (Q := Reached .handler) (tells_part .handler m) ?_
  intro status m₁ s hr
  -- the scope of the handler is left where the cursor is
  have clause (pending : Option Signal) : Tells (Attempts column)
      (.behind pending m₁.thread.cursor) (Leaves TryStage.Asks TryStage.Over)
      (do
        (popScope : Eval Unit)
        notedFinallyClause (jobs fuel) column true pending) m₁ := by
    obtain ⟨m₂, hpop, hc⟩ : ∃ m₂, (popScope : Eval Unit) m₁ = .ok () m₂ ∧
        m₂.thread.cursor = m₁.thread.cursor := by
      rw [popScope_run]
      split
      · exact ⟨_, rfl, rfl⟩
      · exact ⟨_, rfl, rfl⟩
    refine .bind (Q := fun _ m' s => m' = m₂ ∧ s = .behind pending m₁.thread.cursor)
      (.plain_ok hpop ⟨rfl, rfl⟩) ?_
    rintro _ _ _ ⟨rfl, rfl⟩
    rw [← hc]
    exact tells_finallyClause true pending _
  cases status with
  | yielded =>
    obtain rfl : s = .inside .handler := hr
    exact .plain_ok rfl ⟨_, ⟨_, rfl, rfl⟩, rfl⟩
  | normal =>
    obtain ⟨pending, hp, rfl⟩ := hr
    cases pending with
    | none => exact clause none
    | some signal => cases hp
  | leaving signal =>
    obtain ⟨pending, hp, rfl⟩ := hr
    cases pending with
    | none => cases hp
    | some signal' =>
      obtain rfl := Status.leaving.inj hp
      exact clause (some signal)

theorem tells_handled (r : Raised) (m : Machine) :
    Tells (Attempts column) .handling (Leaves TryStage.Asks TryStage.Over)
      (notedHandlerClause (jobs fuel) column (some (.raised r))) m := by
  refine .bind (Q := fun _ _ s => s = .handling) (.run fun _ _ _ => rfl) ?_
  rintro name m₁ _ rfl
  obtain ⟨m₂, hscope⟩ : ∃ m₂, handlerScope name r m₁ = .ok () m₂ := by
    cases name <;> exact ⟨_, rfl⟩
  refine .bind (Q := fun _ _ s => s = .handling) (.plain_ok hscope rfl) ?_
  rintro _ m₃ _ rfl
  refine .bind (Q := fun _ _ s => s = .inside .handler) (tells_markCursor (.handle _) rfl) ?_
  rintro _ m₄ _ rfl
  exact tells_handlerBody m₄

theorem tells_spared {pending : Option Signal} (hp : ∀ r, pending ≠ some (.raised r)) (m : Machine) :
    Tells (Attempts column) (.passing pending) (Leaves TryStage.Asks TryStage.Over)
      (notedHandlerClause (jobs fuel) column pending) m := by
  -- with nothing raised the handler is skipped, whatever is pending
  have other (m : Machine) : Tells (Attempts column) (.passing pending)
      (Leaves TryStage.Asks TryStage.Over) (do
        let start ← (place : Eval Cursor)
        (liftM (skipBody (column + 4)) : Eval Unit)
        Noted.note fun _ => .passed start
        notedFinallyClause (jobs fuel) column true pending) m := by
    refine .bind (Q := fun start m' s => s = .passing pending ∧ start = m'.thread.cursor)
      (.plain_ok rfl ⟨rfl, rfl⟩) ?_
    rintro _ m₁ _ ⟨rfl, rfl⟩
    refine .bind (Q := fun _ m' s => s = .passing pending ∧
      m₁.thread.cursor.skipBody (column + 4) 0 = .ok m'.thread.cursor) (.run fun _ m' h => ?_) ?_
    · simp only [skipBody, move] at h
      cases hc : m₁.thread.cursor.skipBody (column + 4) 0 with
      | error failure =>
        rw [hc] at h
        cases h
      | ok d =>
        rw [hc] at h
        obtain ⟨-, rfl⟩ := EStateM.Result.ok.inj h
        exact ⟨rfl, rfl⟩
    rintro _ m₂ _ ⟨rfl, hd⟩
    refine .bind (Q := fun _ m' s => m₂ = m' ∧ s = .behind pending m₂.thread.cursor)
      (.note (.pass hd) ⟨rfl, rfl⟩) ?_
    rintro _ _ _ ⟨rfl, rfl⟩
    exact tells_finallyClause true pending m₂
  refine .bind (Q := fun _ _ s => s = .passing pending) (.run fun _ _ _ => rfl) ?_
  rintro name m₁ _ rfl
  cases pending with
  | none => exact other m₁
  | some signal =>
    cases signal with
    | raised r => exact absurd rfl (hp r)
    | _ => exact other m₁

theorem tells_tryClauses (pending : Option Signal) (m : Machine) :
    Tells (Attempts column) (.tried pending m.thread.cursor) (Leaves TryStage.Asks TryStage.Over)
      (notedTryClauses (jobs fuel) column pending) m := by
  refine .bind (Q := fun found m' s => m = m' ∧ m.thread.cursor.stands .kwCatch column = found ∧
    s = .tried pending m.thread.cursor) (.plain_ok rfl ⟨rfl, rfl, rfl⟩) ?_
  rintro found _ _ ⟨rfl, hf, rfl⟩
  cases found with
  | false =>
    refine .bind (Q := fun _ m' s => m = m' ∧ s = .behind pending m.thread.cursor)
      (tells_markCursor (.uncaught hf) ⟨rfl, rfl⟩) ?_
    rintro _ _ _ ⟨rfl, rfl⟩
    exact tells_finallyClause false pending m
  | true =>
    -- the clause that stands here is entered by an exception and skipped by everything else
    by_cases hp : ∃ r, pending = some (.raised r)
    · obtain ⟨r, rfl⟩ := hp
      refine .bind (Q := fun _ _ s => s = .handling) (tells_markCursor (.caught hf) rfl) ?_
      rintro _ m₁ _ rfl
      exact tells_handled r m₁
    · have hp : ∀ r, pending ≠ some (.raised r) := fun r h => hp ⟨r, h⟩
      refine .bind (Q := fun _ _ s => s = .passing pending) (tells_markCursor (.spared hf hp) rfl) ?_
      rintro _ m₁ _ rfl
      exact tells_spared hp m₁

theorem tells_try (phase : TryPhase) (m : Machine) :
    Tells (Attempts column) (.inside phase) (Leaves TryStage.Asks TryStage.Over)
      (notedTry (jobs fuel) column ((jobs fuel).body (column + 4)) phase) m := by
  cases phase with
  | handler => exact tells_handlerBody m
  | cleanup pending => exact tells_finallyBody pending m
  | body =>
    refine .bind (Q := Reached .body) (tells_part .body m) ?_
    intro status m₁ s hr
    cases status with
    | yielded =>
      obtain rfl : s = .inside .body := hr
      exact .plain_ok rfl ⟨_, ⟨_, rfl, rfl⟩, rfl⟩
    | normal =>
      -- what is pending behind the body is what it has ended with
      obtain ⟨pending, hp, rfl⟩ := hr
      cases pending with
      | none => exact tells_tryClauses none m₁
      | some signal => cases hp
    | leaving signal =>
      obtain ⟨pending, hp, rfl⟩ := hr
      cases pending with
      | none => cases hp
      | some signal' =>
        obtain rfl := Status.leaving.inj hp
        exact tells_tryClauses (some signal) m₁

theorem tells_tryAgain (n : Nat) (m : Machine) {s : TryStage} {kind : FrameKind}
    (h : s.Asks kind) : Tells (Attempts column) s (Leaves TryStage.Asks TryStage.Over)
      (notedTryAgain column (jobs fuel) n kind) m := by
  obtain ⟨phase, rfl, rfl⟩ := h
  exact tells_try phase m

theorem tells_tryStatement (m : Machine) :
    Tells (Attempts m.thread.cursor.current.column) .start (Leaves TryStage.Asks TryStage.Over)
      (notedTryStatement (jobs fuel)) m := by
  refine .bind (Q := fun keyword _ s => keyword = m.thread.cursor.current ∧ s = .start)
    (.run fun keyword m' h => ⟨?_, rfl⟩) ?_
  · have bumped : (liftM bump : Eval Token) m = .ok keyword m' := by rw [Quiet.run_lift, h]
    exact token_of_bump bumped
  rintro _ m₁ _ ⟨rfl, rfl⟩
  refine .bind (Q := fun _ _ s => s = .start) (.run fun _ _ _ => rfl) ?_
  rintro _ m₂ _ rfl
  refine .bind (Q := fun _ _ s => s = .inside .body) (tells_markCursor (.enter _) rfl) ?_
  rintro _ m₃ _ rfl
  exact tells_try .body m₃

end Tells

end Eval

/-! ### What is told -/

/-- The parts entered, in order. -/
def entries (notes : List TryMark) : List TryPart :=
  notes.filterMap fun
    | .entered part _ => some part
    | _ => none

/-- The parts that have come to their end, in order, with how and where. -/
def endings (notes : List TryMark) : List (TryPart × Status × Cursor) :=
  notes.filterMap fun
    | .ended _ .yielded _ => none
    | .ended part status c => some (part, status, c)
    | _ => none

/-- The clauses looked for, in order, and where. -/
def looks (notes : List TryMark) : List (TokenKind × Cursor) :=
  notes.filterMap fun
    | .looked k c => some (k, c)
    | _ => none

/-- Where the bodies of handlers begin that are passed by. -/
def passes (notes : List TryMark) : List Cursor :=
  notes.filterMap fun
    | .passed c => some c
    | _ => none

section Cons

variable (part : TryPart) (k : TokenKind) (c : Cursor) (notes : List TryMark)

@[simp] theorem entries_entered : entries (.entered part c :: notes) = part :: entries notes := rfl

@[simp] theorem entries_looked : entries (.looked k c :: notes) = entries notes := rfl

@[simp] theorem entries_passed : entries (.passed c :: notes) = entries notes := rfl

@[simp] theorem looks_entered : looks (.entered part c :: notes) = looks notes := rfl

@[simp] theorem looks_looked : looks (.looked k c :: notes) = (k, c) :: looks notes := rfl

@[simp] theorem looks_passed : looks (.passed c :: notes) = looks notes := rfl

@[simp] theorem endings_entered : endings (.entered part c :: notes) = endings notes := rfl

@[simp] theorem endings_looked : endings (.looked k c :: notes) = endings notes := rfl

@[simp] theorem endings_passed : endings (.passed c :: notes) = endings notes := rfl

@[simp] theorem passes_entered : passes (.entered part c :: notes) = passes notes := rfl

@[simp] theorem passes_looked : passes (.looked k c :: notes) = passes notes := rfl

@[simp] theorem passes_passed : passes (.passed c :: notes) = c :: passes notes := rfl

end Cons

/-- The status is that of an exception. -/
def Status.raises : Status → Bool
  | .leaving (.raised _) => true
  | _ => false

theorem Status.ofPending_ne_yielded (pending : Option Signal) :
    Status.ofPending pending ≠ .yielded := by
  cases pending <;> exact nofun

section Trail

variable {column : Nat} {notes : List TryMark} {status : Status} {pending : Option Signal}

/-- Behind its end a statement does nothing. -/
theorem nil_of_done {s : TryStage} (h : Trail (Attempts column) (.done status) notes s) :
    notes = [] ∧ s = .done status := by
  cases h with
  | nil => exact ⟨rfl, rfl⟩
  | cons step => nomatch step

/-- A part that is entered comes to its end once, however often it waits before. -/
theorem inside_of_trail {phase : TryPhase}
    (h : Trail (Attempts column) (.inside phase) notes (.done status)) :
    ∃ f d s rest, f ≠ .yielded ∧ Attempts column (.inside phase) (.ended phase.part f d) s ∧
      Trail (Attempts column) s rest (.done status) ∧ entries notes = entries rest ∧
      looks notes = looks rest ∧ passes notes = passes rest ∧
      endings notes = (phase.part, f, d) :: endings rest := by
  -- on the notes: as long as the part yields the trail stays inside it
  induction notes with
  | nil => nomatch h
  | cons mark notes ih =>
    have ended {f : Status} {d : Cursor} {s : TryStage} (hf : f ≠ .yielded)
        (step : Attempts column (.inside phase) (.ended phase.part f d) s)
        (rest : Trail (Attempts column) s notes (.done status)) :
        ∃ f' d' s' rest', f' ≠ .yielded ∧
          Attempts column (.inside phase) (.ended phase.part f' d') s' ∧
          Trail (Attempts column) s' rest' (.done status) ∧
          entries (.ended phase.part f d :: notes) = entries rest' ∧
          looks (.ended phase.part f d :: notes) = looks rest' ∧
          passes (.ended phase.part f d :: notes) = passes rest' ∧
          endings (.ended phase.part f d :: notes) = (phase.part, f', d') :: endings rest' := by
      refine ⟨f, d, s, notes, hf, step, rest, rfl, rfl, rfl, ?_⟩
      cases f with
      | yielded => exact absurd rfl hf
      | normal | leaving => rfl
    cases h with
    | cons step rest =>
      cases step with
      | wait => exact ih rest
      | tried hd => exact ended (Status.ofPending_ne_yielded _) (.tried hd) rest
      | handled hd => exact ended (Status.ofPending_ne_yielded _) (.handled hd) rest
      | cleaned hd hf => exact ended hf (.cleaned hd hf) rest

/-- From `finally` on. -/
theorem closing_of_trail {c : Cursor}
    (h : Trail (Attempts column) (.behind pending c) notes (.done status)) :
    ∃ f d, looks notes = [(.kwFinally, c)] ∧ passes notes = [] ∧
      entries notes = (if c.stands .kwFinally column then [.cleanup] else []) ∧
      endings notes = (if c.stands .kwFinally column then [(.cleanup, f, d)] else []) ∧
      status = (if c.stands .kwFinally column then f.overriding (.ofPending pending)
        else .ofPending pending) := by
  cases h with
  | cons step rest =>
    cases step with
    | leave hc =>
      obtain ⟨rfl, hs⟩ := nil_of_done rest
      obtain rfl := TryStage.done.inj hs
      exact ⟨.normal, c, by simp [hc, looks, entries, endings, passes]⟩
    | close hc =>
      cases rest with
      | cons step rest =>
        cases step with
        | clean =>
          obtain ⟨f, d, s, rest', hf, step, rest, he, hl, hp, hn⟩ := inside_of_trail rest
          cases step with
          | wait => exact absurd rfl hf
          | cleaned hd hf =>
            obtain ⟨rfl, hs⟩ := nil_of_done rest
            obtain rfl := TryStage.done.inj hs
            refine ⟨f, d, ?_⟩
            simp only [hc, if_true]
            exact ⟨congrArg _ hl, hp, congrArg _ he, hn, trivial⟩

end Trail

/-- What the notes tell of a `try` statement at `column` that has ended: its body has ended with `b`
at `c`; `p` was pending when `finally` was looked for at `d`; what is behind `finally` has ended with
`f` at `e`, if it stands there; and the statement has ended with `status`. -/
structure Tried (column : Nat) (notes : List TryMark) (b : Status) (c : Cursor) (p : Status)
    (d : Cursor) (f : Status) (e : Cursor) (status : Status) : Prop where
  looks : looks notes = [(.kwCatch, c), (.kwFinally, d)]
  behind : c.Behind (column + 4)
  /-- The body is entered once, the handler if it stands there and the body has raised, and what is
  behind `finally` if it stands there. -/
  entries : entries notes = [.body] ++
    (if b.raises && c.stands .kwCatch column then [.handler] else []) ++
    (if d.stands .kwFinally column then [.cleanup] else [])
  endings : endings notes = [(.body, b, c)] ++
    (if b.raises && c.stands .kwCatch column then [(.handler, p, d)] else []) ++
    (if d.stands .kwFinally column then [(.cleanup, f, e)] else [])
  /-- Without a handler that is entered, what the body has ended with stays pending. -/
  pending : (b.raises && c.stands .kwCatch column) = false → p = b
  /-- Where there is no handler `finally` is looked for at once. -/
  place : c.stands .kwCatch column = false → d = c
  /-- A handler that is not entered is skipped. -/
  skipped : b.raises = false → c.stands .kwCatch column = true →
    ∃ start, passes notes = [start] ∧ start.skipBody (column + 4) 0 = .ok d
  outcome : status = if d.stands .kwFinally column then f.overriding p else p

section Trail

variable {column : Nat} {notes : List TryMark} {status : Status} {pending : Option Signal}

theorem raises_of_ne (h : ∀ r, pending ≠ some (.raised r)) :
    (Status.ofPending pending).raises = false := by
  cases pending with
  | none => rfl
  | some signal =>
    cases signal with
    | raised r => exact absurd rfl (h r)
    | _ => rfl

/-- A `try` statement that has come to its end. -/
theorem tried_of_trail (h : Trail (Attempts column) .start notes (.done status)) :
    ∃ b c p d f e, Tried column notes b c p d f e status := by
  cases h with
  | @cons _ _ _ _ notes step rest =>
  cases step with
  | enter start =>
  obtain ⟨b, c, s, notes₁, hb, step, rest, he₁, hl₁, hp₁, hn₁⟩ := inside_of_trail rest
  cases step with
  | wait => exact absurd rfl hb
  | @tried pending _ behind =>
  cases rest with
  | @cons _ _ _ _ notes₂ step rest =>
  cases step with
  | uncaught hc =>
    obtain ⟨f, e, hl, -, he, hn, hs⟩ := closing_of_trail rest
    refine ⟨.ofPending pending, c, .ofPending pending, c, f, e, ?_, behind, ?_, ?_, fun _ => rfl,
      fun _ => rfl, fun _ hc' => absurd (hc.symm.trans hc') nofun, hs⟩
    · simp [hl₁, hl]
    · simp [he₁, he, hc]
    · simp [hn₁, hn, hc, TryPhase.part]
  | @caught r _ hc =>
    cases rest with
    | cons step rest =>
    cases step with
    | handle =>
    obtain ⟨h, d, s, notes₃, hh, step, rest, he₃, hl₃, -, hn₃⟩ := inside_of_trail rest
    cases step with
    | wait => exact absurd rfl hh
    | @handled p =>
    obtain ⟨f, e, hl, -, he, hn, hs⟩ := closing_of_trail rest
    have handled : ((Status.ofPending (some (.raised r))).raises && c.stands .kwCatch column) = true := by
      rw [hc]
      rfl
    refine ⟨_, c, .ofPending p, d, f, e, ?_, behind, ?_, ?_,
      fun h => absurd (handled.symm.trans h) nofun, fun hc' => absurd (hc.symm.trans hc') nofun,
      fun h => absurd h nofun, hs⟩
    · simp [hl₁, hl₃, hl]
    · simp [he₁, he₃, he, handled]
    · simp [hn₁, hn₃, hn, handled, TryPhase.part]
  | spared hc hp =>
    cases rest with
    | cons step rest =>
    cases step with
    | @pass _ start d hd =>
    obtain ⟨f, e, hl, none, he, hn, hs⟩ := closing_of_trail rest
    have spared := raises_of_ne hp
    refine ⟨.ofPending pending, c, .ofPending pending, d, f, e, ?_, behind, ?_, ?_, fun _ => rfl,
      fun hc' => absurd (hc.symm.trans hc') nofun, fun _ _ => ⟨start, ?_, hd⟩, hs⟩
    · simp [hl₁, hl]
    · simp [he₁, he, spared]
    · simp [hn₁, hn, spared, TryPhase.part]
    · simp [hp₁, none]

end Trail

/-- The clause looked for behind a body is the one the text has there, if the run of the body has not
yielded and no statement of it goes on in a line left of its column. -/
theorem clause_of_text (fuel column : Nat) {m m' : Machine} {status : Status} {lines : List Cursor}
    {c : Cursor} (hc : m.thread.cursor.Sound) (hr : m.thread.resume = [])
    (h : (jobs fuel).body (column + 4) m = .ok status m') (hs : status ≠ .yielded)
    (text : m.thread.cursor.EndsBody (column + 4) lines c)
    (within : ∀ more d, m.thread.cursor.Passes (lines ++ c :: more) d → ¬ d.Meets m'.thread.cursor)
    (k : TokenKind) : m'.thread.cursor.stands k column = c.stands k column := by
  obtain meets | ⟨more, d, run, meets⟩ := place_of_body fuel (column + 4) hc hr h hs text
  · simp only [Cursor.stands, meets.current]
  · exact absurd meets (within more d run)

/-- A `try` statement that has come to its end, in however many turns, whichever part it was suspended
in and whatever has become of the machine meanwhile. -/
theorem parts_of_try {fuel n : Nat} {m m' : Machine} {legs : List Leg} {status : Status}
    (attempt : m.thread.cursor.kind = .kwTry) (outside : m.thread.mode.inBlueprint = false)
    (turns : Turns m.thread.cursor.capture
      (conclude m.thread.cursor.capture (statement (jobs fuel) n) m) legs (.ok status m'))
    (left : status ≠ .yielded) :
    let column := m.thread.cursor.current.column
    ∃ b c p d f e, Tried column ((notedTryStatement (jobs fuel)).notes m ++
      legs.flatMap (Leg.notes (notedTryAgain column))) b c p d f e status := by
  intro column
  have run : statement (jobs fuel) n m = (notedTryStatement (jobs fuel)).result m := by
    have hk : m.thread.cursor.current.kind = .kwTry := attempt
    rw [result_notedTryStatement]
    simp only [statement, bind, EStateM.bind, current, mode, outside, hk, Bool.false_and,
      Bool.false_eq_true, if_false]
  obtain ⟨s₁, trail₁, ends⟩ := (tells_tryStatement m).concludes (p := m.thread.cursor.capture)
  rw [← conclude_congr run] at ends
  obtain ⟨s, trail₂, last⟩ := turns.trail (notedTryAgain column)
    (fun j n kind => result_notedTryAgain j column n kind)
    (fun fuel n m s kind asks => tells_tryAgain n m asks) ends
  obtain rfl : s = .done status := by
    cases status with
    | yielded => exact absurd rfl left
    | normal | leaving => exact last
  exact tried_of_trail (trail₁.append trail₂)

/-- A coroutine at a statement whose body waits for a timer. -/
def waitingTry : Machine :=
  let m := onText "try:\n    await t\ncatch as e:\n    skip\nfinally:\n    skip\n"
  let timer : Coroutine := { serial := 1, name := "t", kind := .timer 5 }
  { m with
    world := { m.world with
      scopes := m.world.scopes.define m.thread.scope "t" (.coroutine ⟨0⟩)
      coroutines := (m.world.coroutines.push timer).push { serial := 2, name := "f", kind := .timer 0 } }
    thread := { m.thread with mode := { inAsync := true }, task := some ⟨1⟩, driven := true } }

/-- The statement in its first turn. -/
def firstTurnOfTry : EStateM.Result Fault Machine Status :=
  conclude waitingTry.thread.cursor.capture (statement (jobs 12) 12) waitingTry

/-- The turn in which the coroutine learns that what it has waited for has failed. -/
def secondTurnOfTry : Leg :=
  match firstTurnOfTry with
  | .ok _ m | .error _ m =>
    let tape := m.thread.tape.inject (.error ⟨.str "late", 1, 1⟩)
    ⟨12, 12, { m with thread := { m.thread with resume := m.thread.parked, parked := [], tape } }⟩

/-- A turn in which a statement has yielded, with the frames of the statements it was inside. -/
def parkedBy : EStateM.Result Fault Machine Status → Option (List Frame)
  | .ok .yielded m => some m.thread.parked
  | _ => none

theorem yielded_of_parkedBy {r : EStateM.Result Fault Machine Status} (h : parkedBy r ≠ none) :
    ∃ m, r = .ok .yielded m := by
  unfold parkedBy at h
  split at h
  · exact ⟨_, rfl⟩
  · exact absurd rfl h

/-- The body is suspended in the first turn and raises in the second one, in which the handler and the
part behind `finally` run. -/
theorem parts_of_waitingTry :
    waitingTry.thread.cursor.kind = .kwTry ∧ waitingTry.thread.mode.inBlueprint = false ∧ ∃ m',
      Turns waitingTry.thread.cursor.capture firstTurnOfTry [secondTurnOfTry] (.ok .normal m') ∧
      Status.normal ≠ .yielded ∧
      let notes := (notedTryStatement (jobs 12)).notes waitingTry ++
        [secondTurnOfTry].flatMap (Leg.notes (notedTryAgain 1))
      entries notes = [.body, .handler, .cleanup] ∧
      ∃ b c p d f e, Tried 1 notes b c p d f e .normal := by
  obtain ⟨attempt, outside, column⟩ : waitingTry.thread.cursor.kind = .kwTry ∧
      waitingTry.thread.mode.inBlueprint = false ∧
      waitingTry.thread.cursor.current.column = 1 := by decide +kernel
  obtain ⟨m, first⟩ := yielded_of_parkedBy (r := firstTurnOfTry) (by decide +kernel)
  obtain ⟨m', last⟩ := ok_of_endsNormally
    (r := secondTurnOfTry.run waitingTry.thread.cursor.capture) (by decide +kernel)
  have resume : secondTurnOfTry.machine.thread.resume = m.thread.parked := by
    unfold secondTurnOfTry
    rw [first]
  have turns : Turns waitingTry.thread.cursor.capture firstTurnOfTry [secondTurnOfTry]
      (.ok .normal m') := by
    rw [first]
    refine .more resume ?_
    rw [last]
    exact .last _
  have parts := parts_of_try attempt outside turns nofun
  rw [column] at parts
  exact ⟨attempt, outside, m', turns, nofun, by decide +kernel, parts⟩

end Rewind
