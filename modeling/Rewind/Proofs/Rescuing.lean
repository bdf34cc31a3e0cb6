/-
Statements with handlers are run as their trees.

The body of a `try` ends with what is pending: nothing, or a signal.  A handler takes an exception,
which it binds in a scope of its own, and any other signal passes it by; behind it the clean-up runs
whatever is pending, which is at hand meanwhile, and a signal that leaves it comes in its place.

* `carries_finally` — a clean-up that stands here;
* `Cleanup.Simulated`, `Clauses.Simulated` — what is behind a handler, and behind the body of a `try`;
* `carries_attempt` — the statement, if its body and its clauses are run as their trees.
-/
import Rewind.Proofs.Looping

namespace Rewind.Tree

open Eval

variable {g : Scene} {S : Setting} {σ σ' : Store} {m m' : Machine} {b c d e : Cursor}
  {p q : Position} {k : Nat} {us vs ws : List Word} {w : Word} {rest : List Row} {t : Term}
  {o : Except Halt (Option Signal)} {pending : Option Signal} {body : Block} {inner outer : Cursor}

/-! ### Clean-ups -/

/-- What follows a body that ended with `pending`, or a handler. -/
def cleaning (k : Nat) (handled : Bool) (pending : Option Signal) : Supplied Interrupt Status :=
  fun fuel _ => finallyClause (jobs fuel) (4 * k + 1) handled pending

theorem isClause_run (kind : TokenKind) (column : Nat) (m : Machine) :
    (isClause kind column : Run Bool) m =
      .ok (m.thread.cursor.kind == kind && m.thread.cursor.current.column == column) m := rfl

/-- What is pending is at hand while a body is run. -/
theorem Brings.holding {x : Supplied Fault Status} {vs : List Value}
    (h : Brings g x (holder m (.values vs)) e o σ) :
    (∃ s m', o = .ok s ∧ Bare s ∧
      Settles (fun fuel n => Eval.holding vs (liftM (x fuel n) : Eval Status)) m
        (.ok (.ofPending s) m') ∧ Mirrors g σ m' ∧ Reaches g m e m') ∨
    ∃ f m', o = .error (.failed f) ∧
      Settles (fun fuel n => Eval.holding vs (liftM (x fuel n) : Eval Status)) m
        (.error (.fault (.failure f)) m') ∧ Rooted g σ m' := by
  cases h with
  | @ends _ s m' bare hx mirrors reaches =>
    exact .inl ⟨s, _, rfl, bare, hx.lift.pinning, mirrors.pinned _, reaches.release⟩
  | @failed _ f m' hx rooted =>
    exact .inr ⟨f, _, rfl, hx.lift_error.pinning_error, rooted.pinned _⟩

/-- What a clean-up does with the end of its body. -/
def cleaned (pending : Option Signal) : Status → Eval Status
  | .yielded => park (.attempt (.cleanup pending))
  | .normal => return .ofPending pending
  | status => return status

/-- A clean-up that stands here is run; it ends with what is pending, or with a signal of its own. -/
theorem carries_finally (handled : Bool) (h : Opening k [.finally] body [] p m e inner e)
    (hp : p.column = 1) (hbody : body.Simulated g) (hh : Honours g S.apply) (live : Live S m)
    (hm : Mirrors g σ m) (bare : Bare pending)
    (hrun : (do
      match ← body.exec S (k + 1) (below p [⟨k, [.finally]⟩]) with
      | none => return pending
      | some s => return some s : Course (Option Signal)) σ = some (o, σ')) :
    Carries g k (cleaning k handled pending) m e o σ' := by
  let vs := pending.toList.flatMap Signal.carried
  have header := h.header
  obtain ⟨c, hc, hs⟩ := header.bump
  have entered := h.enter hs (by simp)
  have here : (isClause .kwFinally (4 * k + 1) : Run Bool) m = .ok true m := by
    have kind : m.thread.cursor.kind = .kwFinally := header.kind
    have column : m.thread.cursor.current.column = 4 * k + 1 := by
      rw [header.current]
      exact (indented_eq hp k).2.1
    rw [isClause_run, kind, column]
    simp
  have steps (fuel n : Nat) : cleaning k handled pending fuel n m =
      finallyBody pending (bodyJob k fuel n) (m.moved inner) := by
    refine (bind_of_ok (lift_of_ok here)).trans ?_
    rw [if_pos rfl]
    exact (bind_of_ok (lift_of_ok hc)).trans (bind_of_ok (lift_of_ok entered))
  refine Carries.moves (y := fun fuel n => finallyBody pending (bodyJob k fuel n)) ?_ steps
  rw [Course.run_bind] at hrun
  cases hr : body.exec S (k + 1) (below p [⟨k, [.finally]⟩]) σ with
  | none =>
    rw [hr] at hrun
    contradiction
  | some r =>
    obtain ⟨r, σ₁⟩ := r
    rw [hr] at hrun
    have keeping : Live S (holder (m.moved inner) (.values vs)) := live.congr rfl rfl rfl
    have brings := h.brings hbody hh keeping ((hm.moved inner).holder _) rfl hr
    obtain ⟨s, m', rfl, bare', settles, hm', hr'⟩ | ⟨f, m', rfl, settles, rooted⟩ := brings.holding
    · have onward := settles.bind (k := fun status _ _ => cleaned pending status)
        (s := .ok (.ofPending (s <|> pending)) m') (.of_eq fun _ _ => by cases s <;> rfl)
      cases s with
      | none =>
        obtain ⟨rfl, rfl⟩ := Prod.mk.inj (Option.some.inj hrun)
        exact .of_pending bare onward hm' hr'
      | some s =>
        -- a signal of the clean-up takes the place of what is pending
        obtain ⟨rfl, rfl⟩ := Prod.mk.inj (Option.some.inj hrun)
        exact .of_pending bare' onward hm' hr'
    · obtain ⟨rfl, rfl⟩ := Prod.mk.inj (Option.some.inj hrun)
      exact .failed m' settles.stop rooted

/-- What is behind a handler is run as its tree, whatever is pending. -/
def Cleanup.Simulated (g : Scene) (rest : Cleanup) : Prop :=
  ∀ {S : Setting} {k : Nat} {p : Position} {m : Machine} {e : Cursor} {σ σ' : Store}
    {o : Except Halt (Option Signal)} {pending : Option Signal}, Honours g S.apply →
    Lines (rest.rows k) p m e → Borders k e → Live S m → Mirrors g σ m → Bare pending →
    rest.exec S k pending p σ = some (o, σ') → Carries g k (cleaning k true pending) m e o σ'

/-- Where a statement may end there is no clause of it. -/
theorem Borders.no_clause {kind : TokenKind} (h : Borders k e) (hs : startsLine kind = false)
    (hk : kind ≠ .eof) : (e.kind == kind && e.current.column == 4 * k + 1) = false := by
  by_contra hc
  simp only [Bool.not_eq_false, Bool.and_eq_true, beq_iff_eq] at hc
  obtain ⟨hkind, hcolumn⟩ := hc
  obtain h | ⟨-, -, -, h⟩ := h
  · exact hk (hkind.symm.trans h)
  · have starts := h hcolumn
    rw [hkind, hs] at starts
    contradiction

theorem Cleanup.simulated_none : Cleanup.none.Simulated g := by
  intro S k p m e σ σ' o pending hh hl he live hm bare hrun
  obtain rfl : m.thread.cursor = e := hl.moved_eq
  obtain ⟨rfl, rfl⟩ := Prod.mk.inj (Option.some.inj hrun)
  refine .of_pending bare (.of_eq fun fuel n => ?_) hm (.refl g m _)
  have absent : (isClause .kwFinally (4 * k + 1) : Run Bool) m = .ok false m := by
    rw [isClause_run, he.no_clause rfl (by decide)]
  refine (bind_of_ok (lift_of_ok absent)).trans ?_
  rw [if_neg (by simp)]
  rfl

theorem Cleanup.simulated_finally (hbody : body.Simulated g) : (Cleanup.finally body).Simulated g := by
  intro S k p m e σ σ' o pending hh hl he live hm bare hrun
  obtain ⟨inner, opening⟩ := Lines.opening_last hl (sealed_one rfl) he
  exact carries_finally _ opening hl.column hbody hh live hm bare hrun

theorem Cleanup.behind (rest : Cleanup) (k : Nat) : Behind k (rest.rows k) := by
  cases rest with
  | none => exact .inl rfl
  | «finally» body => exact .inr ⟨_, _, _, rfl, by decide⟩

/-! ### Handlers -/

/-- What follows the body of a `try` that ended with `pending`. -/
def handling (k : Nat) (pending : Option Signal) : Supplied Interrupt Status :=
  fun fuel _ => tryClauses (jobs fuel) (4 * k + 1) pending

def Clauses.Simulated (g : Scene) (clauses : Clauses) : Prop :=
  ∀ {S : Setting} {k : Nat} {p : Position} {m : Machine} {e : Cursor} {σ σ' : Store}
    {o : Except Halt (Option Signal)} {pending : Option Signal}, Honours g S.apply →
    Lines (clauses.rows k) p m e → Borders k e → Live S m → Mirrors g σ m → Bare pending →
    clauses.exec S k pending p σ = some (o, σ') → Carries g k (handling k pending) m e o σ'

theorem Clauses.behind (clauses : Clauses) (k : Nat) : Behind k (clauses.rows k) := by
  cases clauses with
  | handler x body rest => cases x <;> exact .inr ⟨_, _, _, rfl, by decide⟩
  | cleanup body => exact .inr ⟨_, _, _, rfl, by decide⟩

/-- What stands here is not a handler. -/
theorem Clauses.simulated_cleanup (hbody : body.Simulated g) : (Clauses.cleanup body).Simulated g := by
  intro S k p m e σ σ' o pending hh hl he live hm bare hrun
  obtain ⟨inner, opening⟩ := Lines.opening_last hl (sealed_one rfl) he
  have absent : (isClause .kwCatch (4 * k + 1) : Run Bool) m = .ok false m := by
    have kind : m.thread.cursor.kind = .kwFinally := opening.header.kind
    rw [isClause_run, kind]
    rfl
  refine (carries_finally false opening hl.column hbody hh live hm bare hrun).congr
    (.congr fun fuel n => (bind_of_ok (lift_of_ok absent)).trans ?_) id
  rw [if_neg (by simp)]
  rfl

/-- What a handler does in its body. -/
def rescuing (k : Nat) : Supplied Interrupt Status := fun fuel n =>
  handlerBody (jobs fuel) (4 * k + 1) (bodyJob k fuel n)

/-- What a handler does behind its header, where `x` is the name for the exception. -/
def caughtBy (k : Nat) (x : Option String) (pending : Option Signal) : Supplied Interrupt Status :=
  fun fuel n => do
    match pending with
    | some (.raised r) =>
      pushScope
      match x with
      | some x => define x r.value
      | none => pure ()
      rescuing k fuel n
    | other =>
      skipBody (4 * k + 1 + 4)
      cleaning k true other fuel n

/-- The header of a handler. -/
theorem handling_run {x : Option Identifier} (h : Opening k (handlerWords x) body rest p m e inner outer)
    (hp : p.column = 1) (fuel n : Nat) :
    handling k pending fuel n m = caughtBy k (x.map Identifier.text) pending fuel n (m.moved inner) := by
  have header := h.header
  -- the clause stands in the column of its statement
  have here : (isClause .kwCatch (4 * k + 1) : Run Bool) m = .ok true m := by
    obtain ⟨us, hw⟩ : ∃ us, handlerWords x ++ [.colon] = .catch :: us := by cases x <;> exact ⟨_, rfl⟩
    rw [hw] at header
    have kind : m.thread.cursor.kind = .kwCatch := header.kind
    have column : m.thread.cursor.current.column = 4 * k + 1 := by
      rw [header.current]
      exact (indented_eq hp k).2.1
    rw [isClause_run, kind, column]
    simp
  have clause : handling k pending fuel n m = handlerClause (jobs fuel) (4 * k + 1) pending m := by
    refine (bind_of_ok (lift_of_ok here)).trans ?_
    rw [if_pos rfl]
  refine clause.trans ?_
  cases x with
  | none =>
    obtain ⟨c₁, h₁, hs₁⟩ := header.bump
    have unnamed := skipOver_of_ne (t := .kwAs) (m := m.moved c₁) (by rw [hs₁.kind]; decide)
    have entered := h.enter hs₁ (by simp)
    refine (bind_of_ok (lift_of_ok h₁)).trans ((bind_of_ok (lift_of_ok unnamed)).trans ?_)
    refine (bind_of_ok (lift_of_ok entered)).trans ?_
    obtain _ | _ | _ | _ | _ := pending <;> rfl
  | some x =>
    obtain ⟨c₁, h₁, hs₁⟩ := header.bump
    obtain ⟨c₂, h₂, hs₂⟩ := hs₁.skipOver
    obtain ⟨c₃, h₃, hs₃⟩ := hs₂.advance
    have entered := h.enter hs₃ (by simp)
    have named : (some <$> (liftM (advance (Word.name x).kind : Run Token) : Eval Token))
        ((m.moved c₁).moved c₂) = .ok
          (some ((Word.name x).token (((indented p k).past [.catch]).past [.as])))
          (((m.moved c₁).moved c₂).moved c₃) := by
      rw [map_eq_pure_bind]
      exact bind_of_ok (lift_of_ok h₃)
    refine (bind_of_ok (lift_of_ok h₁)).trans ((bind_of_ok (lift_of_ok h₂)).trans ?_)
    refine (bind_of_ok named).trans ((bind_of_ok (lift_of_ok entered)).trans ?_)
    obtain _ | _ | _ | _ | _ := pending <;> rfl

/-- An exception is handled in a scope of its own. -/
theorem carries_rescuing {x : Option Identifier} {cleanup : Cleanup} {r : Raised}
    (h : Opening k ws body (cleanup.rows k) p m' e inner outer) (hbody : body.Simulated g)
    (hcleanup : cleanup.Simulated g) (hh : Honours g S.apply) (he : Borders k e) (live : Live S m)
    (hm : Mirrors g σ m) (hc : m.thread.cursor = inner) (hr : r.value.scalar = true)
    (hrun : (do
      let ended ← Course.nested do
        match x with
        | some x => modify (·.define x.text (.scalar r.value))
        | none => pure ()
        body.exec S (k + 1) (below p [⟨k, ws⟩])
      cleanup.exec S k ended (below (below p [⟨k, ws⟩]) (body.rows (k + 1))) :
        Course (Option Signal)) σ = some (o, σ')) :
    Carries g k (caughtBy k (x.map Identifier.text) (some (.raised r))) m e o σ' := by
  -- the exception is bound in the new scope, if it has a name
  have binds : ∃ σ₁ m₁, (do
      match x with
      | some x => modify (·.define x.text (.scalar r.value))
      | none => pure ()
      body.exec S (k + 1) (below p [⟨k, ws⟩]) : Course (Option Signal))
        { σ with locals := .empty :: σ.locals } = body.exec S (k + 1) (below p [⟨k, ws⟩]) σ₁ ∧
      (∀ fuel n, caughtBy k (x.map Identifier.text) (some (.raised r)) fuel n m =
        rescuing k fuel n m₁) ∧ Mirrors g σ₁ m₁ ∧ Reaches g (Tree.inner m) inner m₁ := by
    cases x with
    | none =>
      refine ⟨_, Tree.inner m, rfl, fun fuel n => bind_of_ok (pushScope_run m), hm.inner, ?_⟩
      subst hc
      exact .refl g _ _
    | some x =>
      obtain ⟨m₁, define, hm₁, hr₁⟩ :=
        hm.inner.define (b := .scalar r.value) (v := r.value) ⟨rfl, hr⟩ x.text
      refine ⟨_, m₁, rfl, fun fuel n => ?_, hm₁, ?_⟩
      · exact (bind_of_ok (pushScope_run m)).trans (bind_of_ok define)
      · rwa [show (Tree.inner m).thread.cursor = inner from hc] at hr₁
  obtain ⟨σ₁, m₁, bound, run, hm₁, hr₁⟩ := binds
  have live₁ : Live S m₁ := (live.congr rfl rfl rfl : Live S (Tree.inner m)).reaches hr₁
  have goes : Goes (caughtBy k (x.map Identifier.text) (some (.raised r))) m (rescuing k) m₁ :=
    .congr run
  rw [Course.run_bind, Course.nested, bound] at hrun
  cases hbodyrun : body.exec S (k + 1) (below p [⟨k, ws⟩]) σ₁ with
  | none =>
    rw [hbodyrun] at hrun
    contradiction
  | some ended =>
    obtain ⟨ended, σ₂⟩ := ended
    rw [hbodyrun] at hrun
    cases h.brings hbody hh live₁ hm₁ hr₁.cursor hbodyrun with
    | failed m₂ hx rooted =>
      obtain ⟨rfl, rfl⟩ := Prod.mk.inj (Option.some.inj hrun)
      exact .failed m₂ (goes _ hx.lift_error.stop) { rooted with }
    | @ends _ s m₂ bare hx hm₂ hr₂ =>
      obtain ⟨m₃, pop, hm₃, hr₃⟩ := hm.popScope hm₂ (hr₁.trans hr₂)
      have next := hcleanup hh (h.rest m₃ hr₃.cursor) he (live.reaches hr₃) hm₃ bare hrun
      refine next.congr (goes.trans ((Goes.bind hx.lift).trans (.congr fun fuel n => ?_))) hr₃.trans
      cases s <;> exact bind_of_ok pop

theorem Clauses.simulated_handler {x : Option Identifier} {cleanup : Cleanup}
    (hbody : body.Simulated g) (hcleanup : cleanup.Simulated g) :
    (Clauses.handler x body cleanup).Simulated g := by
  intro S k p m e σ σ' o pending hh hl he live hm bare hrun
  obtain ⟨inner, outer, opening⟩ := Lines.opening hl ((Clauses.handler x body cleanup).deep_rows k)
    (cleanup.behind k) he
  refine Carries.moves (b := inner) ?_ fun fuel n => handling_run opening hl.column fuel n
  have live' : Live S (m.moved inner) := live.congr rfl rfl rfl
  match pending, bare, hrun with
  | some (.raised r), bare, hrun =>
    exact carries_rescuing opening hbody hcleanup hh he live' (hm.moved inner) rfl
      (bare _ (by simp [Signal.carried])) hrun
  | none, bare, hrun | some .stop, bare, hrun | some .again, bare, hrun
  | some (.result _), bare, hrun =>
    have passed := opening.skipBody (m.moved inner) rfl
    refine Carries.moves (b := outer) ?_ fun fuel n => bind_of_ok (lift_of_ok passed)
    exact hcleanup hh (opening.rest (m.moved outer) rfl) he (live.congr rfl rfl rfl) (hm.moved outer)
      bare hrun

/-! ### The statement -/

/-- What a `try` does with the end of its body. -/
def attempted (k : Nat) (status : Status) : Supplied Interrupt Status := fun fuel n =>
  match status with
  | .yielded => park (.attempt .body)
  | .normal => handling k none fuel n
  | .leaving signal => handling k (some signal) fuel n

theorem carries_attempt {clauses : Clauses} (hbody : body.Simulated g)
    (hclauses : clauses.Simulated g) (hh : Honours g S.apply) (he : Borders k e)
    (hl : Lines ((Statement.attempt body clauses).rows k) p m e) (live : Live S m) (hm : Mirrors g σ m)
    (hrun : (Statement.attempt body clauses).exec S k p σ = some (o, σ')) :
    Carries g k stating m e o σ' := by
  obtain ⟨inner, outer, opening⟩ := Lines.opening hl ((Statement.attempt body clauses).deep_rows k)
    (clauses.behind k) he
  obtain ⟨c₁, h₁, hs₁⟩ := opening.header.bump
  have entered := opening.enter hs₁ (by simp)
  have live' : Live S (m.moved inner) := live.congr rfl rfl rfl
  refine (Carries.afterBody (y := attempted k) (opening.brings hbody hh live' (hm.moved inner) rfl) hrun
    fun s m' σ₁ bare hm' hr hrun => ?_).moves fun fuel n => ?_
  · have next := hclauses hh (opening.rest m' hr.cursor) he (live'.reaches hr) hm' bare hrun
    cases s <;> exact next
  · have kind : m.thread.cursor.current.kind = .kwTry := opening.header.kind
    have column : (Word.try.token (indented p k)).column = 4 * k + 1 := (indented_eq hl.column k).2.1
    have run : statement (jobs fuel) n m = tryStatement (jobs fuel) m := by
      simp only [statement, Bind.bind, EStateM.bind, current, mode, live.members, Bool.false_and,
        Bool.false_eq_true, if_false, kind]
    refine run.trans ((bind_of_ok (lift_of_ok h₁)).trans ?_)
    rw [column]
    exact bind_of_ok (lift_of_ok entered)

end Rewind.Tree
