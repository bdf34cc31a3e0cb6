/-
Loops over a collection.

When its header has been read, a loop over a collection takes down the items the collection has, the
characters of a string or the keys of a dictionary.  Round after round it binds the next of them, to
a copy that is made when the round begins.  So the list of the items does not change while the loop
goes on, however often its body suspends; but an item that is a container is still the one in the
collection, and what a body, or another coroutine, puts into it shows in the copy of a later round.

* `eachHeader` — the header of the loop, up to its first round;
* `Mark`, `notedRounds`, `notedReenter` — the rounds, with a note wherever an item is bound and
  wherever the body comes to an end or suspends;
* `EachStage`, `Iterates` — the states of a loop and its steps;
* `items_bound_in_turn` — item after item is bound to a copy, and each once.
-/
import Rewind.Proofs.Copying
import Rewind.Proofs.Extent
import Rewind.Proofs.Notes

namespace Rewind

open Eval

/-! ### Rounds with notes -/

/-- A note of a loop over a collection: its variable has been bound, or the run of its body has come
to a status. -/
inductive Mark where
  | bound (v : Value) (m : Machine)
  | ended (status : Status)

/-- The value bound, and the machine then. -/
def Mark.binding? : Mark → Option (Value × Machine)
  | bound v m => some (v, m)
  | ended _ => none

namespace Eval

/-- One round, as `eachRound` makes it. -/
def notedRound (column : Nat) (l : EachLoop) (again : EachLoop → Noted Mark Status)
    (body : Run Status) : Noted Mark Status := do
  let status ← (liftM (liftM body : Eval Status) : Noted Mark Status)
  Noted.note fun _ => .ended status
  match status with
  | .normal | .leaving .again => again { l with next := l.next + 1 }
  | .yielded => (park (.eachLoop l) : Eval Status)
  | .leaving .stop => (do leaveLoop column l.body; return .normal : Eval Status)
  | status => (do leaveLoop column l.body; return status : Eval Status)

/-- The rounds, as `eachRounds` makes them. -/
def notedRounds (j : Jobs) (column : Nat) : Nat → EachLoop → Noted Mark Status
  | 0, _ => (liftM (exhausted : Run Status) : Eval Status)
  | n + 1, l =>
    match l.items[l.next]? with
    | none => (do leaveLoop column l.body; return .normal : Eval Status)
    | some item => do
      let v ← (onHeap (Heap.duplicate item) : Eval Value)
      (define l.var v : Eval Unit)
      Noted.note fun m => .bound v m
      (liftM (rewind l.body) : Eval Unit)
      notedRound column l (notedRounds j column n) (j.body (column + 4))

/-- A loop over a collection, whose items are at hand until it is over. -/
def notedOver (l : EachLoop) (x : Noted Mark Status) : Noted Mark Status :=
  Noted.within (fun m => Machine.deeper { m with pinned := .values l.items.toList :: m.pinned })
    (fun m m' => { inLoop.leave m' with pinned := m.pinned }) x

/-- A construct that is taken up again, as `reenter` does it. -/
def notedReenter (column : Nat) (j : Jobs) (n : Nat) : FrameKind → Noted Mark Status
  | .eachLoop l => notedOver l (notedRound column l (notedRounds j column n) (j.body (column + 4)))
  | kind => (reenter j n column (j.body (column + 4)) kind : Eval Status)

theorem result_notedRound (column : Nat) (l : EachLoop) (again : EachLoop → Noted Mark Status)
    (body : Run Status) : (notedRound column l again body).result =
      eachRound column l (fun l => (again l).result) body := by
  simp only [notedRound, eachRound, Noted.result_bind, Noted.result_lift, Noted.result_note,
    pure_bind]
  refine congrArg _ (funext fun status => ?_)
  cases status with
  | normal | yielded => rfl
  | leaving signal => cases signal <;> rfl

theorem result_notedRounds (j : Jobs) (column n : Nat) (l : EachLoop) :
    (notedRounds j column n l).result = eachRounds j column n l := by
  induction n generalizing l with
  | zero => rfl
  | succ n ih =>
    simp only [notedRounds, eachRounds]
    cases l.items[l.next]? with
    | none => rfl
    | some item =>
      simp only [Noted.result_bind, Noted.result_lift, Noted.result_note, pure_bind,
        result_notedRound, ih]

theorem result_notedOver (l : EachLoop) (x : Noted Mark Status) :
    (notedOver l x).result = overItems l x.result := by
  funext m
  let inside : Machine := Machine.deeper { m with pinned := .values l.items.toList :: m.pinned }
  have enter : (do
      modifyMode fun mode => { mode with loopDepth := mode.loopDepth + 1 }
      x.result : Eval Status) { m with pinned := .values l.items.toList :: m.pinned } =
      (x inside).1 := rfl
  simp only [Noted.result, notedOver, Noted.within, overItems, holding, pinning, inLoop, enter]
  rcases x inside with ⟨⟨a, m'⟩ | ⟨e, m'⟩, notes⟩ <;> rfl

theorem result_notedReenter (column : Nat) (j : Jobs) (n : Nat) (kind : FrameKind) :
    (notedReenter column j n kind).result = reenter j n column (j.body (column + 4)) kind := by
  cases kind with
  | eachLoop l =>
    rw [notedReenter, result_notedOver, result_notedRound]
    simp only [result_notedRounds]
    rfl
  | _ => rfl

end Eval

/-! ### Item after item -/

/-- The variable has just been bound to a copy of the item. -/
structure Binds (var : String) (item v : Value) (m : Machine) : Prop where
  copied : ∃ heap : Heap, Heap.duplicate item heap = (v, m.world.heap)
  bound : ∃ scopes : Scopes, m.world.scopes = scopes.define m.thread.scope var v

/-- The copy holds the same as the item, as the item is by now. -/
theorem Binds.mirrors {var : String} {item v : Value} {m : Machine} (h : Binds var item v m) :
    m.world.heap.Mirrors item v := by
  obtain ⟨heap, hd⟩ := h.copied
  have := Heap.mirrors_duplicate item heap
  rwa [hd] at this

/-- Where a loop over a collection is: before the round for the item with an index, inside of it, or
behind the last round, which a signal has left. -/
inductive EachStage where
  | before (k : Nat)
  | inside (k : Nat)
  | left (k : Nat) (signal : Signal)

/-- The number of rounds that have begun. -/
def EachStage.begun : EachStage → Nat
  | before k => k
  | inside k => k + 1
  | left k _ => k + 1

/-- The steps of a loop over a collection. -/
inductive Iterates (l : EachLoop) : EachStage → Mark → EachStage → Prop where
  | bind {k : Nat} {item v : Value} {m : Machine} : l.items[k]? = some item →
    Binds l.var item v m → Iterates l (.before k) (.bound v m) (.inside k)
  | wait (k : Nat) : Iterates l (.inside k) (.ended .yielded) (.inside k)
  | next (k : Nat) : Iterates l (.inside k) (.ended .normal) (.before (k + 1))
  | again (k : Nat) : Iterates l (.inside k) (.ended (.leaving .again)) (.before (k + 1))
  | leave (k : Nat) {signal : Signal} : signal ≠ .again →
    Iterates l (.inside k) (.ended (.leaving signal)) (.left k signal)

namespace EachLoop

/-- A loop that yields asks to go on in the round it is in. -/
def Asks (l : EachLoop) (s : EachStage) (kind : FrameKind) : Prop :=
  ∃ k, s = .inside k ∧ kind = .eachLoop { l with next := k }

/-- How a loop ends: when there is no further item, or with the signal that has left it. -/
def Over (l : EachLoop) (status : Status) : EachStage → Prop
  | .before k => l.items[k]? = none ∧ status = .normal
  | .inside _ => False
  | .left _ .stop => status = .normal
  | .left _ signal => status = .leaving signal

end EachLoop

namespace Eval

theorem leaveLoop_result (column : Nat) (p : Position) (m : Machine) :
    (∃ m', leaveLoop column p m = .ok () m') ∨
      ∃ f m', leaveLoop column p m = .error (.fault f) m' := by
  obtain ⟨m₁, hpop⟩ : ∃ m₁, (popScope : Eval Unit) m = .ok () m₁ := by
    rw [popScope_run]
    split
    · exact ⟨_, rfl⟩
    · exact ⟨_, rfl⟩
  have rest : leaveLoop column p m =
      (liftM (do rewind p; skipBody (column + 4) : Run Unit) : Eval Unit) m₁ := by
    refine (bind_of_ok hpop).trans ?_
    simp only [Quiet.run_lift, bind, EStateM.bind]
    cases rewind p m₁ <;> rfl
  rw [rest, Quiet.run_lift]
  cases (do rewind p; skipBody (column + 4) : Run Unit) m₁ with
  | ok u m' => exact .inl ⟨m', rfl⟩
  | error f m' => exact .inr ⟨f, m', rfl⟩

section Tells

variable {l : EachLoop} {column k : Nat}

/-- Behind the last round nothing is noted. -/
theorem tells_leaveLoop {s : EachStage} {status : Status} (p : Position) (m : Machine)
    (hs : l.Over status s) (hy : status ≠ .yielded) :
    Tells (Iterates l) s (Leaves l.Asks l.Over)
      (liftM (do leaveLoop column p; return status : Eval Status) : Noted Mark Status) m := by
  obtain ⟨m', h⟩ | ⟨f, m', h⟩ := leaveLoop_result column p m
  · refine .plain_ok (bind_of_ok h) ?_
    cases status with
    | yielded => exact absurd rfl hy
    | normal | leaving => exact hs
  · refine ⟨s, .nil s, ?_⟩
    have : (do leaveLoop column p; return status : Eval Status) m = .error (.fault f) m' := by
      simp only [bind, EStateM.bind, h]
    rw [Noted.result_lift, this]
    exact ⟨f, rfl⟩

theorem tells_round {again : EachLoop → Noted Mark Status} {body : Run Status} (m : Machine)
    (goesOn : ∀ m, Tells (Iterates l) (.before (k + 1)) (Leaves l.Asks l.Over)
      (again { l with next := k + 1 }) m) :
    Tells (Iterates l) (.inside k) (Leaves l.Asks l.Over)
      (notedRound column { l with next := k } again body) m := by
  refine .bind (Q := fun _ _ s => s = .inside k) (.run fun _ _ _ => rfl) ?_
  rintro status m₁ _ rfl
  cases status with
  | normal =>
    refine .bind (Q := fun _ _ s => s = .before (k + 1)) (.note (.next k) rfl) ?_
    rintro _ m₂ _ rfl
    exact goesOn m₂
  | yielded =>
    refine .bind (Q := fun _ _ s => s = .inside k) (.note (.wait k) rfl) ?_
    rintro _ m₂ _ rfl
    exact .plain_ok rfl ⟨_, ⟨k, rfl, rfl⟩, rfl⟩
  | leaving signal =>
    -- only `continue` goes on with the next item; every other signal is noted as the one that the
    -- loop is left by
    cases signal with
    | again =>
      refine .bind (Q := fun _ _ s => s = .before (k + 1)) (.note (.again k) rfl) ?_
      rintro _ m₂ _ rfl
      exact goesOn m₂
    | stop =>
      refine .bind (Q := fun _ _ s => s = .left k .stop) (.note (.leave k nofun) rfl) ?_
      rintro _ m₂ _ rfl
      exact tells_leaveLoop _ m₂ rfl nofun
    | result v =>
      refine .bind (Q := fun _ _ s => s = .left k (.result v)) (.note (.leave k nofun) rfl) ?_
      rintro _ m₂ _ rfl
      exact tells_leaveLoop _ m₂ rfl nofun
    | raised r =>
      refine .bind (Q := fun _ _ s => s = .left k (.raised r)) (.note (.leave k nofun) rfl) ?_
      rintro _ m₂ _ rfl
      exact tells_leaveLoop _ m₂ rfl nofun

theorem tells_rounds (j : Jobs) (n : Nat) (m : Machine) :
    Tells (Iterates l) (.before k) (Leaves l.Asks l.Over)
      (notedRounds j column n { l with next := k }) m := by
  induction n generalizing k m with
  | zero =>
    rw [notedRounds]
    exact .run fun _ _ h => by cases h
  | succ n ih =>
    rw [notedRounds]
    cases hi : l.items[k]? with
    | none => exact tells_leaveLoop _ m ⟨hi, rfl⟩ nofun
    | some item =>
      refine .bind (Q := fun v m' s => s = .before k ∧
        Heap.duplicate item m.world.heap = (v, m'.world.heap)) (.plain_ok rfl ⟨rfl, rfl⟩) ?_
      rintro v m₁ _ ⟨rfl, hv⟩
      refine .bind (Q := fun _ m' s => s = .before k ∧ Binds l.var item v m')
        (.plain_ok rfl ⟨rfl, ⟨m.world.heap, hv⟩, ⟨m₁.world.scopes, rfl⟩⟩) ?_
      rintro _ m₂ _ ⟨rfl, hb⟩
      refine .bind (Q := fun _ _ s => s = .inside k) (.note (.bind hi hb) rfl) ?_
      rintro _ m₃ _ rfl
      refine .bind (Q := fun _ _ s => s = .inside k) (.run fun _ _ _ => rfl) ?_
      rintro _ m₄ _ rfl
      exact tells_round m₄ fun m => ih m

theorem tells_over {s : EachStage} {x : Noted Mark Status} (l' : EachLoop) (m : Machine)
    (h : ∀ m, Tells (Iterates l) s (Leaves l.Asks l.Over) x m) :
    Tells (Iterates l) s (Leaves l.Asks l.Over) (notedOver l' x) m := by
  refine .within ((h _).mono fun status m' s' hs => ?_)
  cases status <;> exact hs

theorem tells_reenter (j : Jobs) (n : Nat) (m : Machine) {s : EachStage} {kind : FrameKind}
    (h : l.Asks s kind) :
    Tells (Iterates l) s (Leaves l.Asks l.Over) (notedReenter column j n kind) m := by
  obtain ⟨k, rfl, rfl⟩ := h
  exact tells_over _ m fun m => tells_round m fun m => tells_rounds j n m

end Tells

/-! ### The header -/

/-- The header of a loop over a collection: the collection, and the loop with the items that the
collection has by then. -/
def eachHeader (j : Jobs) : Eval (Value × EachLoop) := do
  let keyword ← bump
  let _ ← advance .colon
  let _ ← advance .kwFor
  let var ← advance .ident
  let _ ← advance .kwIn
  let site ← current
  let collection ← j.expression
  enterBlock keyword.column
  let items ← orComplain site (← ask fun w => iterable w.heap collection.value)
  return (collection.value, { var := var.text, items, next := 0, body := ← capture })

/-- A token that is passed as one of its kind is passed in any case. -/
theorem bump_of_advance {k : TokenKind} {m m' : Machine} {t : Token}
    (h : (liftM (advance k) : Eval Token) m = .ok t m') :
    (liftM bump : Eval Token) m = .ok t m' := by
  have hk := kind_of_advance h
  rw [Quiet.run_lift] at h ⊢
  simp only [advance, bump, bind, EStateM.bind, current, move, Cursor.advance, if_pos hk] at h ⊢
  exact h

/-- Behind its header the loop takes down what it goes through, and runs its rounds. -/
theorem statement_of_header {j : Jobs} (n : Nat) {m m₀ : Machine} {v : Value} {l : EachLoop}
    (hk : m.thread.cursor.kind = .kwLoop) (hb : m.thread.mode.inBlueprint = false)
    (h : eachHeader j m = .ok (v, l) m₀) :
    iterable m₀.world.heap v = .ok l.items ∧ l.next = 0 ∧ statement j n m =
      (do pushScope; overItems l (eachRounds j m.thread.cursor.current.column n l) : Eval Status) m₀ := by
  have loops : statement j n m = loopStatement j n m := by
    have hk' : m.thread.cursor.current.kind = .kwLoop := hk
    simp only [statement, bind, EStateM.bind, current, mode, hb, hk', Bool.false_and,
      Bool.false_eq_true, if_false]
  obtain ⟨keyword, m₁, h₁, h⟩ := ok_of_bind h
  obtain ⟨colon, m₂, h₂, h⟩ := ok_of_bind h
  obtain ⟨for', m₃, h₃, h⟩ := ok_of_bind h
  obtain ⟨var, m₄, h₄, h⟩ := ok_of_bind h
  obtain ⟨in', m₅, h₅, h⟩ := ok_of_bind h
  obtain ⟨site, m₆, h₆, h⟩ := ok_of_bind h
  obtain ⟨collection, m₇, h₇, h⟩ := ok_of_bind h
  obtain ⟨_, m₈, h₈, h⟩ := ok_of_bind h
  obtain ⟨found, m₉, h₉, h⟩ := ok_of_bind h
  obtain ⟨items, m₁₀, h₁₀, h⟩ := ok_of_bind h
  obtain ⟨body, m₁₁, h₁₁, h⟩ := ok_of_bind h
  obtain ⟨rfl, rfl⟩ := EStateM.Result.ok.inj h₉
  obtain ⟨hi, rfl⟩ : iterable m₈.world.heap collection.value = .ok items ∧ m₈ = m₁₀ := by
    cases hf : iterable m₈.world.heap collection.value with
    | ok found =>
      simp only [hf] at h₁₀
      obtain ⟨rfl, rfl⟩ := EStateM.Result.ok.inj h₁₀
      exact ⟨rfl, rfl⟩
    | error complaint =>
      simp only [hf] at h₁₀
      cases h₁₀
  obtain ⟨rfl, rfl⟩ := EStateM.Result.ok.inj h₁₁
  obtain ⟨he, rfl⟩ := EStateM.Result.ok.inj h
  obtain ⟨rfl, rfl⟩ := Prod.mk.inj he
  refine ⟨hi, rfl, loops.trans ?_⟩
  have kind {x y : Machine} {k : TokenKind} {t : Token}
      (h : (liftM (advance k) : Eval Token) x = .ok t y) : (kind : Eval TokenKind) x = .ok k x := by
    rw [← kind_of_advance h]
    rfl
  rw [← token_of_bump h₁]
  -- the statement up to its two forms of loop, the loop, and the rest of the header
  refine (bind_of_ok h₁).trans ((bind_of_ok h₂).trans ((bind_of_ok (kind h₃)).trans ?_))
  refine (bind_of_ok h₃).trans ((bind_of_ok h₄).trans ((bind_of_ok (kind h₅)).trans ?_))
  refine (bind_of_ok (bump_of_advance h₅)).trans ((bind_of_ok h₆).trans ((bind_of_ok h₇).trans ?_))
  refine (bind_of_ok h₈).trans ((bind_of_ok rfl).trans ((bind_of_ok h₁₀).trans (bind_of_ok rfl)))

/-- The loop from its first round on. -/
def notedEach (j : Jobs) (column n : Nat) (l : EachLoop) : Noted Mark Status := do
  (pushScope : Eval Unit)
  notedOver l (notedRounds j column n l)

theorem result_notedEach (j : Jobs) (column n : Nat) (l : EachLoop) :
    (notedEach j column n l).result =
      (do pushScope; overItems l (eachRounds j column n l) : Eval Status) := by
  simp only [notedEach, Noted.result_bind, Noted.result_lift, result_notedOver,
    result_notedRounds]

end Eval

/-! ### What is bound -/

/-- The values bound, one after another, each with the machine then. -/
def bindings (notes : List Mark) : List (Value × Machine) := notes.filterMap Mark.binding?

section Trail

variable {l : EachLoop} {s s' : EachStage} {notes : List Mark}

/-- The next item is bound in the next round. -/
theorem bindings_of_trail (h : Trail (Iterates l) s notes s') :
    s'.begun = s.begun + (bindings notes).length ∧
      ∀ (k : Nat) v at', (bindings notes)[k]? = some (v, at') →
        ∃ item, l.items[s.begun + k]? = some item ∧ Binds l.var item v at' := by
  induction h with
  | nil s => exact ⟨rfl, fun _ _ _ h => by simp [bindings] at h⟩
  | @cons s₀ s₁ s₂ mark notes step _ ih =>
    obtain ⟨count, each⟩ := ih
    -- the only note of a binding is that of the item whose round begins
    cases step with
    | @bind k item v m hi hb =>
      refine ⟨?_, fun i w at' hw => ?_⟩
      · show s₂.begun = k + ((bindings notes).length + 1)
        rw [count]
        show k + 1 + _ = _
        omega
      · cases i with
        | zero =>
          obtain ⟨rfl, rfl⟩ := Prod.mk.inj (Option.some.inj hw)
          exact ⟨item, hi, hb⟩
        | succ i =>
          obtain ⟨item', hi', hb'⟩ := each i w at' hw
          refine ⟨item', ?_, hb'⟩
          rw [← hi']
          show l.items[k + (i + 1)]? = l.items[k + 1 + i]?
          rw [show k + (i + 1) = k + 1 + i by omega]
    | wait | next | again | leave => exact ⟨count, each⟩

/-- Only a signal of the body leaves the loop before its items are through. -/
theorem left_of_trail {k : Nat} {signal : Signal} (h : Trail (Iterates l) s notes (.left k signal))
    (hs : ∀ k signal, s ≠ .left k signal) :
    .ended (.leaving signal) ∈ notes ∧ signal ≠ .again := by
  generalize hl : EachStage.left k signal = s' at h
  induction h with
  | nil s => exact absurd hl.symm (hs k signal)
  | @cons s₀ s₁ s₂ mark notes step rest ih =>
    cases step with
    | leave k' hn =>
      cases rest with
      | nil =>
        obtain ⟨-, rfl⟩ := EachStage.left.inj hl
        exact ⟨List.mem_cons_self, hn⟩
      | cons step => nomatch step
    | bind | wait | next | again =>
      obtain ⟨mem, hn⟩ := ih nofun hl
      exact ⟨List.mem_cons_of_mem _ mem, hn⟩

end Trail

/-- A loop over a collection, however many turns it takes.  The items are what the collection had when
its header had been read, and the rounds bind them one after another, each to a copy of the item as
it is then; and if no signal leaves the loop before, every item is bound. -/
theorem items_bound_in_turn {fuel n : Nat} {m m₀ : Machine} {collection : Value} {l : EachLoop}
    {legs : List Leg} {r : EStateM.Result Fault Machine Status}
    (loop : m.thread.cursor.kind = .kwLoop) (outside : m.thread.mode.inBlueprint = false)
    (header : eachHeader (jobs fuel) m = .ok (collection, l) m₀)
    (turns : Turns m.thread.cursor.capture
      (conclude m.thread.cursor.capture (statement (jobs fuel) n) m) legs r) :
    let column := m.thread.cursor.current.column
    let notes := (notedEach (jobs fuel) column n l).notes m₀ ++
      legs.flatMap (Leg.notes (notedReenter column))
    iterable m₀.world.heap collection = .ok l.items ∧
      (∀ (k : Nat) v at', (bindings notes)[k]? = some (v, at') →
        ∃ item, l.items[k]? = some item ∧ Binds l.var item v at' ∧
          at'.world.heap.Mirrors item v) ∧
      (∀ status m', r = .ok status m' → status ≠ .yielded →
        (∀ signal, .ended (.leaving signal) ∈ notes → signal = .again) →
        (bindings notes).length = l.items.size) := by
  intro column notes
  obtain ⟨items, first, run⟩ := statement_of_header n loop outside header
  have start : ({ l with next := 0 } : EachLoop) = l := by rw [← first]
  -- the first turn, from the first round on
  have begun : Tells (Iterates l) (.before 0) (Leaves l.Asks l.Over)
      (notedEach (jobs fuel) column n l) m₀ := by
    refine .bind (Q := fun _ _ s => s = .before 0) (.plain_ok rfl rfl) ?_
    rintro _ m₁ _ rfl
    refine tells_over l m₁ fun m => ?_
    have rounds : Tells (Iterates l) (.before 0) (Leaves l.Asks l.Over)
        (notedRounds (jobs fuel) column n { l with next := 0 }) m := tells_rounds _ n m
    rwa [start] at rounds
  obtain ⟨s₁, trail₁, ends⟩ := begun.concludes (p := m.thread.cursor.capture)
  rw [result_notedEach, ← conclude_congr run] at ends
  obtain ⟨s, trail₂, last⟩ := turns.trail (notedReenter column)
    (fun j n kind => result_notedReenter column j n kind)
    (fun fuel n m s kind asks => tells_reenter (jobs fuel) n m asks) ends
  have trail : Trail (Iterates l) (.before 0) notes s := trail₁.append trail₂
  obtain ⟨count, each⟩ := bindings_of_trail trail
  refine ⟨items, fun k v at' h => ?_, fun status m' hr hy signals => ?_⟩
  · obtain ⟨item, hi, hb⟩ := each k v at' h
    rw [EachStage.begun, Nat.zero_add] at hi
    exact ⟨item, hi, hb, hb.mirrors⟩
  · subst hr
    have done : l.Over status s := by
      cases status with
      | yielded => exact absurd rfl hy
      | normal | leaving => exact last
    cases s with
    | before k =>
      have size : l.items.size ≤ k := Array.getElem?_eq_none_iff.1 done.1
      have hk : k = (bindings notes).length := by simpa [EachStage.begun] using count
      have bound : (bindings notes).length ≤ l.items.size := by
        refine Nat.le_of_not_lt fun hlt => ?_
        obtain ⟨⟨v, at'⟩, hv⟩ : ∃ e, (bindings notes)[l.items.size]? = some e :=
          ⟨_, List.getElem?_eq_getElem hlt⟩
        obtain ⟨item, hi, -⟩ := each _ _ _ hv
        simp [EachStage.begun] at hi
      omega
    | inside k => exact absurd done id
    | left k signal =>
      obtain ⟨mem, hn⟩ := left_of_trail trail nofun
      exact absurd (signals signal mem) hn

/-- A loop over two arrays in an array. -/
def pairLoop : Machine := onText "loop: for x in [[1], [2]]:\n    show(x)\n"

/-- Both arrays are bound, each to a copy of its own. -/
theorem items_bound_in_pairLoop :
    pairLoop.thread.cursor.kind = .kwLoop ∧ pairLoop.thread.mode.inBlueprint = false ∧
    ∃ collection l m₀, eachHeader (jobs 9) pairLoop = .ok (collection, l) m₀ ∧
      l.items.size = 2 ∧ iterable m₀.world.heap collection = .ok l.items ∧
      ∀ (k : Nat) v at', (bindings ((notedEach (jobs 9) 1 9 l).notes m₀))[k]? = some (v, at') →
        ∃ item, l.items[k]? = some item ∧ Binds l.var item v at' ∧
          at'.world.heap.Mirrors item v := by
  obtain ⟨loop, outside, column⟩ : pairLoop.thread.cursor.kind = .kwLoop ∧
      pairLoop.thread.mode.inBlueprint = false ∧
      pairLoop.thread.cursor.current.column = 1 := by decide +kernel
  have size : (match eachHeader (jobs 9) pairLoop with
    | .ok (_, l) _ => some l.items.size
    | .error _ _ => none) = some 2 := by decide +kernel
  cases header : eachHeader (jobs 9) pairLoop with
  | error e m => simp only [header, reduceCtorEq] at size
  | ok found m₀ =>
    obtain ⟨collection, l⟩ := found
    obtain ⟨items, each, -⟩ := items_bound_in_turn (n := 9) loop outside header (.last _)
    simp only [header, Option.some.injEq] at size
    refine ⟨loop, outside, collection, l, m₀, rfl, size, items, ?_⟩
    simpa only [column, List.flatMap_nil, List.append_nil] using each

/-- The second array is still the one in the collection when its round begins: what the first round
has put into it is in the copy. -/
theorem item_changed_before_its_turn :
    account ((Machine.new {}).runSource ("let: a = [[1], [2]]\nloop: for x in a:\n" ++
      "    let: a[1][0] = 9\n    show(x)\n") 12) = ("[1]\n[9]\n", none) := by
  decide +kernel

end Rewind
