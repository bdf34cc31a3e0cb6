/-
Computations that have enough fuel.

Every piece of the evaluator is given fuel twice: for the jobs it hands on, and for its own rounds.  A
computation settles from a machine if, with enough of both, it comes to one result, however much more
there is.  How much is enough is found step by step along a computation, and is never computed.

* `Supplied`, `Settles` — computations over their fuel, and what they come to;
* `Goes` — one computation goes on as another one does, from a later machine;
* `Settles.bind`, `Settles.step`, `Settles.stop` — the parts of a sequence;
* `Settles.expression`, `Settles.body` — jobs, each from the piece of the evaluator it runs;
* `Settles.pinning`, `Settles.skipping` — what stands around a computation.
-/
import Rewind.Proofs.Precedence

namespace Rewind.Tree

open Eval

/-- A computation over the fuel of its jobs and of its rounds. -/
abbrev Supplied (ε α : Type) := (fuel rounds : Nat) → EStateM ε Machine α

variable {ε α β : Type}

/-- With enough fuel of both kinds the computation comes to this result. -/
def Settles (x : Supplied ε α) (m : Machine) (r : EStateM.Result ε Machine α) : Prop :=
  ∃ enough, ∀ fuel n, enough ≤ fuel → enough ≤ n → x fuel n m = r

/-- Begun in `m` the first computation comes to what the second one comes to from `m'`. -/
def Goes (x : Supplied ε α) (m : Machine) (y : Supplied ε α) (m' : Machine) : Prop :=
  ∀ r, Settles y m' r → Settles x m r

variable {x y : Supplied ε α} {k : α → Supplied ε β} {m m' m₁ : Machine} {a : α} {e : ε}
  {r : EStateM.Result ε Machine α} {s : EStateM.Result ε Machine β}

namespace Settles

theorem of_eq (h : ∀ fuel n, x fuel n m = r) : Settles x m r := ⟨0, fun fuel n _ _ => h fuel n⟩

/-- A computation that begins as another one does. -/
theorem congr (h : Settles y m' r) (hx : ∀ fuel n, x fuel n m = y fuel n m') : Settles x m r := by
  obtain ⟨enough, h⟩ := h
  exact ⟨enough, fun fuel n hf hn => (hx fuel n).trans (h fuel n hf hn)⟩

/-- Fuel for one more round. -/
theorem round (h : Settles y m' r) (hx : ∀ fuel n, x fuel (n + 1) m = y fuel n m') :
    Settles x m r := by
  obtain ⟨enough, h⟩ := h
  refine ⟨enough + 1, fun fuel n hf hn => ?_⟩
  obtain ⟨n, rfl⟩ : ∃ k, n = k + 1 := ⟨n - 1, by omega⟩
  exact (hx fuel n).trans (h fuel n (by omega) (by omega))

/-- A job has the fuel of the piece of the evaluator it runs, for both. -/
theorem job (h : Settles y m' r) (hx : ∀ fuel n, x (fuel + 1) n m = y fuel fuel m') :
    Settles x m r := by
  obtain ⟨enough, h⟩ := h
  refine ⟨enough + 1, fun fuel n hf hn => ?_⟩
  obtain ⟨fuel, rfl⟩ : ∃ k, fuel = k + 1 := ⟨fuel - 1, by omega⟩
  exact (hx fuel n).trans (h fuel fuel (by omega) (by omega))

/-! ### Sequences -/

theorem bind (hx : Settles x m (.ok a m₁)) (hk : Settles (k a) m₁ s) :
    Settles (fun fuel n => x fuel n >>= fun a => k a fuel n) m s := by
  obtain ⟨first, hx⟩ := hx
  obtain ⟨second, hk⟩ := hk
  exact ⟨max first second, fun fuel n hf hn =>
    (bind_of_ok (hx fuel n (by omega) (by omega))).trans (hk fuel n (by omega) (by omega))⟩

/-- What ends with an error ends what it is the beginning of. -/
theorem stop (hx : Settles x m (.error e m₁)) :
    Settles (fun fuel n => x fuel n >>= fun a => k a fuel n) m (.error e m₁) := by
  obtain ⟨enough, hx⟩ := hx
  refine ⟨enough, fun fuel n hf hn => ?_⟩
  show EStateM.bind _ _ m = _
  simp only [EStateM.bind, hx fuel n hf hn]

/-- A first part that needs no fuel. -/
theorem step {z : EStateM ε Machine α} (hz : z m = .ok a m₁) (hk : Settles (k a) m₁ s) :
    Settles (fun fuel n => z >>= fun a => k a fuel n) m s :=
  bind (of_eq fun _ _ => hz) hk

theorem stop_of_eq {z : EStateM ε Machine α} (hz : z m = .error e m₁) :
    Settles (fun fuel n => z >>= fun a => k a fuel n) m (.error e m₁) :=
  stop (of_eq fun _ _ => hz)

end Settles

namespace Goes

theorem refl (x : Supplied ε α) (m : Machine) : Goes x m x m := fun _ h => h

theorem trans {z : Supplied ε α} {m'' : Machine} (h : Goes x m y m') (h' : Goes y m' z m'') :
    Goes x m z m'' :=
  fun r hr => h r (h' r hr)

theorem congr (h : ∀ fuel n, x fuel n m = y fuel n m') : Goes x m y m' := fun _ hr => hr.congr h

theorem round (h : ∀ fuel n, x fuel (n + 1) m = y fuel n m') : Goes x m y m' := fun _ hr =>
  hr.round h

/-- What comes to a value goes on as that value does. -/
theorem of_settles (h : Settles x m (.ok a m')) : Goes x m (fun _ _ => pure a) m' := by
  rintro r ⟨enough, hr⟩
  rw [← hr enough enough (Nat.le_refl _) (Nat.le_refl _)]
  exact h

/-- A first part with its value goes on as what follows it does. -/
theorem bind (hx : Settles x m (.ok a m₁)) :
    Goes (fun fuel n => x fuel n >>= fun a => k a fuel n) m (k a) m₁ :=
  fun _ hk => hx.bind hk

end Goes

/-! ### Runs inside of expressions -/

section Lift

variable {x : Supplied Fault α} {f : Fault}

theorem Settles.lift (h : Settles x m (.ok a m₁)) :
    Settles (fun fuel n => (liftM (x fuel n) : Eval α)) m (.ok a m₁) := by
  obtain ⟨enough, h⟩ := h
  exact ⟨enough, fun fuel n hf hn => lift_of_ok (h fuel n hf hn)⟩

theorem Settles.lift_error (h : Settles x m (.error f m₁)) :
    Settles (fun fuel n => (liftM (x fuel n) : Eval α)) m (.error (.fault f) m₁) := by
  obtain ⟨enough, h⟩ := h
  refine ⟨enough, fun fuel n hf hn => ?_⟩
  show (liftM (x fuel n) : Eval α) m = _
  rw [Quiet.run_lift, h fuel n hf hn]

end Lift

/-! ### Jobs -/

section Jobs

variable {r : EStateM.Result Interrupt Machine Held}

theorem Settles.expression (h : Settles (fun fuel n => conditional (jobs fuel) n) m r) :
    Settles (fun fuel _ => (jobs fuel).expression) m r :=
  h.job fun _ _ => rfl

theorem Settles.body {column : Nat} {r : EStateM.Result Fault Machine Status}
    (hm : m.thread.resume = []) (h : Settles (fun fuel n => statements (jobs fuel) column n) m r) :
    Settles (fun fuel _ => (jobs fuel).body column) m r := by
  refine h.job fun fuel _ => ?_
  show runBody (jobs fuel) fuel column m = _
  refine (bind_of_ok (get_run m)).trans ?_
  rw [hm]

end Jobs

/-! ### Around a computation -/

section Around

variable {x : Supplied Interrupt α} {e : Interrupt} {p : Pin}

theorem Settles.pinning (h : Settles x { m with pinned := p :: m.pinned } (.ok a m₁)) :
    Settles (fun fuel n => Eval.pinning p (x fuel n)) m (.ok a { m₁ with pinned := m.pinned }) := by
  obtain ⟨enough, h⟩ := h
  refine ⟨enough, fun fuel n hf hn => ?_⟩
  simp only [Eval.pinning, h fuel n hf hn]

theorem Settles.pinning_error (h : Settles x { m with pinned := p :: m.pinned } (.error e m₁)) :
    Settles (fun fuel n => Eval.pinning p (x fuel n)) m
      (.error e { m₁ with pinned := m.pinned }) := by
  obtain ⟨enough, h⟩ := h
  refine ⟨enough, fun fuel n hf hn => ?_⟩
  simp only [Eval.pinning, h fuel n hf hn]

/-- What is skipped has no effect but the move of the cursor. -/
theorem Settles.skipping {c : Cursor} (h : Settles x m.skipping (.ok a (m.skipping.moved c))) :
    Settles (fun fuel n => Eval.skipping (x fuel n)) m (.ok a (m.moved c)) := by
  obtain ⟨enough, h⟩ := h
  exact ⟨enough, fun fuel n hf hn => skipping_of_ok (h fuel n hf hn)⟩

end Around

end Rewind.Tree
