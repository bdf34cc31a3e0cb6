/-
Every statement and every body is run as its tree.

* `Statement.carried` — statements; `Block.simulated` — bodies;
* `Branches.simulated`, `Clauses.simulated`, `Cleanup.simulated` — the parts of statements that have
  bodies of their own.

All of this is for a way of calling functions that is honoured by the machine.
-/
import Rewind.Proofs.Rescuing

namespace Rewind.Tree

open Eval

variable {g : Scene} {S : Setting} {σ σ' : Store} {m m' : Machine} {b c d e : Cursor}
  {p q : Position} {k : Nat} {o : Except Halt (Option Signal)}

/-- A statement is run as its tree, wherever it is printed. -/
def Statement.Carried (g : Scene) (s : Statement) : Prop :=
  ∀ {S : Setting} {k : Nat} {p : Position} {m : Machine} {e : Cursor} {σ σ' : Store}
    {o : Except Halt (Option Signal)}, Honours g S.apply → Lines (s.rows k) p m e → Borders k e →
    Live S m → Mirrors g σ m → s.exec S k p σ = some (o, σ') → Carries g k stating m e o σ'

/-- `break` and `continue` are statements of one word. -/
theorem stating_loopSignal {w : Word} (signal : Signal) (live : Live S m)
    (hl : Lines [⟨k, [w]⟩] p m e)
    (hw : w.kind = .kwBreak ∧ signal = .stop ∨ w.kind = .kwContinue ∧ signal = .again)
    (fuel n : Nat) : stating fuel n m = Eval.loopSignal signal m := by
  have kind : m.thread.cursor.current.kind = w.kind := hl.onLine.kind
  obtain ⟨hw, rfl⟩ | ⟨hw, rfl⟩ := hw <;>
    simp only [stating, statement, Bind.bind, EStateM.bind, current, mode, live.members,
      Bool.false_and, Bool.false_eq_true, if_false, kind, hw]

/-- A body begins with its first statement. -/
theorem Block.simulated_one {s : Statement} (hs : s.Carried g) : (Block.one s).Simulated g := by
  intro S k p m e σ σ' o hh hl he live hm hrun
  obtain ⟨w, ws, rows, hrows, hw⟩ := s.rows_eq k
  have line : OnLine p k w m.thread.cursor := by
    have := hl
    rw [Block.rows, hrows] at this
    exact this.onLine
  have hk : w.kind ≠ .colon := fun h => by
    rw [h] at hw
    contradiction
  have hrun' : (Course.caught (s.exec S k p) >>= pure) σ = some (o, σ') := by rwa [bind_pure]
  refine Brings.step line hk live hm (fun h => hs hh hl he.borders live hm h) rfl he hrun'
    (fun _ => rfl) fun m₁ σ₁ hm₁ hr hrun => ?_
  obtain ⟨rfl, rfl⟩ := Prod.mk.inj (Option.some.inj hrun)
  have stops := running_stops (m := m₁) (k := k) (by rw [hr.cursor]; exact he)
  refine .ends m₁ bare_none stops hm₁ ?_
  rw [← hr.cursor]
  exact .refl g m₁ _

theorem Block.simulated_cons {s : Statement} {rest : Block} (hs : s.Carried g)
    (hrest : rest.Simulated g) : (Block.cons s rest).Simulated g := by
  intro S k p m e σ σ' o hh hl he live hm hrun
  obtain ⟨b, hfirst, hbehind⟩ := Lines.split (s.rows k) hl
  obtain ⟨w, ws, rows, hrows, hw⟩ := s.rows_eq k
  have line : OnLine p k w m.thread.cursor := by
    have := hfirst
    rw [hrows] at this
    exact this.onLine
  have hk : w.kind ≠ .colon := fun h => by
    rw [h] at hw
    contradiction
  have borders : Borders k b := by
    obtain ⟨v, vs, rows', hrows', hv⟩ := rest.rows_eq k
    have next := hbehind (m.moved b) rfl
    rw [hrows'] at next
    exact next.onLine.borders (by simp [hrows]) hfirst.crosses hv
  refine Brings.step line hk live hm (fun h => hs hh hfirst borders live hm h)
    ((hbehind (m.moved b) rfl).slides (rest.deep_rows k)) he hrun (fun _ => rfl)
    fun m₁ σ₁ hm₁ hr hrun => ?_
  exact hrest hh (hbehind m₁ hr.cursor) he (live.reaches hr) hm₁ hrun

mutual

theorem Statement.carried (s : Statement) : s.Carried g := by
  intro S k p m e σ σ' o hh hl he live hm hrun
  cases s with
  | assign x t => exact carries_assign live hm hh hl hrun
  | call f args => exact carries_call live hm hh hl hrun
  | skip => exact carries_skip live hm hl hrun
  | stop =>
    exact carries_loopSignal live hm (w := .break) .stop nofun hl
      (Statement.stop.deep_rows k) (stating_loopSignal .stop live hl (.inl ⟨rfl, rfl⟩)) hrun
  | again =>
    exact carries_loopSignal live hm (w := .continue) .again nofun hl
      (Statement.again.deep_rows k) (stating_loopSignal .again live hl (.inr ⟨rfl, rfl⟩)) hrun
  | raise t => exact carries_raise live hm hh hl hrun
  | result t =>
    cases t with
    | none => exact carries_result_none live hm he hl hrun
    | some t => exact carries_result_some live hm hh hl hrun
  | branch c body rest =>
    exact carries_branch body.simulated rest.simulated hh he hl live hm hrun
  | whileLoop c body => exact carries_while body.simulated hh he hl live hm hrun
  | rangeLoop x first last step body => exact carries_range body.simulated hh he hl live hm hrun
  | attempt body clauses =>
    exact carries_attempt body.simulated clauses.simulated hh he hl live hm hrun

theorem Branches.simulated (rest : Branches) : rest.Simulated g := by
  cases rest with
  | done => exact Branches.simulated_done
  | elif c body rest => exact Branches.simulated_elif body.simulated rest.simulated
  | otherwise body => exact Branches.simulated_otherwise body.simulated

theorem Clauses.simulated (clauses : Clauses) : clauses.Simulated g := by
  cases clauses with
  | handler x body rest => exact Clauses.simulated_handler body.simulated rest.simulated
  | cleanup body => exact Clauses.simulated_cleanup body.simulated

theorem Cleanup.simulated (rest : Cleanup) : rest.Simulated g := by
  cases rest with
  | none => exact Cleanup.simulated_none
  | «finally» body => exact Cleanup.simulated_finally body.simulated

theorem Block.simulated (body : Block) : body.Simulated g := by
  cases body with
  | one s => exact Block.simulated_one s.carried
  | cons s rest => exact Block.simulated_cons s.carried rest.simulated

end

end Rewind.Tree
