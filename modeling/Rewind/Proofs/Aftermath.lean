/-
The end of a program.

A fault is the end of the program it arises in.  No `try` catches it, whatever it comes out of ends
with it, and behind the part that it arose in no other part begins.  So what a watch says where parts
end with a fault stands behind all that is printed, is about one fault, and that is the one the run
ends with.

Fault or not, behind a program nothing is under way: whatever evaluation has entered it has left.

* `Idle`, `Resting` — a machine between two programs;
* `Session.resting` — after any programs the machine of a session rests;
* `fault_is_last` — a fault is the end of the run, and the machine is idle behind it.
-/
import Rewind.Proofs.Watched
import Rewind.Proofs.Defects

namespace Rewind

/-- A machine in which nothing is under way: no call, no loop and no load. -/
structure Idle (m : Machine) : Prop where
  callDepth : m.callDepth = 0
  weaving : m.weaving = false
  modules : ∀ e ∈ m.modules, e.2 ≠ .null
  distinct : (m.modules.map (·.1)).Nodup

/-- A machine between two programs: what is under way in none is no method either, and the blueprints
that there are have been made one behind the other. -/
structure Resting (m : Machine) : Prop extends Idle m where
  owner : m.thread.mode.owner = none
  lineage : m.world.Lineage

namespace Resting

variable {m m' : Machine}

theorem kept (h : Resting m) (hk : Kept m m m') : Resting m' := by
  refine ⟨⟨hk.callDepth.trans h.callDepth, hk.weaving.trans h.weaving, fun e he => ?_,
    hk.distinct h.distinct⟩, (hk.owner rfl).trans h.owner, hk.lineage h.lineage⟩
  obtain ⟨added, ha, hn⟩ := hk.modules
  rw [ha] at he
  obtain he | he := List.mem_append.1 he
  · exact hn e he
  · exact h.modules e he

/-- Evaluation may begin in a resting machine, where the directory is that of the program. -/
theorem grounds (h : Resting m) {there : List (String × Value)} (ht : ∀ e ∈ there, e ∈ m.modules) :
    Grounds ⟨m.directory, there, m, false⟩ m := by
  have home : homeDirectory m.directory (m.modules ++ []) = m.directory :=
    homeDirectory_append m.directory h.modules
  rw [List.append_nil] at home
  exact ⟨h.distinct, home.symm, ht, h.lineage, h.callDepth ▸ Nat.zero_le _, List.suffix_rfl,
    fun _ => rfl, nofun⟩

/-- A program keeps what evaluation keeps. -/
theorem kept_runSource (h : Resting m) (text : String) (fuel : Nat) :
    Kept m m (m.runSource text fuel).2 := by
  have agree : Watch.Agree {} {} ⟨m.directory, [], m, false⟩ := fun _ _ _ => rfl
  have run := (Machine.runWatched_agree (fun _ _ => rfl) agree (h.grounds nofun) h.owner text fuel).1
  rwa [Machine.runWatched_silent] at run

end Resting

theorem Session.resting {env : Environment} {m : Machine} (h : Session env m) : Resting m := by
  induction h with
  | new => exact ⟨⟨rfl, rfl, nofun, .nil⟩, rfl, World.lineage_empty⟩
  | text text fuel _ ih => exact ih.kept (ih.kept_runSource text fuel)
  | @file m path fuel _ ih =>
    unfold Machine.runFile
    split
    · exact ih
    · rename_i text _
      have here : Resting { m with directory := Path.parent? path } :=
        ⟨⟨ih.callDepth, ih.weaving, ih.modules, ih.distinct⟩, ih.owner, ih.lineage⟩
      exact here.kept (here.kept_runSource text fuel)

/-- A fault is the end of the program.  Under any watch the run is the one that would be made if
nothing were said at faults, but for the texts about one fault behind everything else; and that is
the fault the run ends with.  However a program ends, behind it nothing is under way, and the
directory is the one it was. -/
theorem fault_is_last {env : Environment} {m : Machine} (hm : Session env m) (text : String)
    (fuel : Nat) :
    (∀ w : Watch, m.runWatched w text fuel = m.runWatched w.beginnings text fuel ∨
      ∃ f qs, (m.runWatched w.beginnings text fuel).1 = .error f ∧
        m.runWatched w text fuel =
          (.error f, (m.runWatched w.beginnings text fuel).2.printing (w.afterFault f qs))) ∧
    m.runWatched {} text fuel = m.runSource text fuel ∧
    Idle (m.runSource text fuel).2 ∧
    (m.runSource text fuel).2.directory = m.directory := by
  have resting := hm.resting
  have kept := resting.kept_runSource text fuel
  refine ⟨fun w => ?_, m.runWatched_silent text fuel, (resting.kept kept).toIdle, kept.directory⟩
  have agree : w.beginnings.Agree w ⟨m.directory, [], m, false⟩ := fun _ _ _ => rfl
  exact (Machine.runWatched_agree (fun _ _ => rfl) agree (resting.grounds nofun) resting.owner text
    fuel).2

/-- A watch that marks where statements begin and where they end with a fault. -/
def marking : Watch where
  begins q _ := if q = .statement then "." else ""
  fails q _ := if q = .statement then "!" else ""

/-- A program with a fault inside a `try`. -/
def breaksInTry : String :=
  "try:\n    show(1)\n    break\n    show(2)\n" ++
  "catch as e:\n    show(3)\nfinally:\n    show(4)\nshow(5)\n"

theorem fault_is_last_of_breaksInTry : Session {} (Machine.new {}) ∧
    ∃ f qs, ((Machine.new {}).runWatched marking.beginnings breaksInTry 12).1 = .error f ∧
      (Machine.new {}).runWatched marking breaksInTry 12 =
        (.error f, ((Machine.new {}).runWatched marking.beginnings breaksInTry 12).2.printing
          (marking.afterFault f qs)) := by
  refine ⟨.new, ((fault_is_last .new breaksInTry 12).1 marking).resolve_left fun h => ?_⟩
  have marked : account ((Machine.new {}).runWatched marking breaksInTry 12) =
      ("..1\n.!!", some "'break' outside of a loop") := by decide +kernel
  have plain : account ((Machine.new {}).runWatched marking.beginnings breaksInTry 12) =
      ("..1\n.", some "'break' outside of a loop") := by decide +kernel
  rw [h, plain] at marked
  exact absurd marked (by decide)

end Rewind
