/-
Loops over integers.

A loop from `a` to `b` with a step keeps its number apart from the variable that it binds.  Round
after round it compares that number with `b`, binds the variable, runs its body and adds the step; and
if the sum is no integer of 64 bits it is over.  The sum then has passed `b` in any case, since `b` is
such an integer.  So the loop goes through the numbers `a`, `a + s`, `a + 2 s`, … up to `b`, added as
if there were no bounds, whatever its body does to the variable.

* `numbers` — the numbers from `a` to `b` in steps of `s`; `mem_numbers` — which they are;
* `RangeLoop.continues_at`, `RangeLoop.advance?_at` — the loop at its `k`th number;
* `rangeHeader` — the header of the loop, up to its first round;
* `RangeMark`, `notedRange`, `notedRangeAgain` — the rounds, with a note wherever a number is bound and
  wherever the body ends, suspends or fails;
* `RangeStage`, `RangeStep` — the states of a loop and its steps;
* `numbers_in_turn` — number after number is bound, each for one run of the body, and then the loop is
  over.
-/
import Rewind.Proofs.Items

namespace Rewind

open Eval

/-! ### Numbers -/

/-- How many numbers there are from `a` to `b` in steps of `s`. -/
def numberCount (a b s : Int) : Nat :=
  if 0 < s then ((b - a) / s + 1).toNat else ((a - b) / (-s) + 1).toNat

/-- The number `x` has not passed the end `b`. -/
def UpTo (b s x : Int) : Prop := if 0 < s then x ≤ b else b ≤ x

instance (b s x : Int) : Decidable (UpTo b s x) := by unfold UpTo; infer_instance

/-- The numbers from `a` to `b` in steps of `s`, in the order of a loop. -/
def numbers (a b s : Int) : List Int :=
  (List.range (numberCount a b s)).map fun k : Nat => a + (k : Int) * s

section Numbers

variable {a b s : Int}

theorem upTo_iff (hs : s ≠ 0) (k : Nat) :
    UpTo b s (a + (k : Int) * s) ↔ k < numberCount a b s := by
  unfold UpTo numberCount
  split
  · have := Int.le_ediv_iff_mul_le (a := k) (b := b - a) ‹0 < s›
    constructor <;> intro h
    · have : (k : Int) ≤ (b - a) / s := this.2 (by omega)
      omega
    · have : (k : Int) * s ≤ b - a := this.1 (by omega)
      omega
  · have := Int.le_ediv_iff_mul_le (a := k) (b := a - b) (c := -s) (by omega)
    rw [Int.mul_neg] at this
    constructor <;> intro h
    · have : (k : Int) ≤ (a - b) / (-s) := this.2 (by omega)
      omega
    · have : -((k : Int) * s) ≤ a - b := this.1 (by omega)
      omega

@[simp] theorem length_numbers (a b s : Int) : (numbers a b s).length = numberCount a b s := by
  simp [numbers]

theorem getElem?_numbers {k : Nat} (hk : k < numberCount a b s) :
    (numbers a b s)[k]? = some (a + k * s) := by
  simp [numbers, hk]

/-- The numbers are those that can be reached from `a` in steps of `s` and have not passed `b`. -/
theorem mem_numbers (hs : s ≠ 0) {x : Int} :
    x ∈ numbers a b s ↔ (∃ k : Nat, x = a + k * s) ∧ UpTo b s x := by
  simp only [numbers, List.mem_map, List.mem_range]
  constructor
  · rintro ⟨k, hk, rfl⟩
    exact ⟨⟨k, rfl⟩, (upTo_iff hs k).2 hk⟩
  · rintro ⟨⟨k, rfl⟩, hx⟩
    exact ⟨k, (upTo_iff hs k).1 hx, rfl⟩

end Numbers

namespace RangeLoop

/-- The loop at its `k`th number. -/
def atNumber (l : RangeLoop) (a s : Int) (k : Nat) : RangeLoop :=
  { l with current := .int (a + k * s) }

/-- The loop goes from `a` to `b` in steps of `s`, which are all integers; `a` and `b` have 64 bits. -/
structure Spans (l : RangeLoop) (a b s : Int) : Prop where
  first : l.current = .int a
  last : l.last = .int b
  step : l.step = .int s
  low : minInt ≤ a ∧ minInt ≤ b
  high : a ≤ maxInt ∧ b ≤ maxInt
  nonzero : s ≠ 0

variable {l : RangeLoop} {a b s : Int}

theorem atNumber_zero (h : l.Spans a b s) : l.atNumber a s 0 = l := by
  have : a + ((0 : Nat) : Int) * s = a := by simp
  rw [atNumber, this, ← h.first]

theorem continues_at (h : l.Spans a b s) (k : Nat) :
    (l.atNumber a s k).continues = decide (k < numberCount a b s) := by
  have : (l.atNumber a s k).continues = decide (UpTo b s (a + k * s)) := by
    simp only [continues, atNumber, h.last, h.step, UpTo]
    split <;> rfl
  rw [this]
  exact decide_eq_decide.2 (upTo_iff h.nonzero k)

/-- The next number, if it has 64 bits; and if it has not, there is none left. -/
theorem advance?_at (h : l.Spans a b s) {k : Nat} (hk : k < numberCount a b s) :
    (l.atNumber a s k).advance? = some (l.atNumber a s (k + 1)) ∨
      (l.atNumber a s k).advance? = none ∧ k + 1 = numberCount a b s := by
  have next : a + k * s + s = a + ((k + 1 : Nat) : Int) * s := by
    rw [Int.natCast_add, Int.add_mul]
    omega
  have run : (l.atNumber a s k).advance? =
      if minInt ≤ a + ((k + 1 : Nat) : Int) * s ∧ a + ((k + 1 : Nat) : Int) * s ≤ maxInt
        then some (l.atNumber a s (k + 1)) else none := by
    simp only [advance?, atNumber, h.step, next]
  rw [run]
  split
  · exact .inl rfl
  · rename_i outside
    refine .inr ⟨rfl, ?_⟩
    -- a sum that is out of bounds has passed the end
    have passed : ¬ UpTo b s (a + ((k + 1 : Nat) : Int) * s) := by
      have reached := (upTo_iff h.nonzero k).2 hk
      have beyond : 0 ≤ (k : Int) * (if 0 < s then s else -s) :=
        Int.mul_nonneg (by omega) (by split <;> omega)
      have := h.low
      have := h.high
      unfold UpTo at reached ⊢
      rw [← next] at outside ⊢
      split at reached
      · rw [if_pos ‹_›] at beyond ⊢
        omega
      · rw [if_neg ‹_›] at beyond ⊢
        rw [Int.mul_neg] at beyond
        omega
    rw [upTo_iff h.nonzero] at passed
    omega

end RangeLoop

/-! ### Rounds with notes -/

/-- A note of a loop over integers: its variable has been bound, or the run of its body has come to a
status or to a fault. -/
inductive RangeMark where
  | bound (v : Value) (m : Machine)
  | ended (status : Status)
  | failed (f : Fault)

namespace Eval

/-- A run of the body. -/
def notedRun (body : Run Status) : Noted RangeMark Status := fun m =>
  match body m with
  | .ok status m' => (.ok status m', [.ended status])
  | .error f m' => (.error (.fault f) m', [.failed f])

/-- One round, as `rangeRound` makes it. -/
def notedRangeRound (column : Nat) (l : RangeLoop) (again : RangeLoop → Noted RangeMark Status)
    (body : Run Status) : Noted RangeMark Status := do
  match ← notedRun body with
  | .normal | .leaving .again =>
    match l.advance? with
    | some l => again l
    | none => (do leaveLoop column l.body; return .normal : Eval Status)
  | .yielded => (park (.rangeLoop l) : Eval Status)
  | .leaving .stop => (do leaveLoop column l.body; return .normal : Eval Status)
  | status => (do leaveLoop column l.body; return status : Eval Status)

/-- The rounds, as `rangeRounds` makes them. -/
def notedRangeRounds (j : Jobs) (column : Nat) : Nat → RangeLoop → Noted RangeMark Status
  | 0, _ => (liftM (exhausted : Run Status) : Eval Status)
  | n + 1, l =>
    if l.continues then do
      (define l.var l.current : Eval Unit)
      Noted.note fun m => .bound l.current m
      (liftM (rewind l.body) : Eval Unit)
      notedRangeRound column l (notedRangeRounds j column n) (j.body (column + 4))
    else (do leaveLoop column l.body; return .normal : Eval Status)

/-- What runs inside one more loop. -/
def notedInLoop {ν α : Type} (x : Noted ν α) : Noted ν α :=
  Noted.within Machine.deeper (fun _ => inLoop.leave) x

/-- The loop from its first round on. -/
def notedRange (j : Jobs) (column n : Nat) (l : RangeLoop) : Noted RangeMark Status := do
  (pushScope : Eval Unit)
  notedInLoop (notedRangeRounds j column n l)

/-- A construct that is taken up again, as `reenter` does it. -/
def notedRangeAgain (column : Nat) (j : Jobs) (n : Nat) : FrameKind → Noted RangeMark Status
  | .rangeLoop l =>
    notedInLoop (notedRangeRound column l (notedRangeRounds j column n) (j.body (column + 4)))
  | kind => (reenter j n column (j.body (column + 4)) kind : Eval Status)

section Result

variable (j : Jobs) (column n : Nat) (l : RangeLoop) (body : Run Status)

theorem result_notedRun : (notedRun body).result = (liftM body : Eval Status) := by
  funext m
  rw [Quiet.run_lift]
  unfold Noted.result notedRun
  cases body m <;> rfl

theorem result_notedRangeRound (again : RangeLoop → Noted RangeMark Status) :
    (notedRangeRound column l again body).result =
      rangeRound column l (fun l => (again l).result) body := by
  simp only [notedRangeRound, rangeRound, Noted.result_bind, result_notedRun]
  refine congrArg _ (funext fun status => ?_)
  cases status with
  | normal => cases l.advance? <;> rfl
  | yielded => rfl
  | leaving signal =>
    cases signal with
    | again => cases l.advance? <;> rfl
    | stop | result | raised => rfl

theorem result_notedRangeRounds : (notedRangeRounds j column n l).result =
    rangeRounds j column n l := by
  induction n generalizing l with
  | zero => rfl
  | succ n ih =>
    simp only [notedRangeRounds, rangeRounds]
    cases l.continues with
    | false => rfl
    | true =>
      simp only [if_true, Bool.not_true, Bool.false_eq_true, if_false, Noted.result_bind,
        Noted.result_lift, Noted.result_note, pure_bind, result_notedRangeRound, ih]

theorem result_notedInLoop {ν α : Type} (x : Noted ν α) :
    (notedInLoop x).result = inLoop x.result := by
  funext m
  have enter : (do
      modifyMode fun mode => { mode with loopDepth := mode.loopDepth + 1 }
      x.result : Eval α) m = (x m.deeper).1 := rfl
  simp only [Noted.result, notedInLoop, Noted.within, inLoop, enter]
  rcases x m.deeper with ⟨⟨a, m'⟩ | ⟨e, m'⟩, notes⟩ <;> rfl

theorem result_notedRange : (notedRange j column n l).result =
    (do pushScope; inLoop (rangeRounds j column n l) : Eval Status) := by
  simp only [notedRange, Noted.result_bind, Noted.result_lift, result_notedInLoop,
    result_notedRangeRounds]

theorem result_notedRangeAgain (kind : FrameKind) :
    (notedRangeAgain column j n kind).result = reenter j n column (j.body (column + 4)) kind := by
  cases kind with
  | rangeLoop l =>
    rw [notedRangeAgain, result_notedInLoop, result_notedRangeRound]
    simp only [result_notedRangeRounds]
    rfl
  | _ => rfl

end Result

end Eval

/-! ### Number after number -/

/-- A machine that may run statements of a source, with frames there that can be resumed. -/
structure Underway (source : Source) (m : Machine) : Prop where
  ready : ∃ c, Ready c m
  frames : Resumable m
  source : m.thread.cursor.source = source

namespace Underway

variable {source : Source} {m m' : Machine} {α : Type} {A : Source → Prop}

theorem passes (h : Underway source m) {c : Control} (hc : Ready c m) (hp : Passes c m m') :
    Underway source m' :=
  ⟨⟨c, hc.passes hp⟩, h.frames.passed hp.1, hp.1.source.trans h.source⟩

/-- A part of a statement that comes to its end keeps the machine so. -/
theorem passing (h : Underway source m) {x : Eval α} {a : α} (hx : Passing A x) (hA : A source)
    (hr : x m = .ok a m') : Underway source m' := by
  obtain ⟨c, hc⟩ := h.ready
  have := hx c m hc (h.source ▸ hA)
  rw [hr] at this
  exact h.passes hc this

/-- So does a body, unless it yields. -/
theorem orderly (h : Underway source m) {x : Run Status} {status : Status} (hx : Orderly false A x)
    (hA : A source) (hr : x m = .ok status m') (hs : status ≠ .yielded) : Underway source m' := by
  obtain ⟨c, hc⟩ := h.ready
  have := hx c m hc h.frames (h.source ▸ hA)
  rw [hr] at this
  cases status with
  | yielded => exact absurd rfl hs
  | normal | leaving => exact h.passes hc this

theorem deeper (h : Underway source m) : Underway source m.deeper := by
  obtain ⟨c, hc⟩ := h.ready
  exact ⟨⟨c, hc.sound, hc.world, hc.acts, hc.weaving, hc.driven, hc.async⟩, h.frames, h.source⟩

/-- A construct that is taken up again has taken its frame. -/
theorem taken (h : Underway source m) {frame : Frame} {inner : List Frame}
    (hr : m.thread.resume = frame :: inner) :
    Underway source { m with thread := { m.thread with resume := inner } } := by
  obtain ⟨c, hc⟩ := h.ready
  refine ⟨⟨c, hc.sound, hc.world, hc.acts, hc.weaving, hc.driven, hc.async⟩, ?_, h.source⟩
  have suffix : inner <:+ m.thread.resume := hr ▸ List.suffix_cons frame inner
  obtain hn | chain := h.frames
  · rw [hr] at hn
    cases hn
  · exact chain.suffix suffix

end Underway

/-- Where skipping the body that begins at a position ends. -/
def Source.behindBody (source : Source) (body : Position) (column : Nat) : Except Failure Cursor := do
  (← Cursor.at? source body).skipBody column 0

/-- Where a loop over integers is: before the round for the `k`th number, inside of it, or at its end,
as a signal has left the body or a fault has stopped it. -/
inductive RangeStage where
  | before (k : Nat)
  | inside (k : Nat)
  | left (k : Nat) (signal : Signal)
  | failed (k : Nat) (f : Fault)

/-- The variable has just been bound to a value. -/
def BoundTo (var : String) (v : Value) (m : Machine) : Prop :=
  ∃ scopes : Scopes, m.world.scopes = scopes.define m.thread.scope var v

/-- The steps of a loop over the numbers `ns`. -/
inductive RangeStep (var : String) (ns : List Int) : RangeStage → RangeMark → RangeStage → Prop where
  | bind {k : Nat} {x : Int} {m : Machine} : ns[k]? = some x → BoundTo var (.int x) m →
    RangeStep var ns (.before k) (.bound (.int x) m) (.inside k)
  | wait (k : Nat) : RangeStep var ns (.inside k) (.ended .yielded) (.inside k)
  | next (k : Nat) : RangeStep var ns (.inside k) (.ended .normal) (.before (k + 1))
  | again (k : Nat) : RangeStep var ns (.inside k) (.ended (.leaving .again)) (.before (k + 1))
  | leave (k : Nat) {signal : Signal} : signal ≠ .again →
    RangeStep var ns (.inside k) (.ended (.leaving signal)) (.left k signal)
  | fail (k : Nat) (f : Fault) : RangeStep var ns (.inside k) (.failed f) (.failed k f)

namespace RangeLoop

/-- A loop that yields asks to go on in the round it is in. -/
def Asks (l : RangeLoop) (a b s : Int) (stage : RangeStage) (kind : FrameKind) : Prop :=
  ∃ k, stage = .inside k ∧ k < numberCount a b s ∧ kind = .rangeLoop (l.atNumber a s k)

/-- How a loop ends: when there is no further number, or with the signal that has left it. -/
def Over (count : Nat) (status : Status) : RangeStage → Prop
  | .before k => k = count ∧ status = .normal
  | .left _ .stop => status = .normal
  | .left _ signal => status = .leaving signal
  | _ => False

/-- What fault may end it: one of its body, or one of the text behind its body. -/
def Fails (count : Nat) (behind : Except Failure Cursor) (f : Fault) : RangeStage → Prop
  | .before k => k = count ∧ ∃ failure, f = .failure failure ∧ behind = .error failure
  | .left _ _ => ∃ failure, f = .failure failure ∧ behind = .error failure
  | .failed _ f' => f = f'
  | .inside _ => False

/-- The notes of the loop at `column` of `source` are a trail from a state on, and it ends as a loop
from `a` to `b` in steps of `s` does. -/
abbrev Runs (l : RangeLoop) (a b s : Int) (source : Source) (column : Nat) (stage : RangeStage)
    (x : Noted RangeMark Status) (m : Machine) : Prop :=
  Traces (RangeStep l.var (numbers a b s)) stage (Leaves (l.Asks a b s) (Over (numberCount a b s)))
    (Fails (numberCount a b s) (source.behindBody l.body (column + 4))) x m

end RangeLoop

namespace Eval

/-- Back to a place in the source. -/
theorem rewind_run {source : Source} {p : Position} (hp : source.Marks p) {m : Machine}
    (hs : m.thread.cursor.source = source) :
    ∃ c, Cursor.at? source p = .ok c ∧ (liftM (rewind p) : Eval Unit) m = .ok () (m.moved c) := by
  obtain ⟨t, rest, ht, rfl⟩ := hp
  refine ⟨_, Cursor.at?_eq ht, ?_⟩
  rw [Quiet.run_lift, rewind]
  simp only [move, Cursor.rewind_eq (hs.symm ▸ ht), hs]
  rfl

section Traces

variable {l : RangeLoop} {a b s : Int} (hl : l.Spans a b s) {column k : Nat} {source : Source}
  (hp : source.Marks l.body)

include hp

variable (column) in
/-- Nothing keeps a loop from being left but what the text behind its body is. -/
theorem leaveLoop_run {m : Machine} (hu : Underway source m) :
    (∃ m', leaveLoop column l.body m = .ok () m') ∨ ∃ failure m',
      leaveLoop column l.body m = .error (.fault (.failure failure)) m' ∧
        source.behindBody l.body (column + 4) = .error failure := by
  obtain ⟨m₁, hpop, hs⟩ : ∃ m₁, (popScope : Eval Unit) m = .ok () m₁ ∧
      m₁.thread.cursor.source = source := by
    rw [popScope_run]
    split
    · exact ⟨_, rfl, hu.source⟩
    · exact ⟨_, rfl, hu.source⟩
  obtain ⟨c, hc, back⟩ := rewind_run hp hs
  have run : leaveLoop column l.body m =
      (liftM (move (·.skipBody (column + 4) 0)) : Eval Unit) (m₁.moved c) :=
    (bind_of_ok hpop).trans (bind_of_ok back)
  have behind : source.behindBody l.body (column + 4) = c.skipBody (column + 4) 0 := by
    simp only [Source.behindBody, hc]
    rfl
  rw [run, behind, Quiet.run_lift]
  simp only [move, Machine.moved]
  cases c.skipBody (column + 4) 0 with
  | ok c => exact .inl ⟨_, rfl⟩
  | error failure => exact .inr ⟨failure, _, rfl, rfl⟩

/-- Behind the last round nothing is noted. -/
theorem traces_leaveLoop {stage : RangeStage} {status : Status} {m : Machine}
    (hu : Underway source m) (hs : RangeLoop.Over (numberCount a b s) status stage)
    (hy : status ≠ .yielded) (hf : ∀ failure, source.behindBody l.body (column + 4) = .error failure →
      RangeLoop.Fails (numberCount a b s) (source.behindBody l.body (column + 4))
        (.failure failure) stage) :
    l.Runs a b s source column stage
      (liftM (do leaveLoop column l.body; return status : Eval Status)) m := by
  obtain ⟨m', h⟩ | ⟨failure, m', h, hb⟩ := leaveLoop_run column hp hu
  · refine .plain_ok (bind_of_ok h) ?_
    cases status with
    | yielded => exact absurd rfl hy
    | normal | leaving => exact hs
  · have failed : (do leaveLoop column l.body; return status : Eval Status) m =
        .error (.fault (.failure failure)) m' := by
      simp only [bind, EStateM.bind, h]
    exact .plain_fault failed (hf failure hb)

include hl

theorem traces_rangeRound {again : RangeLoop → Noted RangeMark Status} {body : Run Status}
    (works : Orderly false (· = source) body) {m : Machine} (hu : Underway source m)
    (hk : k < numberCount a b s)
    (goesOn : ∀ m, Underway source m →
      l.Runs a b s source column (.before (k + 1)) (again (l.atNumber a s (k + 1))) m) :
    l.Runs a b s source column (.inside k)
      (notedRangeRound column (l.atNumber a s k) again body) m := by
  -- a round that has come to its end is followed by the next one
  have advanced {m : Machine} (hu : Underway source m) :
      l.Runs a b s source column (.before (k + 1))
        (match (l.atNumber a s k).advance? with
          | some l => again l
          | none => liftM (do leaveLoop column l.body; return .normal : Eval Status)) m := by
    obtain next | ⟨none, last⟩ := RangeLoop.advance?_at hl hk
    · rw [next]
      exact goesOn m hu
    · rw [none]
      exact traces_leaveLoop hp hu ⟨last, rfl⟩ (by simp) fun failure hf => ⟨last, failure, rfl, hf⟩
  cases hb : body m with
  | error f m' =>
    refine .bind (Q := fun _ _ _ => False)
      ⟨.failed k f, ?_, ?_⟩ fun _ _ _ h => h.elim
    · rw [Noted.notes, notedRun, hb]
      exact .cons (.fail k f) (.nil _)
    · rw [Noted.result, notedRun, hb]
      exact ⟨f, rfl, rfl⟩
  | ok status m' =>
    -- however the body ends, its round is noted with what that leads to
    have ran {stage : RangeStage}
        (step : RangeStep l.var (numbers a b s) (.inside k) (.ended status) stage) :
        Traces (RangeStep l.var (numbers a b s)) (.inside k)
          (fun status' m₁ stage' => status' = status ∧ m₁ = m' ∧ stage' = stage)
          (RangeLoop.Fails (numberCount a b s) (source.behindBody l.body (column + 4)))
          (notedRun body) m := by
      refine ⟨stage, ?_, ?_⟩
      · rw [Noted.notes, notedRun, hb]
        exact .cons step (.nil _)
      · rw [Noted.result, notedRun, hb]
        exact ⟨rfl, rfl, rfl⟩
    have on (hs : status ≠ .yielded) : Underway source m' := hu.orderly works rfl hb hs
    cases status with
    | normal =>
      refine .bind (ran (.next k)) ?_
      rintro _ _ _ ⟨rfl, rfl, rfl⟩
      exact advanced (on (by simp))
    | yielded =>
      refine .bind (ran (.wait k)) ?_
      rintro _ _ _ ⟨rfl, rfl, rfl⟩
      exact .plain_ok rfl ⟨_, ⟨k, rfl, hk, rfl⟩, rfl⟩
    | leaving signal =>
      -- whatever signal leaves the loop, the cursor ends up behind the body
      have left {status : Status}
          (ends : RangeLoop.Over (numberCount a b s) status (.left k signal))
          (hy : status ≠ .yielded) : l.Runs a b s source column (.left k signal)
            (liftM (do leaveLoop column l.body; return status : Eval Status)) m' :=
        traces_leaveLoop hp (on (by simp)) ends hy fun failure hf => ⟨failure, rfl, hf⟩
      cases signal with
      | again =>
        refine .bind (ran (.again k)) ?_
        rintro _ _ _ ⟨rfl, rfl, rfl⟩
        exact advanced (on (by simp))
      | stop =>
        refine .bind (ran (.leave k (by simp))) ?_
        rintro _ _ _ ⟨rfl, rfl, rfl⟩
        exact left rfl (by simp)
      | result v =>
        refine .bind (ran (.leave k (by simp))) ?_
        rintro _ _ _ ⟨rfl, rfl, rfl⟩
        exact left rfl (by simp)
      | raised r =>
        refine .bind (ran (.leave k (by simp))) ?_
        rintro _ _ _ ⟨rfl, rfl, rfl⟩
        exact left rfl (by simp)

/-- The rounds from the one for the `k`th number on, if there may be as many as there are numbers. -/
theorem traces_rangeRounds (fuel n : Nat) {m : Machine} (hu : Underway source m)
    (hk : k ≤ numberCount a b s) (hn : numberCount a b s < k + n) :
    l.Runs a b s source column (.before k)
      (notedRangeRounds (jobs fuel) column n (l.atNumber a s k)) m := by
  -- by induction on the rounds that are left, of which there are enough
  induction n generalizing k m with
  | zero => omega
  | succ n ih =>
    rw [notedRangeRounds, RangeLoop.continues_at hl]
    by_cases more : k < numberCount a b s
    · rw [if_pos (decide_eq_true more)]
      -- the variable is bound, the cursor goes back to the body, and the round is run
      let m₁ : Machine := { m with
        world := m.world.onScopes (·.define m.thread.scope l.var (.int (a + k * s))) }
      have run : (define l.var (.int (a + k * s)) : Eval Unit) m = .ok () m₁ := rfl
      have hu₁ : Underway source m₁ :=
        hu.passing (A := (· = source)) (quiet_define _ _).passing rfl run
      refine .bind (Q := fun _ m' stage => m' = m₁ ∧ stage = .before k) (.plain_ok run ⟨rfl, rfl⟩) ?_
      rintro _ _ _ ⟨rfl, rfl⟩
      refine .bind (Q := fun _ m' stage => m' = m₁ ∧ stage = .inside k)
        ⟨.inside k, .cons (.bind (getElem?_numbers more) ⟨m.world.scopes, rfl⟩) (.nil _), rfl, rfl⟩ ?_
      rintro _ _ _ ⟨rfl, rfl⟩
      obtain ⟨c, -, back⟩ := rewind_run hp hu₁.source
      have hu₂ : Underway source (m₁.moved c) :=
        hu₁.passing (A := fun s => s = source ∧ s.Marks l.body) (Quiet.lift (quiet_rewind _)).passing
          ⟨rfl, hp⟩ back
      refine .bind (Q := fun _ m' stage => m' = m₁.moved c ∧ stage = .inside k)
        (.plain_ok back ⟨rfl, rfl⟩) ?_
      rintro _ _ _ ⟨rfl, rfl⟩
      exact traces_rangeRound hl hp ((works_jobs fuel).body _) hu₂ more
        fun m hu => ih hu more (by omega)
    · rw [if_neg (by simpa using more)]
      have last : k = numberCount a b s := by omega
      exact traces_leaveLoop hp hu ⟨last, rfl⟩ nofun fun failure hf => ⟨last, failure, rfl, hf⟩

omit hl hp in
theorem traces_inLoop {stage : RangeStage} {x : Noted RangeMark Status} {m : Machine}
    (hu : Underway source m)
    (h : ∀ m, Underway source m → l.Runs a b s source column stage x m) :
    l.Runs a b s source column stage (notedInLoop x) m := by
  refine .within ((h _ hu.deeper).mono (fun status m' stage' hs => ?_) fun _ _ => id)
  cases status <;> exact hs

theorem traces_notedRange (fuel n : Nat) {m : Machine} (hu : Underway source m)
    (hn : numberCount a b s < n) :
    l.Runs a b s source column (.before 0) (notedRange (jobs fuel) column n l) m := by
  have run : ∃ m₁, (pushScope : Eval Unit) m = .ok () m₁ := ⟨_, rfl⟩
  obtain ⟨m₁, run⟩ := run
  have hu₁ : Underway source m₁ := hu.passing (A := (· = source)) passing_pushScope rfl run
  refine .bind (Q := fun _ m' stage => m' = m₁ ∧ stage = .before 0) (.plain_ok run ⟨rfl, rfl⟩) ?_
  rintro _ _ _ ⟨rfl, rfl⟩
  refine traces_inLoop hu₁ fun m hu => ?_
  have rounds : l.Runs a b s source column (.before 0)
      (notedRangeRounds (jobs fuel) column n (l.atNumber a s 0)) m :=
    traces_rangeRounds hl hp fuel n hu (Nat.zero_le _) (by omega)
  rwa [RangeLoop.atNumber_zero hl] at rounds

theorem traces_notedRangeAgain (fuel n : Nat) {stage : RangeStage} {kind : FrameKind} {m : Machine}
    (hu : Underway source m) (asks : l.Asks a b s stage kind) (hn : numberCount a b s < n) :
    l.Runs a b s source column stage (notedRangeAgain column (jobs fuel) n kind) m := by
  obtain ⟨k, rfl, hk, rfl⟩ := asks
  refine traces_inLoop hu fun m hu => ?_
  refine traces_rangeRound hl hp ((works_jobs fuel).body _) hu hk fun m hu => ?_
  exact traces_rangeRounds hl hp fuel n hu hk (by omega)

end Traces

/-! ### The header -/

/-- The header of a loop over a range, up to its first round. -/
def rangeHeader (j : Jobs) : Eval RangeLoop := do
  let keyword ← bump
  let _ ← advance .colon
  let _ ← advance .kwFor
  let var ← advance .ident
  let _ ← advance .kwFrom
  let site ← current
  let first ← own (← j.expression)
  let _ ← advance .kwTo
  let last ← own (← holding [first] j.expression)
  let step ←
    if ← skipOver .kwStep then own (← holding [first, last] j.expression) else pure (.int 1)
  enterBlock keyword.column
  checkBounds first last step site
  return { var := var.text, current := first, last, step, body := ← capture }

theorem quiet_rangeHeader {A : Source → Prop} (fuel : Nat) : Quiet A (rangeHeader (jobs fuel)) := by
  have hj := works_jobs fuel
  refine .bind (.lift quiet_bump) fun keyword => .bind (.lift (quiet_advance _)) fun _ => ?_
  refine .bind (.lift (quiet_advance _)) fun _ => .bind (.lift (quiet_advance _)) fun var => ?_
  refine .bind (.lift (quiet_advance _)) fun _ => .bind quiet_current fun site => ?_
  refine .bind hj.expression fun _ => .bind (quiet_own _) fun first => ?_
  refine .bind (.lift (quiet_advance _)) fun _ => .bind (quiet_holding _ hj.expression) fun _ => ?_
  refine .bind (quiet_own _) fun last => ?_
  have entered (step : Value) : Quiet A (do
      enterBlock keyword.column
      checkBounds first last step site
      return { var := var.text, current := first, last, step, body := ← capture } : Eval RangeLoop) :=
    .bind (.lift (quiet_enterBlock _)) fun _ => .bind (quiet_checkBounds _ _ _ _) fun _ =>
      .bind (.read _) fun _ => .pure _
  refine .bind (.lift (quiet_skipOver _)) fun _ => .ite (fun _ => ?_) fun _ => ?_
  · exact .bind (quiet_holding _ hj.expression) fun _ => .bind (quiet_own _) entered
  · exact .bind (.pure _) entered

/-- The step of a loop that gets past the check of its bounds is not zero. -/
theorem ok_of_checkBounds {first last step : Value} {site : Token} {m m' : Machine}
    (h : checkBounds first last step site m = .ok () m') : m' = m ∧ step.isZero = false := by
  obtain ⟨_, m₁, checked, h⟩ := ok_of_bind h
  have same : m₁ = m := by
    generalize [first, last, step] = bounds at checked
    induction bounds with
    | nil =>
      obtain ⟨-, rfl⟩ := EStateM.Result.ok.inj checked
      rfl
    | cons bound bounds ih =>
      rw [List.forIn_cons] at checked
      obtain ⟨next, m₂, checked, rest⟩ := ok_of_bind checked
      split at checked
      · cases checked
      · obtain ⟨rfl, rfl⟩ := EStateM.Result.ok.inj checked
        exact ih rest
  split at h
  · cases h
  · obtain ⟨-, rfl⟩ := EStateM.Result.ok.inj h
    exact ⟨same, Bool.eq_false_iff.2 ‹_›⟩

/-- Behind its header the loop runs its rounds. -/
theorem statement_of_rangeHeader {j : Jobs} (n : Nat) {m m₀ : Machine} {l : RangeLoop}
    (hk : m.thread.cursor.kind = .kwLoop) (hb : m.thread.mode.inBlueprint = false)
    (h : rangeHeader j m = .ok l m₀) :
    l.body = m₀.thread.cursor.capture ∧ l.step.isZero = false ∧ statement j n m =
      (do pushScope; inLoop (rangeRounds j m.thread.cursor.current.column n l) : Eval Status) m₀ := by
  -- a loop statement is told by its first token
  have loops : statement j n m = loopStatement j n m := by
    have hk' : m.thread.cursor.current.kind = .kwLoop := hk
    simp only [statement, bind, EStateM.bind, current, mode, hb, hk', Bool.false_and,
      Bool.false_eq_true, if_false]
  -- the tokens of the header, one after the other
  obtain ⟨keyword, m₁, h₁, h⟩ := ok_of_bind h
  obtain ⟨colon, m₂, h₂, h⟩ := ok_of_bind h
  obtain ⟨for', m₃, h₃, h⟩ := ok_of_bind h
  obtain ⟨var, m₄, h₄, h⟩ := ok_of_bind h
  obtain ⟨from', m₅, h₅, h⟩ := ok_of_bind h
  obtain ⟨site, m₆, h₆, h⟩ := ok_of_bind h
  obtain ⟨first', m₇, h₇, h⟩ := ok_of_bind h
  obtain ⟨first, m₈, h₈, h⟩ := ok_of_bind h
  obtain ⟨to', m₉, h₉, h⟩ := ok_of_bind h
  obtain ⟨last', m₁₀, h₁₀, h⟩ := ok_of_bind h
  obtain ⟨last, m₁₁, h₁₁, h⟩ := ok_of_bind h
  obtain ⟨stepped, m₁₂, h₁₂, h⟩ := ok_of_bind h
  have kind {x y : Machine} {k : TokenKind} {t : Token}
      (h : (liftM (advance k) : Eval Token) x = .ok t y) : (kind : Eval TokenKind) x = .ok k x := by
    rw [← kind_of_advance h]
    rfl
  -- the header behind the step, and the loop behind the header
  have rest {step : Value} {m' : Machine} (h : (do
      enterBlock keyword.column
      checkBounds first last step site
      return { var := var.text, current := first, last, step, body := ← capture } :
        Eval RangeLoop) m' = .ok l m₀) :
      l.body = m₀.thread.cursor.capture ∧ l.step.isZero = false ∧ (do
        enterBlock keyword.column
        checkBounds first last step site
        let l := { var := var.text, current := first, last, step, body := ← capture }
        pushScope
        inLoop (rangeRounds j keyword.column n l) : Eval Status) m' =
          (do pushScope; inLoop (rangeRounds j keyword.column n l) : Eval Status) m₀ := by
    obtain ⟨_, m₁₃, h₁₃, checking⟩ := ok_of_bind h
    obtain ⟨_, m₁₄, h₁₄, ended⟩ := ok_of_bind checking
    obtain ⟨-, nonzero⟩ := ok_of_checkBounds h₁₄
    obtain ⟨rfl, rfl⟩ := EStateM.Result.ok.inj ended
    exact ⟨rfl, nonzero, (bind_of_ok h₁₃).trans ((bind_of_ok h₁₄).trans (bind_of_ok rfl))⟩
  have header : statement j n m = (do
      let step ←
        if stepped then own (← holding [first, last] j.expression) else pure (.int 1)
      enterBlock keyword.column
      checkBounds first last step site
      let l := { var := var.text, current := first, last, step, body := ← capture }
      pushScope
      inLoop (rangeRounds j keyword.column n l) : Eval Status) m₁₂ := by
    refine loops.trans ((bind_of_ok h₁).trans ((bind_of_ok h₂).trans ((bind_of_ok (kind h₃)).trans ?_)))
    refine (bind_of_ok h₃).trans ((bind_of_ok h₄).trans ((bind_of_ok (kind h₅)).trans ?_))
    refine (bind_of_ok (bump_of_advance h₅)).trans ((bind_of_ok h₆).trans ((bind_of_ok h₇).trans ?_))
    refine (bind_of_ok h₈).trans ((bind_of_ok h₉).trans ((bind_of_ok h₁₀).trans ?_))
    exact (bind_of_ok h₁₁).trans (bind_of_ok h₁₂)
  rw [header, ← token_of_bump h₁]
  cases stepped with
  | true =>
    obtain ⟨step', m₁₃, h₁₃, h⟩ := ok_of_bind h
    obtain ⟨step, m₁₄, h₁₄, h⟩ := ok_of_bind h
    obtain ⟨body, nonzero, run⟩ := rest h
    exact ⟨body, nonzero, (bind_of_ok h₁₃).trans ((bind_of_ok h₁₄).trans run)⟩
  | false => exact rest h

end Eval

/-! ### What is bound -/

/-- What a loop over integers does: a round begins with its variable bound, and its body comes to its
end, in whatever turn. -/
inductive RoundEvent where
  | begins (v : Value)
  | ends

/-- The event that is noted, if any is. -/
def RangeMark.event? : RangeMark → Option RoundEvent
  | bound v _ => some (.begins v)
  | ended .yielded => none
  | ended _ => some .ends
  | failed _ => none

/-- What happens in the rounds, in order. -/
def roundEvents (notes : List RangeMark) : List RoundEvent := notes.filterMap RangeMark.event?

/-- One round after another for some numbers, each with one run of the body. -/
def roundsFor (ns : List Int) : List RoundEvent := ns.flatMap fun x => [.begins (.int x), .ends]

/-- The body has not left the loop: it has waited, has come to its end or has gone on with the next
round. -/
def RangeMark.Stays : RangeMark → Prop
  | bound _ _ | ended .yielded | ended .normal | ended (.leaving .again) => True
  | _ => False

instance : DecidablePred RangeMark.Stays := fun mark => by
  unfold RangeMark.Stays
  split <;> infer_instance

/-- What has happened when a loop over the numbers `ns` is in a state. -/
def RangeStage.events (ns : List Int) : RangeStage → List RoundEvent
  | before k => roundsFor (ns.take k)
  | inside k | failed k _ => roundsFor (ns.take k) ++ [.begins (.int (ns.getD k 0))]
  | left k _ => roundsFor (ns.take (k + 1))

/-- A round is for one of the numbers. -/
def RangeStage.Within (ns : List Int) : RangeStage → Prop
  | before _ => True
  | inside k | failed k _ | left k _ => k < ns.length

section Trail

variable {var : String} {ns : List Int} {stage stage' : RangeStage} {notes : List RangeMark}

theorem roundsFor_take_succ {k : Nat} (hk : k < ns.length) :
    roundsFor (ns.take (k + 1)) =
      roundsFor (ns.take k) ++ [.begins (.int (ns.getD k 0))] ++ [.ends] := by
  have taken : ns.take (k + 1) = ns.take k ++ [ns.getD k 0] := by
    rw [List.take_add_one, List.getD_eq_getElem?_getD, List.getElem?_eq_getElem hk]
    rfl
  rw [taken, roundsFor, roundsFor, List.flatMap_append, List.append_assoc]
  rfl

theorem events_prefix (ns : List Int) (h : stage.Within ns) :
    stage.events ns <+: roundsFor ns := by
  have taken (k : Nat) : roundsFor (ns.take k) <+: roundsFor ns := by
    refine ⟨roundsFor (ns.drop k), ?_⟩
    rw [roundsFor, roundsFor, ← List.flatMap_append, List.take_append_drop]
    rfl
  have begun {k : Nat} (hk : k < ns.length) :
      roundsFor (ns.take k) ++ [.begins (.int (ns.getD k 0))] <+: roundsFor ns :=
    .trans ⟨[.ends], (roundsFor_take_succ hk).symm⟩ (taken (k + 1))
  cases stage with
  | before k => exact taken k
  | inside k => exact begun h
  | left k signal => exact taken (k + 1)
  | failed k f => exact begun h

/-- What happens in the rounds is what leads from state to state. -/
theorem events_of_trail (h : Trail (RangeStep var ns) stage notes stage') (hs : stage.Within ns) :
    stage'.Within ns ∧ stage.events ns ++ roundEvents notes = stage'.events ns := by
  induction h with
  | nil stage => exact ⟨hs, List.append_nil _⟩
  | @cons s₀ s₁ s₂ mark notes step _ ih =>
    -- one step
    have one : s₁.Within ns ∧ s₀.events ns ++ mark.event?.toList = s₁.events ns := by
      cases step with
      | @bind k x m hx =>
        obtain ⟨hk, rfl⟩ := List.getElem?_eq_some_iff.1 hx
        refine ⟨hk, ?_⟩
        simp [RangeStage.events, RangeMark.event?, hk]
      | wait k => exact ⟨hs, List.append_nil _⟩
      | next k => exact ⟨trivial, (roundsFor_take_succ hs).symm⟩
      | again k => exact ⟨trivial, (roundsFor_take_succ hs).symm⟩
      | leave k => exact ⟨hs, (roundsFor_take_succ hs).symm⟩
      | fail k f => exact ⟨hs, List.append_nil _⟩
    obtain ⟨hs₂, rest⟩ := ih one.1
    refine ⟨hs₂, ?_⟩
    rw [← rest, ← one.2, List.append_assoc]
    congr 1
    cases he : mark.event? <;> simp [roundEvents, he]

theorem bound_of_trail (h : Trail (RangeStep var ns) stage notes stage') {v : Value} {m : Machine}
    (hm : .bound v m ∈ notes) : BoundTo var v m := by
  induction h with
  | nil => cases hm
  | @cons s₀ s₁ s₂ mark notes step _ ih =>
    obtain rfl | hm := List.mem_cons.1 hm
    · cases step with
      | bind _ hb => exact hb
    · exact ih hm

/-- A loop whose body never leaves it has not been left. -/
theorem stays_of_trail (h : Trail (RangeStep var ns) stage notes stage')
    (stays : ∀ mark ∈ notes, mark.Stays) (hs : (∃ k, stage = .before k) ∨ ∃ k, stage = .inside k) :
    (∃ k, stage' = .before k) ∨ ∃ k, stage' = .inside k := by
  induction h with
  | nil => exact hs
  | @cons s₀ s₁ s₂ mark notes step _ ih =>
    refine ih (fun mark h => stays mark (List.mem_cons_of_mem _ h)) ?_
    have stays := stays _ List.mem_cons_self
    cases step with
    | bind => exact .inr ⟨_, rfl⟩
    | wait => exact .inr ⟨_, rfl⟩
    | next => exact .inl ⟨_, rfl⟩
    | again => exact .inl ⟨_, rfl⟩
    | @leave k signal hn =>
      cases signal with
      | again => exact absurd rfl hn
      | stop | result | raised => exact stays.elim
    | fail => exact stays.elim

end Trail

/-- A loop over integers, however many turns it takes and whatever its body does meanwhile.  The rounds
are for the numbers from `a` to `b`, in order, as many as there are so far.  If the body never leaves
the loop and never fails, then the loop is suspended in it, or every number has had its round and the
loop is over; what may keep it from going on behind its body then is only the text of that body. -/
theorem numbers_in_turn {fuel n : Nat} {m m₀ : Machine} {l : RangeLoop} {a b s : Int}
    {legs : List Leg} {r : EStateM.Result Fault Machine Status}
    (loop : m.thread.cursor.kind = .kwLoop) (outside : m.thread.mode.inBlueprint = false)
    (ready : Underway m.thread.cursor.source m)
    (header : rangeHeader (jobs fuel) m = .ok l m₀)
    (first : l.current = .int a) (last : l.last = .int b) (step : l.step = .int s)
    (low : minInt ≤ a ∧ minInt ≤ b) (high : a ≤ maxInt ∧ b ≤ maxInt)
    (rounds : (numbers a b s).length < n)
    (turns : Turns m.thread.cursor.capture
      (conclude m.thread.cursor.capture (statement (jobs fuel) n) m) legs r)
    (again : ∀ t ∈ legs, Underway m.thread.cursor.source t.machine ∧
      (numbers a b s).length < t.rounds) :
    let column := m.thread.cursor.current.column
    let notes := (notedRange (jobs fuel) column n l).notes m₀ ++
      legs.flatMap (Leg.notes (notedRangeAgain column))
    roundEvents notes <+: roundsFor (numbers a b s) ∧
      (∀ v at', .bound v at' ∈ notes → BoundTo l.var v at') ∧
      ((∀ mark ∈ notes, mark.Stays) → (∃ m', r = .ok .yielded m') ∨
        roundEvents notes = roundsFor (numbers a b s) ∧
          ((∃ m', r = .ok .normal m') ∨ ∃ failure m', r = .error (.failure failure) m' ∧
            m.thread.cursor.source.behindBody l.body (column + 4) = .error failure)) := by
  intro column notes
  obtain ⟨body, nonzero, run⟩ := statement_of_rangeHeader n loop outside header
  -- the header gives whole numbers in range and a step that is not zero
  have spans : l.Spans a b s := by
    refine ⟨first, last, step, low, high, ?_⟩
    rw [step] at nonzero
    simpa [Value.isZero] using nonzero
  have started : Underway m.thread.cursor.source m₀ :=
    ready.passing (A := fun _ => True) (quiet_rangeHeader fuel).passing trivial header
  have marks : m.thread.cursor.source.Marks l.body := by
    obtain ⟨c, hc⟩ := started.ready
    rw [body, ← started.source]
    exact hc.sound.capture
  simp only [length_numbers] at rounds again
  have first : l.Runs a b s m.thread.cursor.source column (.before 0)
      (notedRange (jobs fuel) column n l) m₀ := traces_notedRange spans marks fuel n started rounds
  -- the first run of the statement, and then every turn of it, goes on in the trail
  obtain ⟨s₁, trail₁, ends⟩ := first.closes (p := m.thread.cursor.capture)
  rw [result_notedRange, ← conclude_congr run] at ends
  obtain ⟨stage, trail₂, closes⟩ := turns.traces (notedRangeAgain column)
    (fun j n kind => result_notedRangeAgain j column n kind)
    (fun t ht stage kind inner asks frames => traces_notedRangeAgain spans marks t.fuel t.rounds
      ((again t ht).1.taken frames) asks (again t ht).2) ends
  have trail : Trail (RangeStep l.var (numbers a b s)) (.before 0) notes stage := trail₁.append trail₂
  obtain ⟨within, events⟩ := events_of_trail trail trivial
  have events : roundEvents notes = stage.events (numbers a b s) := events
  refine ⟨events ▸ events_prefix _ within, fun v at' => bound_of_trail trail, fun stays => ?_⟩
  -- all rounds have been begun before the loop ends of its own accord
  have whole {k : Nat} (hk : k = numberCount a b s) (hs : stage = .before k) :
      roundEvents notes = roundsFor (numbers a b s) := by
    rw [events, hs, RangeStage.events, List.take_of_length_le (by simp [hk])]
  -- where nobody interferes, the stage at the end tells how far the loop has come
  obtain ⟨k, hs⟩ | ⟨k, hs⟩ := stays_of_trail trail stays (.inl ⟨0, rfl⟩)
  · subst hs
    cases r with
    | ok status m' =>
      cases status with
      | yielded => exact .inl ⟨m', rfl⟩
      | normal => exact .inr ⟨whole closes.1 rfl, .inl ⟨m', rfl⟩⟩
      | leaving signal => cases closes.2
    | error f m' =>
      obtain ⟨hk, failure, rfl, hf⟩ := closes
      exact .inr ⟨whole hk rfl, .inr ⟨failure, m', rfl, hf⟩⟩
  · subst hs
    cases r with
    | ok status m' =>
      cases status with
      | yielded => exact .inl ⟨m', rfl⟩
      | normal | leaving => exact closes.elim
    | error f m' => exact closes.elim

/-- A loop over the two last integers. -/
def lastLoop : Machine :=
  onText "loop: for i from 9223372036854775806 to 9223372036854775807:\n    show(i)\n"

theorem underway_onText {text : String} (h : (Cursor.ofSource ⟨0, text.toList⟩).isOk = true) :
    Underway (onText text).thread.cursor.source (onText text) := by
  have same : ∃ c, onText text = (Machine.new {}).moved c := by
    unfold onText
    split
    · exact ⟨_, rfl⟩
    · exact ⟨(Machine.new {}).thread.cursor, rfl⟩
  refine ⟨⟨.idle, sound_onText h, ?_, .inl rfl, ?_, ?_, ?_⟩, ?_, rfl⟩
  all_goals
    obtain ⟨c, hc⟩ := same
    rw [hc]
  · exact sound_new {}
  · exact ⟨nofun, fun h => absurd rfl h⟩
  · exact nofun
  · exact nofun
  · exact .inl rfl

/-- Both have their round, and behind the last integer the loop is over. -/
theorem numbers_in_lastLoop :
    lastLoop.thread.cursor.kind = .kwLoop ∧ lastLoop.thread.mode.inBlueprint = false ∧
    Underway lastLoop.thread.cursor.source lastLoop ∧ ∃ l m₀,
      rangeHeader (jobs 9) lastLoop = .ok l m₀ ∧ l.current = .int (maxInt - 1) ∧
      l.last = .int maxInt ∧ l.step = .int 1 ∧
      roundEvents ((notedRange (jobs 9) 1 9 l).notes m₀) = roundsFor [maxInt - 1, maxInt] ∧
      ∃ m', conclude lastLoop.thread.cursor.capture (statement (jobs 9) 9) lastLoop =
        .ok .normal m' := by
  obtain ⟨loop, outside, column⟩ : lastLoop.thread.cursor.kind = .kwLoop ∧
      lastLoop.thread.mode.inBlueprint = false ∧
      lastLoop.thread.cursor.current.column = 1 := by decide +kernel
  have ready : Underway lastLoop.thread.cursor.source lastLoop := by
    unfold lastLoop
    exact underway_onText (by decide +kernel)
  have read : (match rangeHeader (jobs 9) lastLoop with
    | .ok l m₀ => l.current.identical (.int (maxInt - 1)) && l.last.identical (.int maxInt) &&
      l.step.identical (.int 1) &&
      decide (∀ mark ∈ (notedRange (jobs 9) 1 9 l).notes m₀, mark.Stays)
    | .error _ _ => false) = true := by decide +kernel
  have ends : endsNormally
      (conclude lastLoop.thread.cursor.capture (statement (jobs 9) 9) lastLoop) = true := by
    decide +kernel
  have two : numbers (maxInt - 1) maxInt 1 = [maxInt - 1, maxInt] := by decide +kernel
  have few : (numbers (maxInt - 1) maxInt 1).length < 9 := by
    rw [two]
    decide
  have int {v : Value} {n : Int} (h : v.identical (.int n) = true) : v = .int n := by
    cases v with
    | int k => exact congrArg Value.int (by simpa [Value.identical] using h)
    | _ => simp [Value.identical] at h
  cases header : rangeHeader (jobs 9) lastLoop with
  | error e m => simp only [header, Bool.false_eq_true] at read
  | ok l m₀ =>
    simp only [header, Bool.and_eq_true, decide_eq_true_eq] at read
    obtain ⟨⟨⟨first, last⟩, step⟩, stays⟩ := read
    obtain ⟨m', ended⟩ := ok_of_endsNormally ends
    have runs := (numbers_in_turn (n := 9) loop outside ready header (int first) (int last) (int step)
      ⟨by decide, by decide⟩ ⟨by decide, by decide⟩ few (.last _)
      fun _ h => absurd h List.not_mem_nil).2.2
    simp only [column, List.flatMap_nil, List.append_nil, ended, two] at runs
    refine ⟨loop, outside, ready, l, m₀, rfl, int first, int last, int step, ?_, m', ended⟩
    obtain ⟨_, h⟩ | ⟨events, -⟩ := runs stays
    · cases h
    · exact events

end Rewind
