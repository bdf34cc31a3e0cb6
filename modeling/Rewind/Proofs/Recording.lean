/-
What is recorded and what a replay gets.

A call in a statement of a coroutine puts its outcome on the tape when it comes to its end, and so
does an `await` whose coroutine is done.  When the statement is replayed a call takes an outcome
where it begins.  If no call was made within it the two places are the same, and the replay gets the
outcome of the call itself, whether the statement was suspended or not.  What a function of the
program calls goes on no tape; only `show` calls back on the tape of its caller, for the texts of
objects.  Those are recorded in front of what `show` itself comes to, and the replay gets the first
of them in its place.

* `Advances.appended` — what is recorded stands behind what was on the tape;
* `Recorded` — the machine where a call has come to its outcome;
* `recorded_of_call`, `recorded_of_await` — what stands on the tape behind a call and an `await`;
* `Revisits` — the place of a call or an `await` in a replay of the statement;
* `replay_of_calls` — all of it together;
* `Retraces`, `Retraces.revisits` — a replay that goes the way of the statement comes to each call and
  `await` at its place, and to the one it was suspended in behind all others.
-/
import Rewind.Proofs.Replay
import Rewind.Proofs.Copying
import Rewind.Proofs.Stillness

namespace Rewind

open Eval World

/-! ### What has been recorded -/

/-- Once nothing is left to replay, what is recorded stands behind what was on the tape. -/
theorem Tape.Advances.appended {t t' : Tape} (h : t.Advances t') (ht : t.replaying = false) :
    ∃ within, t'.entries.toList = t.entries.toList ++ within := by
  induction h with
  | refl => exact ⟨[], (List.append_nil _).symm⟩
  | tail hs hm ih =>
    obtain ⟨within, hw⟩ := ih
    cases hm with
    | read hr =>
      rw [Advances.replaying_eq_false hs ht] at hr
      contradiction
    | record outcome =>
      refine ⟨within ++ [outcome], ?_⟩
      simp only [record, Array.toList_push, hw, List.append_assoc]

/-- A machine in whose statement calls and awaits are carried out and recorded. -/
structure Recording (m : Machine) : Prop where
  async : m.thread.mode.inAsync = true
  skip : m.thread.skip = 0
  written : m.thread.tape.replaying = false

/-- In `m'` a call that began in `m` has come to `outcome`.  A copy of it, `kept`, stands on the tape
behind what was recorded `within` the call. -/
structure Recorded (m m' : Machine) (outcome : Outcome) (within : List Outcome) (kept : Outcome) :
    Prop where
  entries : m'.thread.tape.entries.toList = m.thread.tape.entries.toList ++ within ++ [kept]
  written : m'.thread.tape.replaying = false
  copy : m'.world.heap.MirrorsOutcome outcome kept

/-- What a call has come to, unless it was suspended or ended the whole run. -/
def cameTo : EStateM.Result Interrupt Machine Held → Option (Outcome × Machine)
  | .ok held m => some (.ok held.value, m)
  | .error (.raised r) m => some (.error r, m)
  | _ => none

theorem cameTo_resume (outcome : Outcome) (m : Machine) :
    cameTo (resume outcome m) = some (outcome, m) := by
  cases outcome <;> rfl

namespace Recording

variable {m m' : Machine}

theorem not_replays (h : Recording m) : m.thread.replays = false := by
  simp [Thread.replays, h.written]

/-- An outcome that is settled is recorded. -/
theorem settles (h : Recording m) (outcome : Outcome) :
    settle outcome m = resume outcome (recordOutcome m outcome) := by
  rw [settle_run, if_pos (by simp [h.async, h.skip])]

theorem settled (h : Recording m) (hs : Settled m m') : Recording m' :=
  ⟨hs.mode ▸ h.async, hs.skip.trans h.skip, hs.tape.replaying_eq_false h.written⟩

/-- What stands on the tape behind an outcome that has just been recorded. -/
theorem recorded (h : Recording m) (hs : Settled m m') (outcome : Outcome) :
    ∃ within kept, Recorded m (recordOutcome m' outcome) outcome within kept ∧
      (m'.thread.tape = m.thread.tape → within = []) := by
  obtain ⟨within, hw⟩ := hs.tape.appended h.written
  refine ⟨within, (Heap.duplicateOutcome outcome m'.world.heap).1, ⟨?_, ?_, ?_⟩, fun ht => ?_⟩
  · rw [← hw]
    exact Array.toList_push
  · exact Tape.replaying_record _ _
  · exact Heap.mirrors_duplicateOutcome outcome m'.world.heap
  · rw [ht] at hw
    exact List.self_eq_append_right.1 hw

end Recording

/-! ### Calls and awaits -/

/-- Behind a call that has come to its end a copy of its outcome stands on the tape, once, and in
front of it what was recorded within the call; that is nothing unless `show` was called. -/
theorem recorded_of_call {j : Jobs} (hj : Works j) {c : Control} {m m' : Machine} {n : Nat}
    {callee : Value} {args : CallArgs} {site : Token} {outcome : Outcome} (ready : Ready c m)
    (recording : Recording m)
    (came : cameTo (invokeValue j n callee args site m) = some (outcome, m')) :
    ∃ within kept, Recorded m m' outcome within kept ∧ (¬ Shows m.world callee → within = []) := by
  have called : Quiet (fun _ => True) (do own (← dispatch j n callee args site) : Eval Value) :=
    .bind (quiet_dispatch hj n callee args site) fun _ => quiet_own _
  have ended := called c m ready trivial
  have stays : ¬ Shows m.world callee →
      Stays false m ((do own (← dispatch j n callee args site) : Eval Value) m) := fun hs =>
    .bind (stays_dispatch n args site fun h => absurd h hs) fun _ => still_own _
  -- whichever way the call has ended, its outcome is recorded on the machine it has ended in
  have recorded {m₁ : Machine} {o : Outcome} (hs : Settled m m₁)
      (ht : ¬ Shows m.world callee → Unmoved false m m₁)
      (came : cameTo (settle o m₁) = some (outcome, m')) :
      ∃ within kept, Recorded m m' outcome within kept ∧
        (¬ Shows m.world callee → within = []) := by
    rw [(recording.settled hs).settles, cameTo_resume] at came
    obtain ⟨rfl, rfl⟩ := Prod.mk.inj (Option.some.inj came)
    obtain ⟨within, kept, h, hw⟩ := recording.recorded hs o
    exact ⟨within, kept, h, fun hn => hw ((ht hn).tape rfl)⟩
  rw [invokeValue_of_not_replays n callee args site recording.not_replays] at came
  cases hr : (do own (← dispatch j n callee args site) : Eval Value) m with
  | ok v m₁ =>
    rw [hr] at ended stays came
    exact recorded ended.1 stays came
  | error e m₁ =>
    rw [hr] at ended stays came
    cases e with
    | raised r => exact recorded ended.1 stays came
    | _ => contradiction

theorem thread_launched (m : Machine) (target : Ref .coroutine) :
    (launched m target).thread = m.thread := by
  unfold launched
  split <;> rfl

/-- An `await` of a coroutine that is done, or is done once it has been started, comes to a copy of
its outcome, which is recorded.  Any other one leaves the tape as it is. -/
theorem recorded_of_await {c : Control} {m : Machine} {task target : Ref .coroutine} {v : Value}
    (keyword : Token) (ready : Ready c m) (recording : Recording m)
    (runs : m.thread.task = some task) (awaited : m.world.coroutine? v = some target)
    (other : task ≠ target) :
    if ((launched m target).world.coroutines.get target).isDone then
      ∃ outcome m' kept, cameTo (waitFor keyword v m) = some (outcome, m') ∧
        m'.world.heap.MirrorsOutcome ((launched m target).world.coroutines.get target).outcome
          outcome ∧
        Recorded m m' outcome [] kept
    else ∃ m', waitFor keyword v m = .error .suspended m' ∧ m'.thread = m.thread := by
  rw [waitFor_run keyword v runs (ready.async recording.async), awaited]
  simp only [if_neg other]
  split
  · -- the outcome is copied twice: for the one who waits, and for the tape
    let o := ((launched m target).world.coroutines.get target).outcome
    let p := (launched m target).world.onHeap (Heap.duplicateOutcome o)
    let m₁ : Machine := { launched m target with world := p.2 }
    have thread : m₁.thread = m.thread := thread_launched m target
    have recording₁ : Recording m₁ :=
      ⟨thread ▸ recording.async, thread ▸ recording.skip, thread ▸ recording.written⟩
    refine ⟨p.1, recordOutcome m₁ p.1, (Heap.duplicateOutcome p.1 m₁.world.heap).1, ?_, ?_, ?_, ?_, ?_⟩
    · rw [← cameTo_resume, ← recording₁.settles]
      rfl
    · exact (Heap.mirrors_duplicateOutcome o _).mono (Heap.extends_duplicateOutcome p.1 m₁.world.heap)
    · rw [List.append_nil, ← thread]
      exact Array.toList_push
    · exact Tape.replaying_record _ _
    · exact Heap.mirrors_duplicateOutcome p.1 m₁.world.heap
  · exact ⟨_, rfl, thread_launched m target⟩

/-! ### In a replay -/

/-- A replay has come to the place of the tape where `m` was, and `behind` stands on the tape there. -/
structure Revisits (m : Machine) (behind : List Outcome) (t : Machine) : Prop where
  async : t.thread.mode.inAsync = true
  skip : t.thread.skip = 0
  place : t.thread.tape.position = m.thread.tape.size
  entries : m.thread.tape.entries.toList ++ behind <+: t.thread.tape.entries.toList

/-- What a call or an `await` takes in a replay is what was put on the tape first behind the place
where it began. -/
theorem Revisits.replayed {m t : Machine} {o : Outcome} {behind : List Outcome}
    (h : Revisits m (o :: behind) t) :
    replayed t = .ok (some (takeOutcome t o).1) (takeOutcome t o).2 := by
  have found : t.thread.tape.entries[t.thread.tape.position]? = some o := by
    obtain ⟨rest, hr⟩ := h.entries
    rw [← Array.getElem?_toList, ← hr, h.place, Tape.size, ← Array.length_toList,
      List.append_assoc, List.getElem?_append_right (Nat.le_refl _), Nat.sub_self]
    rfl
  have hlt : t.thread.tape.position < t.thread.tape.entries.size :=
    (Array.getElem?_eq_some_iff.1 found).1
  have replays : t.thread.replays = true := by
    simp [Thread.replays, h.async, h.skip, Tape.replaying, hlt]
  obtain ⟨entry, he, hr⟩ := replayed_of_replays replays
  obtain rfl := Option.some.inj (he.symm.trans found)
  exact hr

theorem Revisits.invokeValue {m t : Machine} {o : Outcome} {behind : List Outcome}
    (h : Revisits m (o :: behind) t) (j : Jobs) (n : Nat) (callee : Value) (args : CallArgs)
    (site : Token) : invokeValue j n callee args site t = gives t o := by
  simp only [Eval.invokeValue, bind, EStateM.bind, h.replayed]
  rfl

/-- Calls and awaits of a statement of a coroutine that is not being replayed.  A call leaves its
outcome on the tape once, behind what was recorded within it, and when the statement is replayed it
takes the first of these: its own outcome exactly if nothing was recorded within it, as is the case
with all calls but those of `show`.  An `await` leaves the outcome of its coroutine on the tape if it
is done, or else leaves the place on the tape to it; either way the replay gives that to it. -/
theorem replay_of_calls {fuel : Nat} {c : Control} {m : Machine} (ready : Ready c m)
    (recording : Recording m) :
    (∀ n callee args site outcome m',
      cameTo (invokeValue (jobs fuel) n callee args site m) = some (outcome, m') →
        ∃ within kept, Recorded m m' outcome within kept ∧
          (¬ Shows m.world callee → within = []) ∧
          ∀ t, Revisits m (within ++ [kept]) t → ∀ j n callee args site,
            invokeValue j n callee args site t = gives t (within.headD kept)) ∧
    (∀ keyword v task target, m.thread.task = some task →
      m.world.coroutine? v = some target → task ≠ target →
        if ((launched m target).world.coroutines.get target).isDone then
          ∃ outcome m' kept, cameTo (waitFor keyword v m) = some (outcome, m') ∧
            m'.world.heap.MirrorsOutcome ((launched m target).world.coroutines.get target).outcome
              outcome ∧
            Recorded m m' outcome [] kept
        else ∃ m', waitFor keyword v m = .error .suspended m' ∧ m'.thread = m.thread) ∧
    ∀ outcome t, Revisits m [outcome] t →
      replayed t = .ok (some (takeOutcome t outcome).1) (takeOutcome t outcome).2 := by
  refine ⟨fun n callee args site outcome m' came => ?_,
    fun keyword v task target runs awaited other =>
      recorded_of_await keyword ready recording runs awaited other,
    fun outcome t h => h.replayed⟩
  obtain ⟨within, kept, recorded, hw⟩ := recorded_of_call (works_jobs fuel) ready recording came
  refine ⟨within, kept, recorded, hw, fun t h => ?_⟩
  cases within with
  | nil => exact h.invokeValue
  | cons o within => exact h.invokeValue

/-! ### The way of a statement -/

/-- A replay goes the way of the run of the statement that was suspended and has kept the tape `kept`;
`awaited` is what was waited for.  Both have come by the same calls and awaits, none of them a call
of `show`, and what they have done between these has left their tapes alone.  The turn that goes on
with the statement begins with its tape as here (`ResumedOn`). -/
inductive Retraces (kept : Tape) (awaited : Outcome) : Machine → Machine → Prop
  | begins {m t : Machine} : m.thread.tape.position = 0 → t.thread.mode.inAsync = true →
      t.thread.skip = 0 → t.thread.tape = kept.inject awaited → Retraces kept awaited m t
  | between {m m' t t' : Machine} : Retraces kept awaited m t →
      m'.thread.tape = m.thread.tape → t'.thread.mode.inAsync = true → t'.thread.skip = 0 →
      t'.thread.tape = t.thread.tape → Retraces kept awaited m' t'
  /-- The statement was itself replayed here, because it had been suspended before. -/
  | again {m m' t t' : Machine} {o o' : Outcome} : Retraces kept awaited m t →
      m.thread.replays = true → replayed m = .ok (some o) m' → replayed t = .ok (some o') t' →
      Retraces kept awaited m' t'
  | call {m m' t t' : Machine} {fuel n n' : Nat} {c : Control} {j : Jobs} {callee callee' : Value}
      {args args' : CallArgs} {site site' : Token} {outcome outcome' : Outcome} :
      Retraces kept awaited m t → Ready c m → Recording m → ¬ Shows m.world callee →
      cameTo (invokeValue (jobs fuel) n callee args site m) = some (outcome, m') →
      cameTo (invokeValue j n' callee' args' site' t) = some (outcome', t') →
      Retraces kept awaited m' t'
  | await {m m' t t' : Machine} {c : Control} {task target : Ref .coroutine} {keyword : Token}
      {v : Value} {outcome o : Outcome} :
      Retraces kept awaited m t → Ready c m → Recording m → m.thread.task = some task →
      m.world.coroutine? v = some target → task ≠ target →
      cameTo (waitFor keyword v m) = some (outcome, m') → replayed t = .ok (some o) t' →
      Retraces kept awaited m' t'

/-- How much of the tape a statement has come by: all of it, unless it is being replayed. -/
def Tape.place (t : Tape) : Nat := min t.position t.size

/-- A replay is at the place of the machine `m`, and has the whole tape. -/
structure Level (kept : Tape) (awaited : Outcome) (m t : Machine) : Prop where
  async : t.thread.mode.inAsync = true
  skip : t.thread.skip = 0
  tape : t.thread.tape = ⟨kept.entries.push awaited, m.thread.tape.place⟩

section Retracing

variable {kept : Tape} {awaited : Outcome} {m m' t t' : Machine} {o : Outcome}

theorem Tape.place_of_written {tape : Tape} (h : tape.replaying = false) : tape.place = tape.size :=
  Nat.min_eq_right (Nat.le_of_not_lt (of_decide_eq_false h))

namespace Level

theorem revisits (h : Level kept awaited m t) (recording : Recording m) {behind : List Outcome}
    (hk : m.thread.tape.entries.toList ++ behind = kept.entries.toList) :
    Revisits m (behind ++ [awaited]) t := by
  refine ⟨h.async, h.skip, ?_, ?_⟩
  · rw [h.tape]
    exact Tape.place_of_written recording.written
  · have whole : t.thread.tape.entries.toList =
        m.thread.tape.entries.toList ++ (behind ++ [awaited]) := by
      rw [h.tape, Array.toList_push, ← hk, List.append_assoc]
    exact ⟨[], by rw [List.append_nil, whole]⟩

/-- One outcome more is recorded, and the replay takes one. -/
theorem take (h : Level kept awaited m t) (entry : Outcome)
    (place : m'.thread.tape.place = m.thread.tape.place + 1) :
    Level kept awaited m' (takeOutcome t entry).2 := by
  refine ⟨h.async, h.skip, ?_⟩
  show ({ t.thread.tape with position := t.thread.tape.position + 1 } : Tape) = _
  rw [h.tape, place]

/-- Where an outcome has been recorded behind the place of the replay, it is the one to take next. -/
theorem recorded (h : Level kept awaited m t) (recording : Recording m) {outcome : Outcome}
    (hr : Recorded m m' outcome [] o)
    (hk : m'.thread.tape.entries.toList <+: kept.entries.toList) :
    (∃ behind, Revisits m (o :: behind) t) ∧ Level kept awaited m' (takeOutcome t o).2 := by
  obtain ⟨behind, hb⟩ := hk
  rw [hr.entries, List.append_nil, List.append_assoc] at hb
  refine ⟨⟨behind ++ [awaited], h.revisits recording hb⟩, h.take o ?_⟩
  rw [Tape.place_of_written hr.written, Tape.place_of_written recording.written, Tape.size,
    ← Array.length_toList, hr.entries]
  simp [Tape.size]

end Level

theorem Recorded.keeps {outcome : Outcome} {within : List Outcome} (h : Recorded m m' outcome within o) :
    m.thread.tape.entries.toList <+: m'.thread.tape.entries.toList :=
  ⟨within ++ [o], by rw [h.entries, List.append_assoc]⟩

/-- A replay that goes the way of the statement is at its place, wherever both have come to. -/
theorem Retraces.level (h : Retraces kept awaited m t)
    (hk : m.thread.tape.entries.toList <+: kept.entries.toList) : Level kept awaited m t := by
  induction h with
  | begins start async skip tape =>
    refine ⟨async, skip, tape.trans ?_⟩
    rw [Tape.place, start, Nat.zero_min]
    rfl
  | between _ same async skip tape ih =>
    rw [same] at hk
    refine ⟨async, skip, tape.trans ?_⟩
    rw [same]
    exact (ih hk).tape
  | @again m m' t t' o o' _ replays hm ht ih =>
    obtain ⟨entry, he, hr⟩ := replayed_of_replays replays
    obtain ⟨-, rfl⟩ := EStateM.Result.ok.inj (hm.symm.trans hr)
    have level := ih hk
    have hlt : m.thread.tape.position < m.thread.tape.size := (Array.getElem?_eq_some_iff.1 he).1
    have place : m.thread.tape.place = m.thread.tape.position := Nat.min_eq_left (Nat.le_of_lt hlt)
    -- so the replay has something to take as well
    have replays' : t.thread.replays = true := by
      have length := hk.length_le
      rw [Array.length_toList, Array.length_toList] at length
      have hlt' : m.thread.tape.position < kept.entries.size + 1 :=
        Nat.lt_succ_of_le (Nat.le_of_lt (Nat.lt_of_lt_of_le hlt length))
      simp [Thread.replays, level.async, level.skip, level.tape, Tape.replaying, place, hlt']
    obtain ⟨entry', -, hr'⟩ := replayed_of_replays replays'
    obtain ⟨-, rfl⟩ := EStateM.Result.ok.inj (ht.symm.trans hr')
    refine level.take entry' ?_
    rw [place]
    exact Nat.min_eq_left hlt
  | @call m m' t t' fuel n n' c j callee callee' args args' site site' outcome outcome' _ ready
      recording other came came' ih =>
    obtain ⟨within, kept', recorded, hw⟩ := recorded_of_call (works_jobs fuel) ready recording came
    obtain rfl := hw other
    obtain ⟨⟨behind, revisits⟩, level⟩ := (ih (recorded.keeps.trans hk)).recorded recording recorded hk
    rw [revisits.invokeValue, gives, cameTo_resume] at came'
    obtain ⟨-, rfl⟩ := Prod.mk.inj (Option.some.inj came')
    exact level
  | @await m m' t t' c task target keyword v outcome o _ ready recording runs awaits other came taken
      ih =>
    have await := recorded_of_await keyword ready recording runs awaits other
    split at await
    · obtain ⟨outcome', m₁, kept', came', -, recorded⟩ := await
      obtain ⟨-, rfl⟩ := Prod.mk.inj (Option.some.inj (came.symm.trans came'))
      obtain ⟨⟨behind, revisits⟩, level⟩ :=
        (ih (recorded.keeps.trans hk)).recorded recording recorded hk
      obtain ⟨-, rfl⟩ := EStateM.Result.ok.inj (taken.symm.trans revisits.replayed)
      exact level
    · -- one that was suspended has come to nothing
      obtain ⟨m₁, suspended, -⟩ := await
      rw [suspended] at came
      contradiction

/-- A replay that goes the way of the statement comes to every call and `await` at the place where its
outcome was recorded, and what was waited for stands behind all others. -/
theorem Retraces.revisits (h : Retraces kept awaited m t) (recording : Recording m)
    {behind : List Outcome}
    (hk : m.thread.tape.entries.toList ++ behind = kept.entries.toList) :
    Revisits m (behind ++ [awaited]) t :=
  (h.level ⟨behind, hk⟩).revisits recording hk

/-- The `await` the statement was suspended in gets what it has waited for. -/
theorem Retraces.replayed (h : Retraces kept awaited m t) (recording : Recording m)
    (hk : m.thread.tape = kept) :
    Eval.replayed t = .ok (some (takeOutcome t awaited).1) (takeOutcome t awaited).2 := by
  have last : Revisits m ([] ++ [awaited]) t :=
    h.revisits recording (by rw [hk, List.append_nil])
  exact last.replayed

end Retracing

/-! ### A call in the patient body -/

/-- The machine on which the body that waits begins its turn. -/
def patientBegun : Machine :=
  match Cursor.at? patientBody.source patientBody.entry with
  | .ok cursor => bodyMachine patientLoop ⟨0⟩ [] ⟨0⟩ none ⟨1⟩ cursor
  | .error _ => patientLoop

theorem ready_patientBegun : Ready (.turn ⟨0⟩) patientBegun := by
  have read : (Cursor.at? patientBody.source patientBody.entry).isOk = true := by decide +kernel
  unfold patientBegun
  cases hc : Cursor.at? patientBody.source patientBody.entry with
  | error f =>
    rw [hc] at read
    contradiction
  | ok cursor =>
    have sound : patientLoop.world.Sound := reachable_patientLoop.sound
    have queue : patientLoop.world.loop.ready = [⟨0⟩] := rfl
    have kind : (patientLoop.world.coroutines.get ⟨0⟩).kind = .script ⟨0⟩ none := rfl
    have scope : (patientLoop.world.coroutines.get ⟨0⟩).scope = some ⟨1⟩ := rfl
    have body : (patientLoop.world.functions.get ⟨0⟩).body = .script patientBody := rfl
    exact (turn_begins sound rfl queue rfl kind scope nofun body hc).2.1

theorem not_shows_of_async {w : World} {r : Ref .function} (h : (w.functions.get r).isAsync = true) :
    ¬ Shows w (.function r) := by
  intro hs
  rw [Function.isAsync, show (w.functions.get r).body = .native .show from hs] at h
  contradiction

/-- The call of an `async` function there: nothing is recorded within it. -/
theorem recorded_in_patientBegun : ∃ outcome m' kept,
    cameTo (invokeValue (jobs 2) 2 (.function ⟨0⟩) {} default patientBegun) = some (outcome, m') ∧
      Recorded patientBegun m' outcome [] kept := by
  have recording : Recording patientBegun :=
    ⟨by decide +kernel, by decide +kernel, by decide +kernel⟩
  have ends : (cameTo (invokeValue (jobs 2) 2 (.function ⟨0⟩) {} default patientBegun)).isSome =
      true := by decide +kernel
  have other : ¬ Shows patientBegun.world (.function ⟨0⟩) := not_shows_of_async (by decide +kernel)
  obtain ⟨⟨outcome, m'⟩, came⟩ := Option.isSome_iff_exists.1 ends
  obtain ⟨within, kept, recorded, hw, -⟩ :=
    (replay_of_calls ready_patientBegun recording).1 2 _ _ _ outcome m' came
  obtain rfl := hw other
  exact ⟨outcome, m', kept, came, recorded⟩

/-- The text of an object is recorded in front of what `show` comes to.  The same statement gives what
it should if the coroutine is done; if it is waited for, the replay takes the text for the outcome of
`show`, and everything behind it takes the outcome of the one before. -/
theorem text_taken_for_outcome :
    account ((Machine.new {}).runSource ("load: weaver as w\n" ++
      "blueprint: P:\n    funct: op_str(self):\n        return: \"p\"\n" ++
      "async funct: g():\n    return: 5\n" ++
      "async funct: main():\n    let: x = [show(P()), await g()]\n    show(x)\n" ++
      "    let: t = g()\n    await t\n    let: y = [show(P()), await t]\n    show(y)\n" ++
      "w.weave(main())\n") 20) =
    ("p\n[p, <coroutine g #2>]\np\n[null, 5]\n", none) := by
  decide +kernel

end Rewind
