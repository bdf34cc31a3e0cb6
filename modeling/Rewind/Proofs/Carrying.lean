/-
What the run of a statement comes to.

A statement is run on its lines.  It ends behind the last of them, or leaves the body it stands in with
a signal or an exception, from any place from which skipping that body ends where the body ends.  A
body that is left is skipped by what runs its statements, so that it ends in one place however it ends.

* `Lines` — a machine before some lines; `Live` — a machine that runs a statement with a setting;
* `Carries` — what a statement comes to; `Brings` — what a body comes to;
* `Carries.after`, `Carries.owned`, `Carries.afterBody` — a statement that begins with an expression,
  with one whose value is kept, or with a body;
* `enterBlock_run`, `Lines.skipBody`, `Before.endStatement` — the moves of statements.
-/
import Rewind.Proofs.Terms

namespace Rewind.Tree

open Eval

variable {g : Scene} {S : Setting} {σ σ' σ₁ : Store} {m m' m₁ : Machine} {b c d e : Cursor}
  {p q : Position} {k : Nat} {us vs ws : List Word} {w : Word} {r : Row} {rows rest : List Row}

/-! ### Before lines -/

/-- The machine stands before the first of some lines, which begins at `p`; behind them is `e`. -/
structure Lines (rows : List Row) (p : Position) (m : Machine) (e : Cursor) : Prop where
  crosses : m.thread.cursor.Crosses (spread p rows) e
  sound : m.thread.cursor.Sound
  column : p.column = 1

namespace Lines

theorem at_ (h : Lines rows p m e) (hc : m'.thread.cursor = m.thread.cursor) : Lines rows p m' e :=
  ⟨hc ▸ h.crosses, hc ▸ h.sound, h.column⟩

/-- Some lines, and those behind them. -/
theorem split (us : List Row) (h : Lines (us ++ rows) p m e) :
    ∃ b, Lines us p m b ∧ ∀ m' : Machine, m'.thread.cursor = b → Lines rows (below p us) m' e := by
  have hc := h.crosses
  rw [spread_append] at hc
  obtain ⟨b, hb, hd⟩ := hc.append_inv
  refine ⟨b, ⟨hb, h.sound, h.column⟩, fun m' hm => ?_⟩
  subst hm
  exact ⟨hd, (hb.sound h.sound).1, column_below h.column us⟩

/-- The words of the first line, with the colon at its end, and the lines behind it. -/
theorem first (h : Lines (r :: rows) p m e) :
    ∃ b, Before (r.words ++ [.colon]) (indented p r.depth) m b ∧
      ∀ m' : Machine, m'.thread.cursor = b → Lines rows (below p [r]) m' e := by
  obtain ⟨b, hb, hrest⟩ := split [r] h
  refine ⟨b, ⟨?_, h.sound⟩, hrest⟩
  have hc := hb.crosses
  rwa [spread, spread, List.append_nil] at hc

theorem moved_eq (h : Lines [] p m e) : m.thread.cursor = e := by
  cases h.crosses
  rfl

/-- From the first line skipping goes on behind the last one. -/
theorem slides (h : Lines rows p m e) (hd : Deep k rows) : Slides (4 * k + 1) m.thread.cursor e :=
  slides_of_spread h.column h.crosses hd

theorem source_eq (h : Lines rows p m e) : e.source = m.thread.cursor.source :=
  (h.crosses.sound h.sound).2

theorem onLine (h : Lines (⟨k, w :: ws⟩ :: rows) p m e) : OnLine p k w m.thread.cursor :=
  onLine_of_crosses h.column h.crosses

/-- Back at the first of the lines, from any place of the same text. -/
theorem back (h : Lines rows p m e) (hr : rows ≠ [])
    (hc : m'.thread.cursor.source = m.thread.cursor.source) :
    ∃ b, (rewind m.thread.cursor.capture : Run _) m' = .ok () (m'.moved b) ∧
      Lines rows p (m'.moved b) e := by
  obtain ⟨r, rest, rfl⟩ := List.exists_cons_of_ne_nil hr
  obtain ⟨d, hd, hrest⟩ := h.first
  obtain ⟨b, hb, hback⟩ := hd.back (by simp) hc
  refine ⟨b, hb, ?_, hback.sound, h.column⟩
  exact hback.crosses.append (hrest (m.moved d) rfl).crosses

/-- Past lines that stand in enough bodies. -/
theorem skipBody (h : Lines rows p m e) (hd : Deep k rows) (he : Closes k e) :
    (Eval.skipBody (4 * k + 1) : Run _) m = .ok () (m.moved e) := by
  have hm : m.thread.cursor.skipBody (4 * k + 1) 0 =
      .ok e := Eq.trans (h.slides hd) he.skipBody
  simp only [Eval.skipBody, move, hm]
  rfl

end Lines

/-- Past what is left of a line, and lines that stand in enough bodies. -/
theorem skipBody_within (hs : Before ws q m b) (hw : Sealed ws) (hq : 4 * k + 1 ≤ q.column)
    (hl : ∀ m' : Machine, m'.thread.cursor = b → Lines rows p m' e) (hd : Deep k rows)
    (he : Closes k e) : (skipBody (4 * k + 1) : Run _) m = .ok () (m.moved e) := by
  have line : Slides (4 * k + 1) m.thread.cursor b :=
    slides_of_within (.here hs.crosses) hw hq
  have lines : Slides (4 * k + 1) b e := (hl (m.moved b) rfl).slides hd
  have hm : m.thread.cursor.skipBody (4 * k + 1) 0 =
      .ok e := Eq.trans (line.trans lines) he.skipBody
  simp only [skipBody, move, hm]
  rfl

/-- Past the colon at the end of a line. -/
theorem Before.endStatement (h : Before [.colon] p m d) :
    (Eval.endStatement : Run _) m = .ok () (m.moved d) := by
  obtain ⟨b, hb, hend⟩ := h.skipOver
  obtain rfl := hend.moved_eq
  exact bind_of_ok hb

/-- From the colon of a header into the body below it. -/
theorem enterBlock_run (hs : Before [.colon] q m b) (hq : q.line = p.line)
    (hb : OnLine (below p [r]) (k + 1) w b) :
    (enterBlock (4 * k + 1) : Run _) m = .ok () (m.moved b) := by
  obtain ⟨c, hc, hend⟩ := hs.advance
  obtain rfl : c = b := hend.moved_eq
  have stop : (Word.colon.token q).stop.line = p.line :=
    (line_of_mem_row (show Word.colon.token q ∈ row q [.colon] by simp [row])).2.trans hq
  have line : c.current.line ≠ (Word.colon.token q).stop.line := by
    rw [hb.line, stop, (below_one p r).1]
    omega
  have kind : c.kind ≠ .eof := hb.kind ▸ kind_ne_eof w
  have column : c.current.column = 4 * k + 1 + 4 := by
    rw [hb.column]
    omega
  rw [show Word.colon.kind = .colon from rfl] at hc
  refine (bind_of_ok hc).trans ?_
  show (do
    if c.kind ≠ .eof ∧ c.current.line = (Word.colon.token q).stop.line then
      malformed .tokenAfterHeader c.current
    if c.kind = .eof ∨ c.current.column ≠ 4 * k + 1 + 4 then
      malformed (.blockExpected (4 * k + 1 + 4)) c.current : Run Unit) (m.moved c) = _
  rw [if_neg fun h => line h.2, if_neg fun h => h.elim kind (absurd column)]
  rfl

/-! ### Settings -/

/-- The machine runs statements, outside of blueprints, with nothing to re-enter and nothing to pass
over, and with loops and a function around it as the setting says. -/
structure Live (S : Setting) (m : Machine) : Prop where
  skip : m.thread.skip = 0
  resume : m.thread.resume = []
  members : m.thread.mode.inBlueprint = false
  loops : m.thread.mode.loopDepth = 0 ↔ S.inLoop = false
  function : m.thread.mode.inFunction = S.inFunction

theorem Live.congr (h : Live S m) (hs : m'.thread.skip = m.thread.skip)
    (hr : m'.thread.resume = m.thread.resume) (hm : m'.thread.mode = m.thread.mode) : Live S m' :=
  ⟨hs.trans h.skip, hr.trans h.resume, hm ▸ h.members, hm ▸ h.loops, hm ▸ h.function⟩

theorem Live.reaches (h : Live S m) (hr : Reaches g m c m') : Live S m' :=
  h.congr hr.skip hr.resume hr.mode

/-! ### What statements and bodies come to -/

/-- What a signal carries is a scalar. -/
def Bare (s : Option Signal) : Prop := ∀ v ∈ s.toList.flatMap Signal.carried, v.scalar = true

/-- Begun in `m`, a statement in `k` bodies comes to what the tree has come to.  It ends before `e`, or
leaves its body from where skipping comes to the same place as from `e`, or ends with a failure. -/
inductive Carries (g : Scene) (k : Nat) (x : Supplied Interrupt Status) (m : Machine) (e : Cursor) :
    Except Halt (Option Signal) → Store → Prop
  | normal {σ : Store} (m' : Machine) (hx : Settles x m (.ok .normal m')) (mirrors : Mirrors g σ m')
      (reaches : Reaches g m e m') : Carries g k x m e (.ok none) σ
  | leaving {σ : Store} {s : Signal} (c : Cursor) (m' : Machine) (bare : Bare (some s))
      (hx : Settles x m (.ok (.leaving s) m')) (mirrors : Mirrors g σ m') (reaches : Reaches g m c m')
      (slides : Slides (4 * k + 1) c e) : Carries g k x m e (.ok (some s)) σ
  | raised {σ : Store} {r : Raised} (c : Cursor) (m' : Machine) (hr : r.value.scalar = true)
      (hx : Settles x m (.error (.raised r) m')) (mirrors : Mirrors g σ m') (reaches : Reaches g m c m')
      (slides : Slides (4 * k + 1) c e) : Carries g k x m e (.error (.raised r)) σ
  | failed {σ : Store} {f : Failure} (m' : Machine)
      (hx : Settles x m (.error (.fault (.failure f)) m')) (rooted : Rooted g σ m') :
      Carries g k x m e (.error (.failed f)) σ

/-- Begun in `m`, a body comes to what the tree has come to.  It ends before `e`, normally or with a
signal, or with a failure. -/
inductive Brings (g : Scene) (x : Supplied Fault Status) (m : Machine) (e : Cursor) :
    Except Halt (Option Signal) → Store → Prop
  | ends {σ : Store} {s : Option Signal} (m' : Machine) (bare : Bare s)
      (hx : Settles x m (.ok (.ofPending s) m')) (mirrors : Mirrors g σ m')
      (reaches : Reaches g m e m') : Brings g x m e (.ok s) σ
  | failed {σ : Store} {f : Failure} (m' : Machine) (hx : Settles x m (.error (.failure f) m'))
      (rooted : Rooted g σ m') : Brings g x m e (.error (.failed f)) σ

theorem bare_none : Bare none := nofun

theorem Brings.congr {x y : Supplied Fault Status} {o : Except Halt (Option Signal)}
    (h : Brings g y m₁ e o σ) (hx : Goes x m y m₁)
    (hr : ∀ {c m'}, Reaches g m₁ c m' → Reaches g m c m') : Brings g x m e o σ := by
  cases h with
  | ends m' bare hy mirrors reaches => exact .ends m' bare (hx _ hy) mirrors (hr reaches)
  | failed m' hy rooted => exact .failed m' (hx _ hy) rooted

section Carries

variable {α β : Type} {x y : Supplied Interrupt Status} {o : Except Halt (Option Signal)}

theorem Carries.congr (h : Carries g k y m₁ e o σ) (hx : Goes x m y m₁)
    (hr : ∀ {c m'}, Reaches g m₁ c m' → Reaches g m c m') : Carries g k x m e o σ := by
  cases h with
  | normal m' hy mirrors reaches => exact .normal m' (hx _ hy) mirrors (hr reaches)
  | leaving c m' bare hy mirrors reaches slides =>
    exact .leaving c m' bare (hx _ hy) mirrors (hr reaches) slides
  | raised c m' hs hy mirrors reaches slides =>
    exact .raised c m' hs (hx _ hy) mirrors (hr reaches) slides
  | failed m' hy rooted => exact .failed m' (hx _ hy) rooted

/-- The cursor moves first. -/
theorem Carries.moves (h : Carries g k y (m.moved b) e o σ)
    (hx : ∀ fuel n, x fuel n m = y fuel n (m.moved b)) : Carries g k x m e o σ :=
  h.congr (.congr hx) fun hr => (Reaches.refl g m b).trans hr

/-- What a body comes to, where the statement it is in ends with it. -/
theorem Carries.of_pending {s : Option Signal} (bare : Bare s)
    (hx : Settles x m (.ok (.ofPending s) m')) (mirrors : Mirrors g σ m')
    (reaches : Reaches g m e m') : Carries g k x m e (.ok s) σ := by
  cases s with
  | none => exact .normal m' hx mirrors reaches
  | some s => exact .leaving e m' bare hx mirrors reaches rfl

/-- A statement that begins with words that are evaluated. -/
theorem Carries.after {R : α → β → Prop} {z : Supplied Interrupt α} {y : α → Supplied Interrupt Status}
    {run : Course β} {f : β → Course (Option Signal)} (h : Obeys g R done z m q ws d run)
    (hm : m.thread.skip = 0) (hmirrors : Mirrors g σ m) (hrun : (run >>= f) σ = some (o, σ'))
    (hout : ∀ c, Within q ws c d → Slides (4 * k + 1) c e)
    (hk : ∀ a v m' σ₁, R a v → Mirrors g σ₁ m' → Reaches g m d m' → f v σ₁ = some (o, σ') →
      Carries g k (y a) m' e o σ') :
    Carries g k (fun fuel n => z fuel n >>= fun a => y a fuel n) m e o σ' := by
  rw [Course.run_bind] at hrun
  cases hr : run σ with
  | none =>
    rw [hr] at hrun
    contradiction
  | some r =>
    obtain ⟨r, σ₁⟩ := r
    rw [hr] at hrun
    -- the three ways in which the course may go, each mirrored by the run
    cases h.lands hm hmirrors hr with
    | value a m' hv hx mirrors reaches =>
      exact (hk a _ m' σ₁ hv mirrors reaches hrun).congr (.bind (hx _ (.of_eq fun _ _ => rfl)))
        fun hr => reaches.trans hr
    | raised c m' hs hx mirrors reaches within =>
      obtain ⟨rfl, rfl⟩ := Prod.mk.inj (Option.some.inj hrun)
      exact .raised c m' hs hx.stop mirrors reaches (hout c within)
    | failed m' hx rooted =>
      obtain ⟨rfl, rfl⟩ := Prod.mk.inj (Option.some.inj hrun)
      exact .failed m' hx.stop rooted

/-- A statement that begins with words whose value is kept. -/
theorem Carries.owned {x : Supplied Interrupt Held} {y : Value → Supplied Interrupt Status}
    {run : Course Value} {f : Value → Course (Option Signal)} (h : Obeys g IsValue done x m q ws d run)
    (hm : m.thread.skip = 0) (hmirrors : Mirrors g σ m) (hrun : (run >>= f) σ = some (o, σ'))
    (hout : ∀ c, Within q ws c d → Slides (4 * k + 1) c e)
    (hk : ∀ v m' σ₁, v.scalar = true → Mirrors g σ₁ m' → Reaches g m d m' →
      f v σ₁ = some (o, σ') → Carries g k (y v) m' e o σ') :
    Carries g k (fun fuel n => (do y (← own (← x fuel n)) fuel n : Eval Status)) m e o σ' := by
  refine .after (y := fun a fuel n => do y (← own a) fuel n) h hm hmirrors hrun hout
    fun a v m' σ₁ ha hm' hr hrun => ?_
  obtain ⟨rfl, hv⟩ := ha
  exact (hk _ m' σ₁ hv hm' hr hrun).congr (.congr fun _ _ => bind_of_ok (own_run hv)) id

/-- A statement that begins with a body. -/
theorem Carries.afterBody {z : Supplied Fault Status} {y : Status → Supplied Interrupt Status}
    {run : Course (Option Signal)} {f : Option Signal → Course (Option Signal)}
    (h : ∀ {o σ₁}, run σ = some (o, σ₁) → Brings g z m b o σ₁) (hrun : (run >>= f) σ = some (o, σ'))
    (hk : ∀ s m' σ₁, Bare s → Mirrors g σ₁ m' → Reaches g m b m' → f s σ₁ = some (o, σ') →
      Carries g k (y (.ofPending s)) m' e o σ') :
    Carries g k (fun fuel n => (do y (← z fuel n) fuel n : Eval Status)) m e o σ' := by
  rw [Course.run_bind] at hrun
  cases hr : run σ with
  | none =>
    rw [hr] at hrun
    contradiction
  | some r =>
    obtain ⟨r, σ₁⟩ := r
    rw [hr] at hrun
    cases h hr with
    | ends m' bare hx mirrors reaches =>
      exact (hk _ m' σ₁ bare mirrors reaches hrun).congr (.bind hx.lift) fun hr => reaches.trans hr
    | failed m' hx rooted =>
      obtain ⟨rfl, rfl⟩ := Prod.mk.inj (Option.some.inj hrun)
      exact .failed m' hx.lift_error.stop rooted

end Carries

/-! ### The statements of a body -/

/-- The statement the machine stands on. -/
def stating : Supplied Interrupt Status := fun fuel n => statement (jobs fuel) n

/-- The statements of a body in `k` other ones. -/
def running (k : Nat) : Supplied Fault Status := fun fuel n => statements (jobs fuel) (4 * k + 1) n

section Statements

variable {o : Except Halt (Option Signal)}

/-- Outside of coroutines a statement is run where it stands. -/
theorem enter_of_sync {j : Jobs} {n : Nat} {start : Position} (hr : m.thread.resume = [])
    (hm : m.thread.mode.inAsync = false) : enter j n start m = statement j n m := by
  have frame : (takeFrame start : Run _) m = .ok none m := by
    rw [takeFrame_run, hr]
  have reset : (resetTapeUnlessReplaying : Eval Unit) m = .ok () m := by
    show EStateM.Result.ok () { m with thread := if m.thread.mode.inAsync && _ then _ else m.thread } = _
    rw [hm]
    rfl
  refine (bind_of_ok (lift_of_ok frame)).trans ((bind_of_ok reset).trans ?_)
  exact bind_of_ok (lift_of_ok (takeCancellation_of_not_async hm))

theorem resetTape_of_sync {ε : Type} (hm : m.thread.mode.inAsync = false) :
    (resetTape : EStateM ε Machine Unit) m = .ok () m := by
  show EStateM.Result.ok () { m with thread := if m.thread.mode.inAsync then _ else m.thread } = _
  rw [hm]
  rfl

/-- A body goes on with the statement it stands on. -/
theorem running_goOn {j : Jobs} {n : Nat} (hk : m.thread.cursor.kind ≠ .colon)
    (he : m.thread.cursor.kind ≠ .eof) (hc : m.thread.cursor.current.column = 4 * k + 1)
    (hr : m.thread.resume = []) (hm : m.thread.mode.inAsync = false) :
    statements j (4 * k + 1) (n + 1) m =
      goOn (4 * k + 1) (statements j (4 * k + 1) n)
        (conclude m.thread.cursor.capture (statement j n)) m := by
  rw [statements_run j _ n (Cursor.skipColons_eq_self hk), if_neg he, if_neg (by omega),
    if_neg (by omega)]
  have run : execute j n m = conclude m.thread.cursor.capture (statement j n) m := by
    rw [execute_run j n hk, conclude_run, conclude_run, enter_of_sync hr hm]
  show EStateM.bind (execute j n) _ m = EStateM.bind (conclude _ (statement j n)) _ m
  simp only [EStateM.bind, run]

/-- The statement a body stands on, with what is done at its end. -/
def concluding (start : Position) : Supplied Fault Status := fun fuel n =>
  conclude start (statement (jobs fuel) n)

theorem Settles.concluding {start : Position} {status : Status} (hs : status ≠ .yielded)
    (hx : Settles stating m (.ok status m')) (hm : m'.thread.mode.inAsync = false) :
    Settles (Tree.concluding start) m (.ok status m') := by
  obtain ⟨enough, hx⟩ := hx
  refine ⟨enough, fun fuel n hf hn => (conclude_run _ _ _).trans ?_⟩
  rw [show statement (jobs fuel) n m = _ from hx fuel n hf hn]
  cases status with
  | yielded => contradiction
  | _ => exact bind_of_ok (resetTape_of_sync hm)

/-- An exception that a statement ends with leaves its body as a signal. -/
theorem Settles.concluding_raised {start : Position} {r : Raised}
    (hx : Settles stating m (.error (.raised r) m')) (hm : m'.thread.mode.inAsync = false) :
    Settles (Tree.concluding start) m (.ok (.leaving (.raised r)) m') := by
  obtain ⟨enough, hx⟩ := hx
  refine ⟨enough, fun fuel n hf hn => (conclude_run _ _ _).trans ?_⟩
  rw [show statement (jobs fuel) n m = _ from hx fuel n hf hn]
  exact bind_of_ok (resetTape_of_sync hm)

theorem Settles.concluding_fault {start : Position} {f : Fault}
    (hx : Settles stating m (.error (.fault f) m')) :
    Settles (Tree.concluding start) m (.error f m') := by
  obtain ⟨enough, hx⟩ := hx
  refine ⟨enough, fun fuel n hf hn => (conclude_run _ _ _).trans ?_⟩
  rw [show statement (jobs fuel) n m = _ from hx fuel n hf hn]

/-- A body is over where it may end. -/
theorem running_stops (h : Closes k m.thread.cursor) : Settles (running k) m (.ok .normal m) := by
  refine .round (y := fun _ _ => pure .normal) (.of_eq fun _ _ => rfl) fun fuel n => ?_
  have colons := Cursor.skipColons_eq_self h.kind_ne_colon
  refine (statements_run (jobs fuel) (4 * k + 1) n colons).trans ?_
  obtain h | ⟨⟨hl, hc⟩, -⟩ := h
  · rw [if_pos h]
    rfl
  · split
    · rfl
    · rw [if_pos ⟨hl, hc⟩]
      rfl

/-- What a body does with the end of a statement. -/
def goingOn (k : Nat) : Status → Supplied Fault Status
  | .normal => running k
  | .yielded => fun _ _ => pure .yielded
  | .leaving signal => fun _ _ => do
    skipBody (4 * k + 1)
    return .leaving signal

/-- A statement that a body stands on is run. -/
theorem goes_running (hw : OnLine p k w m.thread.cursor) (hk : w.kind ≠ .colon)
    (hr : m.thread.resume = []) (hm : m.thread.mode.inAsync = false) :
    Goes (running k) m
      (fun fuel n => concluding m.thread.cursor.capture fuel n >>= fun s => goingOn k s fuel n) m :=
  .round fun fuel n => by
    refine (running_goOn (hw.kind ▸ hk) (hw.kind ▸ kind_ne_eof w) hw.column hr hm).trans ?_
    refine congrFun (bind_congr fun status => ?_) m
    cases status <;> rfl

/-- The first statement of a body, and what is behind it. -/
theorem Brings.step {run : Course (Option Signal)} {f : Option Signal → Course (Option Signal)}
    (hw : OnLine p k w m.thread.cursor) (hk : w.kind ≠ .colon) (live : Live S m)
    (hmirrors : Mirrors g σ m)
    (h : ∀ {o σ₁}, run σ = some (o, σ₁) → Carries g k stating m b o σ₁)
    (hb : Slides (4 * k + 1) b e) (he : Closes k e)
    (hrun : (Course.caught run >>= f) σ = some (o, σ')) (hf : ∀ s, f (some s) = pure (some s))
    (hrest : ∀ m₁ σ₁, Mirrors g σ₁ m₁ → Reaches g m b m₁ → f none σ₁ = some (o, σ') →
      Brings g (running k) m₁ e o σ') : Brings g (running k) m e o σ' := by
  have sync := hmirrors.sync
  have goes := goes_running hw hk live.resume sync
  have left {s : Signal} {c : Cursor} {m' : Machine} {σ₁ : Store} (bare : Bare (some s))
      (hx : Settles (concluding m.thread.cursor.capture) m (.ok (.leaving s) m'))
      (mirrors : Mirrors g σ₁ m') (reaches : Reaches g m c m') (slides : Slides (4 * k + 1) c b)
      (hrun : f (some s) σ₁ = some (o, σ')) : Brings g (running k) m e o σ' := by
    -- whatever the place it is left from, the rest of the body is skipped to its end
    rw [hf] at hrun
    obtain ⟨rfl, rfl⟩ := Prod.mk.inj (Option.some.inj hrun)
    have skips : m'.thread.cursor.skipBody (4 * k + 1) 0 = .ok e := by
      rw [reaches.cursor]
      exact Eq.trans (slides.trans hb) he.skipBody
    have skipped : (skipBody (4 * k + 1) : Run _) m' = .ok () (m'.moved e) := by
      simp only [skipBody, move, skips]
      rfl
    have settles := hx.bind (k := goingOn k) (s := .ok (.leaving s) (m'.moved e))
      (.of_eq fun _ _ => bind_of_ok skipped)
    exact .ends _ bare (goes _ settles) (mirrors.moved e) (reaches.moved e)
  rw [Course.run_bind] at hrun
  cases hr : run σ with
  | none =>
    rw [show Course.caught run σ = none by rw [Course.caught, hr]] at hrun
    contradiction
  | some r =>
    obtain ⟨r, σ₁⟩ := r
    cases h hr with
    | normal m' hx mirrors reaches =>
      rw [show Course.caught run σ = some (.ok none, σ₁) by rw [Course.caught, hr]] at hrun
      have done : Status.normal ≠ .yielded := fun h => Status.noConfusion h
      have onward : Goes (running k) m (running k) m' := fun r hr =>
        goes r ((hx.concluding done mirrors.sync).bind (k := goingOn k) hr)
      exact (hrest m' σ₁ mirrors reaches hrun).congr onward fun hr => reaches.trans hr
    | leaving c m' bare hx mirrors reaches slides =>
      rw [show Course.caught run σ = some (.ok (some _), σ₁) by rw [Course.caught, hr]] at hrun
      exact left bare (hx.concluding (fun h => Status.noConfusion h) mirrors.sync) mirrors reaches slides hrun
    | raised c m' hs hx mirrors reaches slides =>
      rw [show Course.caught run σ = some (.ok (some (.raised _)), σ₁) by
        rw [Course.caught, hr]] at hrun
      refine left ?_ (hx.concluding_raised mirrors.sync) mirrors reaches slides hrun
      exact List.forall_mem_singleton.2 hs
    | failed m' hx rooted =>
      rw [show Course.caught run σ = some (.error (.failed _), σ₁) by
        rw [Course.caught, hr]] at hrun
      obtain ⟨rfl, rfl⟩ := Prod.mk.inj (Option.some.inj hrun)
      exact .failed m' (goes _ (hx.concluding_fault.stop)) rooted

end Statements

end Rewind.Tree
