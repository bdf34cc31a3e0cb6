/-
Loops are run as their trees.

A loop goes back to its condition or to the first line of its body, so that it ends on any of its
lines, and moves behind its body then.  A loop over integers has a scope of its own, which is left
however the loop ends.

* `carries_cycling`, `carries_while` — the rounds of a loop with a condition, and the loop;
* `carries_counting`, `carries_range` — the rounds of a loop over integers, and the loop.
-/
import Rewind.Proofs.Blocks

namespace Rewind.Tree

open Eval

variable {g : Scene} {S : Setting} {σ σ' : Store} {m m' : Machine} {b c d e : Cursor}
  {p q : Position} {k : Nat} {us vs ws : List Word} {w : Word} {rest : List Row} {t : Term}
  {o : Except Halt (Option Signal)}

/-- The machine inside one more loop. -/
def looping (m : Machine) : Machine :=
  { m with thread := { m.thread with
    mode := { m.thread.mode with loopDepth := m.thread.mode.loopDepth + 1 } } }

theorem Live.looping (h : Live S m) : Live { S with inLoop := true } (looping m) :=
  ⟨h.skip, h.resume, h.members, ⟨nofun, nofun⟩, h.function⟩

theorem Mirrors.looping (h : Mirrors g σ m) : Mirrors g σ (looping m) :=
  h.congr rfl rfl rfl rfl rfl rfl rfl

theorem Mirrors.leave (h : Mirrors g σ m) : Mirrors g σ (inLoop.leave m) :=
  h.congr rfl rfl rfl rfl rfl rfl rfl

theorem Reaches.leave (h : Reaches g (looping m) c m') : Reaches g m c (inLoop.leave m') := by
  refine ⟨?_, h.size, h.scopes, h.parents, h.functions⟩
  rw [h.rest]
  rfl

/-- A loop has one more loop around its rounds, and it is left with them. -/
theorem Carries.inLoop {x : Supplied Interrupt Status} (h : Carries g k x (looping m) e o σ) :
    Carries g k (fun fuel n => Eval.inLoop (x fuel n)) m e o σ := by
  have enter (x : Eval Status) : (do
      modifyMode fun mode => { mode with loopDepth := mode.loopDepth + 1 }
      x : Eval Status) m = x (looping m) := rfl
  have ok {a : Status} {m' : Machine} (hx : Settles x (looping m) (.ok a m')) :
      Settles (fun fuel n => Eval.inLoop (x fuel n)) m (.ok a (inLoop.leave m')) := by
    obtain ⟨enough, hx⟩ := hx
    refine ⟨enough, fun fuel n hf hn => ?_⟩
    simp only [Eval.inLoop, enter, hx fuel n hf hn]
  have error {i : Interrupt} {m' : Machine} (hx : Settles x (looping m) (.error i m')) :
      Settles (fun fuel n => Eval.inLoop (x fuel n)) m (.error i (inLoop.leave m')) := by
    obtain ⟨enough, hx⟩ := hx
    refine ⟨enough, fun fuel n hf hn => ?_⟩
    simp only [Eval.inLoop, enter, hx fuel n hf hn]
  cases h with
  | normal m' hx mirrors reaches => exact .normal _ (ok hx) mirrors.leave reaches.leave
  | leaving c m' bare hx mirrors reaches slides =>
    exact .leaving c _ bare (ok hx) mirrors.leave reaches.leave slides
  | raised c m' hr hx mirrors reaches slides =>
    exact .raised c _ hr (error hx) mirrors.leave reaches.leave slides
  | failed m' hx rooted => exact .failed _ (error hx) { rooted with }

/-- The rounds of a loop with a condition. -/
def cycling (k : Nat) (header : Position) : Supplied Interrupt Status := fun fuel n =>
  Eval.whileRounds (jobs fuel) (4 * k + 1) header n

/-- What a loop with a condition does with the end of its body. -/
def turning (k : Nat) (header : Position) (status : Status) : Supplied Interrupt Status :=
  fun fuel n =>
    match status with
    | .normal | .leaving .again => cycling k header fuel n
    | .yielded => park (.whileLoop header)
    | .leaving .stop => return .normal
    | status => return status

/-- A body of a loop, and what is behind it. -/
theorem carries_round {body : Block} {inner : Cursor} {header : Position}
    {again : Course (Option Signal)} (h : Opening k ws body [] p m e inner e)
    (hbody : body.Simulated g) (hh : Honours g S.apply) (live : Live S m') (hm : Mirrors g σ m')
    (hc : m'.thread.cursor = inner)
    (hrun : (do
      match ← body.exec S (k + 1) (below p [⟨k, ws⟩]) with
      | none | some .again => again
      | some .stop => return none
      | some s => return some s : Course (Option Signal)) σ = some (o, σ'))
    (hagain : ∀ m₁ σ₁, Mirrors g σ₁ m₁ → Reaches g m' e m₁ → again σ₁ = some (o, σ') →
      Carries g k (cycling k header) m₁ e o σ') :
    Carries g k (fun fuel n => whileRound header (cycling k header fuel n) (bodyJob k fuel n)) m' e o
      σ' := by
  refine (Carries.afterBody (y := turning k header) (h.brings hbody hh live hm hc) hrun
    fun s m₁ σ₁ bare hm₁ hr hrun => ?_).congr (.congr fun fuel n => ?_) id
  · have here : Reaches g m₁ e m₁ := by
      rw [← hr.cursor]
      exact .refl g m₁ _
    cases s with
    | none => exact hagain m₁ σ₁ hm₁ hr hrun
    | some s =>
      cases s with
      | again => exact hagain m₁ σ₁ hm₁ hr hrun
      | stop =>
        obtain ⟨rfl, rfl⟩ := Prod.mk.inj (Option.some.inj hrun)
        exact .normal m₁ (.of_eq fun _ _ => rfl) hm₁ here
      | result | raised =>
        obtain ⟨rfl, rfl⟩ := Prod.mk.inj (Option.some.inj hrun)
        exact .leaving e m₁ bare (.of_eq fun _ _ => rfl) hm₁ here rfl
  · refine congrFun (bind_congr fun status => ?_) m'
    -- `break` ends the loop and is gone; what ends the body otherwise goes on outside
    obtain _ | _ | (_ | _ | _ | _) := status <;> rfl

/-- What a loop makes of the value of its condition, which stands at `site`. -/
def checking (k : Nat) (site : Token) : Value → Eval Bool
  | .bool proceed => do
    enterBlock (4 * k + 1)
    return proceed
  | other => complain (.conditionNotBoolean other.kind) site

/-- What a loop does behind its condition. -/
def proceeding (k : Nat) (header : Position) (site : Token) (a : Held) : Supplied Interrupt Status :=
  fun fuel n => do
    if ← checking k site a.value then whileRound header (cycling k header fuel n) (bodyJob k fuel n)
    else
      skipBody (4 * k + 1 + 4)
      return .normal

/-- A round begins with the condition. -/
theorem cycling_round {header : Position} {site : Token} (h₁ : (rewind header : Run _) m = .ok () m')
    (hm : m'.thread.mode.inAsync = false) (hs : m'.thread.cursor.current = site) (fuel n : Nat) :
    cycling k header fuel (n + 1) m = (do
      proceeding k header site (← (jobs fuel).expression) fuel n : Eval Status) m' := by
  have reset : (resetTapeUnlessReplaying : Eval Unit) m' = .ok () m' := by
    show EStateM.Result.ok ()
      { m' with thread := if m'.thread.mode.inAsync && _ then _ else m'.thread } = _
    rw [hm]
    rfl
  have condition : (whileCondition (jobs fuel) (4 * k + 1) header : Eval Bool) m = (do
      checking k site (← (jobs fuel).expression).value : Eval Bool) m' := by
    refine (bind_of_ok (lift_of_ok h₁)).trans ((bind_of_ok reset).trans ?_)
    rw [← hs]
    show EStateM.bind (jobs fuel).expression _ m' = EStateM.bind (jobs fuel).expression _ m'
    simp only [EStateM.bind]
    cases (jobs fuel).expression m' with
    | ok a m => cases ha : a.value <;> simp only [ha] <;> rfl
    | error => rfl
  show EStateM.bind (whileCondition (jobs fuel) (4 * k + 1) header) _ m =
    EStateM.bind (jobs fuel).expression (fun a => EStateM.bind (checking k site a.value) _) m'
  simp only [EStateM.bind, condition, Bind.bind]
  cases (jobs fuel).expression m' <;> rfl

/-- The words before the condition of a loop. -/
def whileWords : List Word := [.loop, .colon, .while]

/-- The rounds of a loop with a condition, from any place of its text: by induction on how many there
are in the tree. -/
theorem carries_cycling {c : Term} {body : Block} {inner : Cursor} {m₀ : Machine}
    (h : Opening k (whileWords ++ c.words) body [] p m e inner e) (hbody : body.Simulated g)
    (hh : Honours g S.apply)
    (hs : Before (c.words ++ [.colon]) ((indented p k).past whileWords) m₀ inner)
    (rounds : Nat) {m₁ : Machine} {σ : Store}
    (hsource : m₁.thread.cursor.source = m₀.thread.cursor.source) (live : Live S m₁)
    (hm : Mirrors g σ m₁)
    (hrun : Tree.whileRounds ((indented p k).past whileWords)
      (c.eval S.apply ((indented p k).past whileWords))
      (body.exec S (k + 1) (below p [⟨k, whileWords ++ c.words⟩])) rounds σ = some (o, σ')) :
    Carries g k (cycling k m₀.thread.cursor.capture) m₁ e o σ' := by
  induction rounds generalizing m₁ σ with
  | zero => contradiction
  | succ rounds ih =>
    -- the condition is read from its first word again, wherever the last round has ended
    obtain ⟨b, hb, hback⟩ := hs.back (by simp) hsource
    obtain ⟨d, hd, hcolon, hterm⟩ := hback.term (t := c) hh (by decide)
    obtain ⟨w, us, hw⟩ := List.exists_cons_of_ne_nil c.words_ne_nil
    have site : b.current = w.token ((indented p k).past whileWords) := by
      rw [hw] at hback
      exact hback.current
    have place (x : Cursor) (hx : Within ((indented p k).past whileWords) c.words x d) :
        Slides (4 * k + 1) x e := h.slides x (hx.between _ hd)
    refine (Carries.after (y := proceeding k m₀.thread.cursor.capture b.current) (hterm (m₁.moved b) rfl)
      live.skip (hm.moved b) hrun place fun a v m' σ₁ ha hm' hr hrun => ?_).congr
      (.round fun fuel n => cycling_round hb hm.sync rfl fuel n) (Reaches.refl g m₁ b).trans
    obtain ⟨rfl, hv⟩ := ha
    have live' : Live S m' := live.congr hr.skip hr.resume hr.mode
    have entered := h.enter (hcolon m' hr.cursor) (by simp)
    cases value : a.value with
    | bool proceed =>
      have checked : (checking k b.current a.value : Eval Bool) m' = .ok proceed (m'.moved inner) := by
        rw [value]
        exact bind_of_ok (lift_of_ok entered)
      have steps (fuel n : Nat) :
          proceeding k m₀.thread.cursor.capture b.current a fuel n m' = _ := bind_of_ok checked
      refine Carries.moves (b := inner) ?_ steps
      rw [value] at hrun
      cases proceed with
      | false =>
        obtain ⟨rfl, rfl⟩ := Prod.mk.inj (Option.some.inj hrun)
        have passed := h.skipBody (m'.moved inner) rfl
        exact .normal _ (.of_eq fun _ _ => bind_of_ok (lift_of_ok passed)) (hm'.moved e)
          (.refl g (m'.moved inner) e)
      | true =>
        refine carries_round h hbody hh (live'.congr rfl rfl rfl) (hm'.moved inner) rfl hrun
          fun m₂ σ₂ hm₂ hr₂ hrun₂ => ?_
        refine ih ?_ ((live'.congr rfl rfl rfl : Live S (m'.moved inner)).reaches hr₂) hm₂ hrun₂
        rw [hr₂.cursor]
        exact (h.lines ((default : Machine).moved inner) rfl).source_eq.trans hs.source_eq
    | _ =>
      -- any other value is complained about at the first word of the condition
      rw [value] at hrun
      obtain ⟨rfl, rfl⟩ := Prod.mk.inj (Option.some.inj hrun)
      have here : Reaches g m' d m' := by
        rw [← hr.cursor]
        exact .refl g m' _
      refine .raised d m' rfl (.of_eq fun fuel n => ?_) hm' here (place d (.behind _ _ d))
      simp only [proceeding, value, site]
      rfl

theorem carries_while {c : Term} {body : Block} (hbody : body.Simulated g) (hh : Honours g S.apply)
    (he : Borders k e) (hl : Lines ((Statement.whileLoop c body).rows k) p m e) (live : Live S m)
    (hm : Mirrors g σ m) (hrun : (Statement.whileLoop c body).exec S k p σ = some (o, σ')) :
    Carries g k stating m e o σ' := by
  obtain ⟨inner, opening⟩ := Lines.opening_last hl
    ((sealed_of_all rfl).append c.sealed_words) he
  have header := opening.header
  rw [List.append_assoc] at header
  obtain ⟨b, hus, -, hbehind⟩ := header.split whileWords
  obtain ⟨c₁, h₁, hs₁⟩ := hus.bump
  obtain ⟨c₂, h₂, hs₂⟩ := hs₁.advance
  obtain ⟨c₃, h₃, hs₃⟩ := hs₂.bump
  obtain rfl : c₃ = b := hs₃.moved_eq
  -- the mark that the body goes back to stands in front of the condition
  have rounds := carries_cycling opening hbody (S := { S with inLoop := true }) hh
    (hbehind (m.moved c₃) rfl) S.rounds (by rfl)
    (live.congr rfl rfl rfl : Live S (m.moved c₃)).looping (hm.moved c₃).looping hrun
  refine rounds.inLoop.moves fun fuel n => ?_
  have kind : m.thread.cursor.current.kind = .kwLoop := header.kind
  have column : (Word.loop.token (indented p k)).column = 4 * k + 1 := (indented_eq hl.column k).2.1
  have run : statement (jobs fuel) n m = loopStatement (jobs fuel) n m := by
    simp only [statement, Bind.bind, EStateM.bind, current, mode, live.members, Bool.false_and,
      Bool.false_eq_true, if_false, kind]
  have kinds : (Eval.kind : Eval _) (m.moved c₂) = .ok .kwWhile (m.moved c₂) :=
    congrArg (EStateM.Result.ok · _) hs₂.kind
  refine run.trans ((bind_of_ok (lift_of_ok h₁)).trans ((bind_of_ok (lift_of_ok h₂)).trans
    ((bind_of_ok kinds).trans ((bind_of_ok (lift_of_ok h₃)).trans ?_))))
  rw [column]
  rfl

/-- The rounds of a loop over integers. -/
def counting (k : Nat) (l : RangeLoop) : Supplied Interrupt Status := fun fuel n =>
  Eval.rangeRounds (jobs fuel) (4 * k + 1) n l

/-- The scope of a loop is left, and the machine is behind its body. -/
theorem leaveLoop_run {body : Block} {inner : Cursor} {σ₂ : Store} {m₂ : Machine}
    (h : Opening k ws body [] p m' e inner e) (hm : Mirrors g σ m) (hm₂ : Mirrors g σ₂ m₂)
    (hr : Reaches g (Tree.inner m) c m₂) (hc : c.source = inner.source) :
    ∃ m₃, (leaveLoop (4 * k + 1) inner.capture : Eval Unit) m₂ = .ok () m₃ ∧
      Mirrors g { σ₂ with locals := σ₂.locals.tail } m₃ ∧ Reaches g m e m₃ := by
  obtain ⟨m₃, pop, hm₃, hr₃⟩ := hm.popScope hm₂ hr
  have lines := h.lines (m₂.moved inner) rfl
  obtain ⟨b, hb, hback⟩ := lines.back (body.rows_ne_nil _) (by rw [hr₃.cursor]; exact hc)
  have passed := hback.skipBody (body.deep_rows _) h.closes
  exact ⟨_, (bind_of_ok pop).trans ((bind_of_ok (lift_of_ok hb)).trans (lift_of_ok passed)),
    hm₃.moved e, hr₃.moved e⟩

theorem carries_leaveLoop {body : Block} {inner : Cursor} {s : Option Signal} {σ₂ : Store}
    {m₂ : Machine} {x : Supplied Interrupt Status} (h : Opening k ws body [] p m' e inner e)
    (bare : Bare s) (hx : Goes x m (fun _ _ => do
      leaveLoop (4 * k + 1) inner.capture
      return .ofPending s) m₂) (hm : Mirrors g σ m) (hm₂ : Mirrors g σ₂ m₂)
    (hr : Reaches g (Tree.inner m) c m₂) (hc : c.source = inner.source) :
    Carries g k x m e (.ok s) { σ₂ with locals := σ₂.locals.tail } := by
  obtain ⟨m₃, left, hm₃, hr₃⟩ := leaveLoop_run h hm hm₂ hr hc
  exact .of_pending bare (hx _ (.of_eq fun _ _ => bind_of_ok left)) hm₃ hr₃

/-- What a loop over integers does with the end of its body. -/
def counted (k : Nat) (l : RangeLoop) (status : Status) : Supplied Interrupt Status := fun fuel n =>
  match status with
  | .normal | .leaving .again =>
    match l.advance? with
    | some l => counting k l fuel n
    | none => do
      leaveLoop (4 * k + 1) l.body
      return .normal
  | .yielded => park (.rangeLoop l)
  | .leaving .stop => do
    leaveLoop (4 * k + 1) l.body
    return .normal
  | status => do
    leaveLoop (4 * k + 1) l.body
    return status

/-- A round that is begun: the number is bound, and the body run. -/
theorem counting_round {l : RangeLoop} {m₁ m₂ : Machine} {b : Cursor} (hl : l.continues = true)
    (hd : (define l.var l.current : Eval Unit) m₁ = .ok () m₂)
    (hb : (rewind l.body : Run _) m₂ = .ok () (m₂.moved b)) (fuel n : Nat) :
    counting k l fuel (n + 1) m₁ = (do
      counted k l (← bodyJob k fuel n) fuel n : Eval Status) (m₂.moved b) := by
  have round : counting k l fuel (n + 1) m₁ =
      rangeRound (4 * k + 1) l (fun l => counting k l fuel n) (bodyJob k fuel n) (m₂.moved b) := by
    show (if (!l.continues) = true then _ else _ : Eval Status) m₁ = _
    rw [hl, if_neg (by simp)]
    exact (bind_of_ok hd).trans (bind_of_ok (lift_of_ok hb))
  refine round.trans (congrFun (bind_congr fun status => ?_) _)
  obtain _ | _ | (_ | _ | _ | _) := status <;> rfl

/-- Behind a round comes the next one, if its number fits, or the loop is left. -/
theorem carries_counted {x : String} {i last step : Int} {body : Block} {inner : Cursor}
    {s : Option Signal} {m₃ : Machine} {σ₂ σ₃ : Store} {X : Supplied Interrupt Status}
    {again : Course (Option Signal)} (h : Opening k ws body [] p m' e inner e)
    (hrun : (match s with
      | none | some .again =>
        if minInt ≤ i + step ∧ i + step ≤ maxInt then again else return none
      | some .stop => return none
      | some s => return some s : Course (Option Signal)) σ₃ = some (o, σ₂)) (bare : Bare s)
    (hm : Mirrors g σ m) (hm₃ : Mirrors g σ₃ m₃) (hr : Reaches g (Tree.inner m) e m₃)
    (hx : Goes X m (counted k ⟨x, .int i, .int last, .int step, inner.capture⟩ (.ofPending s)) m₃)
    (hagain : Goes X m (counting k ⟨x, .int (i + step), .int last, .int step, inner.capture⟩) m₃ →
      again σ₃ = some (o, σ₂) → Carries g k X m e o { σ₂ with locals := σ₂.locals.tail }) :
    Carries g k X m e o { σ₂ with locals := σ₂.locals.tail } := by
  have source : e.source = inner.source := (h.lines ((default : Machine).moved inner) rfl).source_eq
  -- after a round that ends of its own accord or by `continue` the number is raised, if it can be
  have next (hs : s = none ∨ s = some .again) (hrun : (if minInt ≤ i + step ∧ i + step ≤ maxInt then
      again else return none : Course (Option Signal)) σ₃ = some (o, σ₂)) :
      Carries g k X m e o { σ₂ with locals := σ₂.locals.tail } := by
    by_cases fits : minInt ≤ i + step ∧ i + step ≤ maxInt
    · rw [if_pos fits] at hrun
      refine hagain (hx.trans (.congr fun fuel n => ?_)) hrun
      obtain rfl | rfl := hs <;> simp only [counted, Status.ofPending, RangeLoop.advance?, if_pos fits]
    · rw [if_neg fits] at hrun
      obtain ⟨rfl, rfl⟩ := Prod.mk.inj (Option.some.inj hrun)
      refine carries_leaveLoop h bare_none (hx.trans (.congr fun fuel n => ?_)) hm hm₃ hr source
      obtain rfl | rfl := hs <;>
        simp only [counted, Status.ofPending, RangeLoop.advance?, if_neg fits]
  cases s with
  | none => exact next (.inl rfl) hrun
  | some s =>
    cases s with
    | again => exact next (.inr rfl) hrun
    -- any other signal leaves the loop
    | stop =>
      obtain ⟨rfl, rfl⟩ := Prod.mk.inj (Option.some.inj hrun)
      exact carries_leaveLoop h bare_none hx hm hm₃ hr source
    | result | raised =>
      obtain ⟨rfl, rfl⟩ := Prod.mk.inj (Option.some.inj hrun)
      exact carries_leaveLoop h bare hx hm hm₃ hr source

/-- The rounds of a loop over integers, begun in the scope made for it: by induction on how many there
are in the tree.  Whatever goes on as they do comes behind the loop, with the scope left again. -/
theorem carries_counting {x : Identifier} {last step : Int} {body : Block} {inner : Cursor}
    {X : Supplied Interrupt Status} (h : Opening k ws body [] p m' e inner e)
    (hbody : body.Simulated g) (hh : Honours g S.apply) (live : Live S m) (hm : Mirrors g σ m)
    (rounds : Nat) {i : Int} {c : Cursor} {m₁ : Machine} {σ₁ σ₂ : Store}
    (hx : Goes X m (counting k ⟨x.text, .int i, .int last, .int step, inner.capture⟩) m₁)
    (hr : Reaches g (Tree.inner m) c m₁) (hc : c.source = inner.source) (hm₁ : Mirrors g σ₁ m₁)
    (hrun : Tree.countRounds x.text last step (body.exec S (k + 1) (below p [⟨k, ws⟩])) rounds i σ₁ =
      some (o, σ₂)) :
    Carries g k X m e o { σ₂ with locals := σ₂.locals.tail } := by
  induction rounds generalizing i c m₁ σ₁ with
  | zero => contradiction
  | succ rounds ih =>
    let l : RangeLoop := ⟨x.text, .int i, .int last, .int step, inner.capture⟩
    have continues : l.continues = decide (if 0 < step then i ≤ last else last ≤ i) := by
      simp only [l, RangeLoop.continues]
      split <;> rfl
    by_cases hgo : if 0 < step then i ≤ last else last ≤ i
    · -- the number of the round is bound in the scope of the loop, and the body is run from its start
      obtain ⟨m₂, define, hm₂, hr₂⟩ :=
        hm₁.define (b := .scalar (.int i)) (v := .int i) ⟨rfl, rfl⟩ x.text
      have source : m₂.thread.cursor.source = inner.source := by
        rw [hr₂.cursor, hr.cursor, hc]
      obtain ⟨b, hb, hback⟩ :=
        (h.lines (m₂.moved inner) rfl).back (body.rows_ne_nil _) source
      have goes : Goes X m (fun fuel n => (do
          counted k l (← bodyJob k fuel n) fuel n : Eval Status)) (m₂.moved b) :=
        hx.trans (.round fun fuel n =>
          counting_round (continues.trans (decide_eq_true hgo)) define hb fuel n)
      have reaches : Reaches g (Tree.inner m) b (m₂.moved b) := (hr.trans hr₂).moved b
      have live₂ : Live S (m₂.moved b) :=
        (live.congr rfl rfl rfl : Live S (Tree.inner m)).reaches reaches
      rw [Tree.countRounds, if_pos hgo] at hrun
      change (body.exec S (k + 1) (below p [⟨k, ws⟩]) >>= _)
        (σ₁.define x.text (.scalar (.int i))) = _ at hrun
      rw [Course.run_bind] at hrun
      cases hbodyrun : body.exec S (k + 1) (below p [⟨k, ws⟩])
          (σ₁.define x.text (.scalar (.int i))) with
      | none =>
        rw [hbodyrun] at hrun
        contradiction
      | some r =>
        obtain ⟨r, σ₃⟩ := r
        rw [hbodyrun] at hrun
        cases (hbody hh hback h.closes live₂ (hm₂.moved b) hbodyrun).job live₂.resume with
        | failed m₃ hy rooted =>
          -- the scope of the loop is not left: only the outermost one is said to stay as it is
          obtain ⟨rfl, rfl⟩ := Prod.mk.inj (Option.some.inj hrun)
          exact .failed m₃ (goes _ hy.lift_error.stop) { rooted with }
        | ends m₃ bare hy hm₃ hr₃ =>
          refine carries_counted h hrun bare hm hm₃ (reaches.trans hr₃) (goes.trans (.bind hy.lift))
            fun hx hrun => ?_
          have source₃ : e.source = inner.source := (h.lines (m₂.moved inner) rfl).source_eq
          exact ih hx (reaches.trans hr₃) source₃ hm₃ hrun
    · rw [Tree.countRounds, if_neg hgo] at hrun
      obtain ⟨rfl, rfl⟩ := Prod.mk.inj (Option.some.inj hrun)
      refine carries_leaveLoop h bare_none (hx.trans (.round fun fuel n => ?_)) hm hm₁ hr hc
      show (if (!l.continues) = true then _ else _ : Eval Status) m₁ = _
      rw [continues, decide_eq_false hgo, if_pos (by simp)]
      rfl

/-! ### The bounds of a loop -/

/-- What a loop over numbers does behind its bounds, the first of which stands at `site`. -/
def started (k : Nat) (x : String) (site : Token) (first last step : Value) :
    Supplied Interrupt Status := fun fuel n => do
  enterBlock (4 * k + 1)
  checkBounds first last step site
  let l := { var := x, current := first, last, step, body := ← capture }
  pushScope
  Eval.inLoop (counting k l fuel n)

/-- What a loop over numbers does behind its second bound. -/
def stepping (k : Nat) (x : String) (site : Token) (first last : Value) : Supplied Interrupt Status :=
  fun fuel n => do
    let step ←
      if ← skipOver .kwStep then own (← holding [first, last] (jobs fuel).expression)
      else pure (.int 1)
    started k x site first last step fuel n

/-- What a loop over numbers does behind its first bound. -/
def limiting (k : Nat) (x : String) (site : Token) (first : Value) : Supplied Interrupt Status :=
  fun fuel n => do
    let _ ← advance .kwTo
    stepping k x site first (← own (← holding [first] (jobs fuel).expression)) fuel n

/-- The check of the bounds stops at the first one that is no number, and at a step of zero. -/
theorem checkBounds_run (first last step : Value) (site : Token) (m : Machine) :
    (checkBounds first last step site : Eval Unit) m =
      match [first, last, step].find? (·.number?.isNone) with
      | some v => complain (.boundNotNumber v.kind) site m
      | none => (if step.isZero then complain .zeroStep site else pure () : Eval Unit) m := by
  have check : (checkBounds first last step site : Eval Unit) = (do
      for bound in [first, last, step] do
        if bound.number?.isNone then complain (.boundNotNumber bound.kind) site
      (if step.isZero then complain .zeroStep site else pure () : Eval Unit)) := rfl
  rw [check]
  generalize [first, last, step] = bounds
  induction bounds with
  | nil => rfl
  | cons bound bounds ih =>
    rw [List.forIn_cons]
    cases hb : bound.number?.isNone with
    | true =>
      rw [List.find?_cons_of_pos (p := fun v : Value => v.number?.isNone) hb, if_pos rfl]
      rfl
    | false =>
      rw [List.find?_cons_of_neg (p := fun v : Value => v.number?.isNone) (by simp [hb]),
        if_neg (by simp), ← ih]
      rfl

/-- Bounds that the tree takes as integers are let through; others end with the same exception. -/
theorem integerBounds_run {first last step : Value} {site : Token} (hs : site.start = q)
    {r : Except Halt (Int × Int × Int)} (hrun : integerBounds q first last step σ = some (r, σ'))
    (m : Machine) :
    σ' = σ ∧ ((∃ a b c, first = .int a ∧ last = .int b ∧ step = .int c ∧ r = .ok (a, b, c) ∧
        (checkBounds first last step site : Eval Unit) m = .ok () m) ∨
      ∃ i, i.value.scalar = true ∧ r = .error (.raised i) ∧
        (checkBounds first last step site : Eval Unit) m = .error (.raised i) m) := by
  subst hs
  rw [checkBounds_run]
  unfold integerBounds at hrun
  -- the first of the three that is no number is complained of
  cases hv : [first, last, step].find? (·.number?.isNone) with
  | some v =>
    rw [hv] at hrun
    obtain ⟨rfl, rfl⟩ := Prod.mk.inj (Option.some.inj hrun)
    exact ⟨rfl, .inr ⟨_, rfl, rfl, rfl⟩⟩
  | none =>
    rw [hv] at hrun
    dsimp only at hrun
    split at hrun
    case h_1 a b c =>
      by_cases hc : c = 0
      · rw [if_pos hc] at hrun
        subst hc
        obtain ⟨rfl, rfl⟩ := Prod.mk.inj (Option.some.inj hrun)
        exact ⟨rfl, .inr ⟨_, rfl, rfl, rfl⟩⟩
      · rw [if_neg hc] at hrun
        obtain ⟨rfl, rfl⟩ := Prod.mk.inj (Option.some.inj hrun)
        have nonzero : (Value.int c).isZero = false := beq_false_of_ne hc
        exact ⟨rfl, .inl ⟨a, b, c, rfl, rfl, rfl, rfl, by rw [nonzero]; rfl⟩⟩
    case h_2 => contradiction

/-- The rounds of a loop over integers, in a scope of their own. -/
theorem carries_rounds {x : Identifier} {i last step : Int} {body : Block} {inner : Cursor}
    (h : Opening k ws body [] p m' e inner e) (hbody : body.Simulated g) (hh : Honours g S.apply)
    (live : Live S m) (hm : Mirrors g σ m) (hc : m.thread.cursor = inner)
    (hrun : Course.nested (Tree.countRounds x.text last step
      (body.exec { S with inLoop := true } (k + 1) (below p [⟨k, ws⟩])) S.rounds i) σ =
        some (o, σ')) :
    Carries g k (fun fuel n => do
      pushScope
      Eval.inLoop (counting k ⟨x.text, .int i, .int last, .int step, inner.capture⟩ fuel n)) m e o
      σ' := by
  obtain ⟨⟨o, σ₂⟩, hrounds, hr⟩ := Option.map_eq_some_iff.1 hrun
  obtain ⟨rfl, rfl⟩ := Prod.mk.inj hr
  let rounds : Supplied Interrupt Status := fun fuel n => do
    pushScope
    counting k ⟨x.text, .int i, .int last, .int step, inner.capture⟩ fuel n
  have carries : Carries g k rounds (looping m) e o { σ₂ with locals := σ₂.locals.tail } := by
    have reaches : Reaches g (Tree.inner (looping m)) inner (Tree.inner (looping m)) := by
      subst hc
      exact .refl g _ _
    exact carries_counting h hbody (S := { S with inLoop := true }) hh live.looping hm.looping S.rounds
      (.congr fun _ _ => rfl) reaches rfl hm.looping.inner hrounds
  exact carries.inLoop.congr (.congr fun _ _ => rfl) id

theorem carries_started {x : Identifier} {site : Token} {first last step : Value} {body : Block}
    {inner : Cursor} (h : Opening k ws body [] p m' e inner e) (hbody : body.Simulated g)
    (hh : Honours g S.apply) (live : Live S m) (hm : Mirrors g σ m)
    (hs : Before [.colon] q m inner) (hq : q.line = p.line)
    (hrun : (do
      let (a, b, c) ← integerBounds site.start first last step
      Course.nested (Tree.countRounds x.text b c
        (body.exec { S with inLoop := true } (k + 1) (below p [⟨k, ws⟩])) S.rounds a) :
          Course (Option Signal)) σ = some (o, σ')) :
    Carries g k (started k x.text site first last step) m e o σ' := by
  have entered := h.enter hs hq
  refine Carries.moves (b := inner) (y := fun fuel n => do
    checkBounds first last step site
    let l := { var := x.text, current := first, last, step, body := ← capture }
    pushScope
    Eval.inLoop (counting k l fuel n)) ?_ fun fuel n => bind_of_ok (lift_of_ok entered)
  rw [Course.run_bind] at hrun
  cases hr : integerBounds site.start first last step σ with
  | none =>
    rw [hr] at hrun
    contradiction
  | some r =>
    obtain ⟨r, σ₁⟩ := r
    rw [hr] at hrun
    obtain ⟨rfl, ⟨a, b, c, rfl, rfl, rfl, rfl, checked⟩ | ⟨i, hi, rfl, checked⟩⟩ :=
      integerBounds_run rfl hr (m.moved inner)
    · exact (carries_rounds (m := m.moved inner) h hbody hh (live.congr rfl rfl rfl) (hm.moved inner) rfl
        hrun).congr (.congr fun fuel n => bind_of_ok checked) id
    · obtain ⟨rfl, rfl⟩ := Prod.mk.inj (Option.some.inj hrun)
      refine .raised inner (m.moved inner) hi (.stop_of_eq checked) (hm.moved inner)
        (.refl g (m.moved inner) inner) (h.slides inner (.behind _ _ _))

theorem carries_stepping {x : Identifier} {site : Token} {first last : Value} {step : Option Term}
    {body : Block} {inner : Cursor} (h : Opening k ws body [] p m' e inner e)
    (hbody : body.Simulated g) (hh : Honours g S.apply) (live : Live S m) (hm : Mirrors g σ m)
    (hs : Before (stepWords step ++ [.colon]) q m inner) (hq : q.line = p.line)
    (hout : ∀ c, Within q (stepWords step ++ [.colon]) c inner → Slides (4 * k + 1) c e)
    (hrun : (do
      let c ← match step with
        | some t => t.eval S.apply (q.past [.step])
        | none => pure (.int 1)
      let (a, b, c) ← integerBounds site.start first last c
      Course.nested (Tree.countRounds x.text b c
        (body.exec { S with inLoop := true } (k + 1) (below p [⟨k, ws⟩])) S.rounds a) :
          Course (Option Signal)) σ = some (o, σ')) :
    Carries g k (stepping k x.text site first last) m e o σ' := by
  cases step with
  | none =>
    have apart := skipOver_of_ne (t := .kwStep) (m := m) (by rw [hs.kind]; decide)
    exact (carries_started h hbody hh live hm hs hq
      hrun).congr (.congr fun fuel n => bind_of_ok (lift_of_ok apart)) id
  | some t =>
    obtain ⟨c₁, h₁, hs₁⟩ := hs.skipOver
    obtain ⟨d, hd, hcolon, hterm⟩ := hs₁.term (t := t) hh (by decide)
    have bound := (hterm (holder (m.moved c₁) (.values [first, last])) rfl).holding
    refine Carries.moves (b := c₁) (Carries.owned (y := started k x.text site first last) bound live.skip
      (hm.moved c₁) hrun (fun c hc => hout c ((hc.append hd).prepend [.step]))
      fun v m₁ σ₁ hv hm₁ hr hrun => ?_) fun fuel n => bind_of_ok (lift_of_ok h₁)
    exact carries_started h hbody hh (live.congr hr.skip hr.resume hr.mode) hm₁ (hcolon m₁ hr.cursor)
      (by simpa using hq) hrun

theorem carries_limiting {x : Identifier} {site : Token} {first : Value} {last : Term}
    {step : Option Term} {body : Block} {inner : Cursor} (h : Opening k ws body [] p m' e inner e)
    (hbody : body.Simulated g) (hh : Honours g S.apply) (live : Live S m) (hm : Mirrors g σ m)
    (hs : Before (.to :: (last.words ++ (stepWords step ++ [.colon]))) q m inner) (hq : q.line = p.line)
    (hout : ∀ c, Within q (.to :: (last.words ++ (stepWords step ++ [.colon]))) c inner →
      Slides (4 * k + 1) c e)
    (hrun : (do
      let b ← last.eval S.apply (q.past [.to])
      let c ← match step with
        | some t => t.eval S.apply (((q.past [.to]).past last.words).past [.step])
        | none => pure (.int 1)
      let (a, b, c) ← integerBounds site.start first b c
      Course.nested (Tree.countRounds x.text b c
        (body.exec { S with inLoop := true } (k + 1) (below p [⟨k, ws⟩])) S.rounds a) :
          Course (Option Signal)) σ = some (o, σ')) :
    Carries g k (limiting k x.text site first) m e o σ' := by
  obtain ⟨c₁, h₁, hs₁⟩ := hs.advance
  obtain ⟨w, us, hw, hends⟩ : ∃ w us, stepWords step ++ [.colon] = w :: us ∧
      Cursor.endsExpression w.kind = true := by
    cases step with
    | none => exact ⟨_, _, rfl, by decide⟩
    | some t => exact ⟨_, _, rfl, by decide⟩
  rw [hw] at hs₁
  obtain ⟨d, hd, hrest, hterm⟩ := hs₁.term (t := last) hh hends
  rw [← hw] at hd hrest
  have bound := (hterm (holder (m.moved c₁) (.values [first])) rfl).holding
  refine Carries.moves (b := c₁) (Carries.owned (y := stepping k x.text site first) bound live.skip
    (hm.moved c₁) hrun (fun c hc => hout c ((hc.append hd).prepend [.to]))
    fun v m₁ σ₁ hv hm₁ hr hrun => ?_) fun fuel n => bind_of_ok (lift_of_ok h₁)
  refine carries_stepping h hbody hh (live.congr hr.skip hr.resume hr.mode) hm₁ (hrest m₁ hr.cursor)
    (by simpa using hq) (fun c hc => hout c ?_) hrun
  exact Within.prepend [.to] (hc.prepend last.words)

/-- The words before the bounds of a loop over integers. -/
def countWords (x : Identifier) : List Word := [.loop, .colon, .for, .name x, .from]

theorem carries_range {x : Identifier} {first last : Term} {step : Option Term} {body : Block}
    (hbody : body.Simulated g) (hh : Honours g S.apply) (he : Borders k e)
    (hl : Lines ((Statement.rangeLoop x first last step body).rows k) p m e) (live : Live S m)
    (hm : Mirrors g σ m)
    (hrun : (Statement.rangeLoop x first last step body).exec S k p σ = some (o, σ')) :
    Carries g k stating m e o σ' := by
  obtain ⟨inner, opening⟩ := Lines.opening_last hl
    (sealed_rangeWords x first last step) he
  have whole : rangeWords x first last step ++ [.colon] =
      countWords x ++ (first.words ++ (.to :: (last.words ++ (stepWords step ++ [.colon])))) := by
    simp [rangeWords, countWords]
  have header := opening.header
  have slides := opening.slides
  rw [whole] at header slides
  obtain ⟨b, hus, -, hbehind⟩ := header.split (countWords x)
  obtain ⟨c₁, h₁, hs₁⟩ := hus.bump
  obtain ⟨c₂, h₂, hs₂⟩ := hs₁.advance
  obtain ⟨c₃, h₃, hs₃⟩ := hs₂.advance
  obtain ⟨c₄, h₄, hs₄⟩ := hs₃.advance
  obtain ⟨c₅, h₅, hs₅⟩ := hs₄.bump
  obtain rfl : c₅ = b := hs₅.moved_eq
  have bounds := hbehind (m.moved c₅) rfl
  obtain ⟨d, hd, hrest, hterm⟩ := bounds.term (t := first) hh (by decide)
  have line : (((indented p k).past (countWords x)).past first.words).line = p.line := by simp
  -- the exceptions about the bounds name the first of them
  have place : c₅.current.start = (indented p k).past (countWords x) := by
    obtain ⟨w, us, hw⟩ := List.exists_cons_of_ne_nil first.words_ne_nil
    rw [hw] at bounds
    have site : c₅.current = w.token ((indented p k).past (countWords x)) := bounds.current
    rw [site, Word.token]
  rw [Statement.exec, show [Word.loop, .colon, .for, .name x, .from] = countWords x from rfl] at hrun
  have out (c : Cursor) (hc : Within ((indented p k).past (countWords x)) first.words c d) :
      Slides (4 * k + 1) c e := slides c ((hc.append hd).prepend (countWords x))
  have carries : Carries g k (fun fuel n => (do
      limiting k x.text c₅.current (← own (← (jobs fuel).expression)) fuel n : Eval Status)) (m.moved c₅)
        e o σ' := by
    refine Carries.owned (hterm (m.moved c₅) rfl) live.skip (hm.moved c₅) hrun out
      fun v m₁ σ₁ hv hm₁ hr hrun => ?_
    refine carries_limiting opening hbody hh (live.congr hr.skip hr.resume hr.mode) hm₁
      (hrest m₁ hr.cursor) line (fun c hc => slides c ?_) ?_
    · exact Within.prepend (countWords x) (hc.prepend first.words)
    · rw [place]
      exact hrun
  refine carries.moves fun fuel n => ?_
  · have kind : m.thread.cursor.current.kind = .kwLoop := hus.kind
    have column : (Word.loop.token (indented p k)).column = 4 * k + 1 := (indented_eq hl.column k).2.1
    have run : statement (jobs fuel) n m = loopStatement (jobs fuel) n m := by
      simp only [statement, Bind.bind, EStateM.bind, current, mode, live.members, Bool.false_and,
        Bool.false_eq_true, if_false, kind]
    have for' : (Eval.kind : Eval _) (m.moved c₂) = .ok .kwFor (m.moved c₂) :=
      congrArg (EStateM.Result.ok · _) hs₂.kind
    have from' : (Eval.kind : Eval _) (m.moved c₄) = .ok .kwFrom (m.moved c₄) :=
      congrArg (EStateM.Result.ok · _) hs₄.kind
    refine run.trans ((bind_of_ok (lift_of_ok h₁)).trans ((bind_of_ok (lift_of_ok h₂)).trans
      ((bind_of_ok for').trans ?_)))
    refine (bind_of_ok (lift_of_ok h₃)).trans ((bind_of_ok (lift_of_ok h₄)).trans
      ((bind_of_ok from').trans ((bind_of_ok (lift_of_ok h₅)).trans ?_)))
    rw [column]
    rfl

end Rewind.Tree
