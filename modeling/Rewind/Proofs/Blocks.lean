/-
Statements and branches are run as their trees.

A statement is taken by its first word and runs the expressions of its line, in the order of the tree.
A header is followed by its body, which is run or skipped as a whole; so the lines of the branches that
are not taken are passed.

* `carries_assign`, `carries_call`, … — statements of one line;
* `Block.Simulated` — a body is run as its tree; `Opening` — a header with the body below it;
* `skipBranches_settles` — branches are passed;
* `carries_branch` — a statement with branches, if their bodies are run as their trees.
-/
import Rewind.Proofs.Carrying

namespace Rewind.Tree

open Eval

variable {g : Scene} {S : Setting} {σ σ' : Store} {m m' : Machine} {b c d e : Cursor}
  {p q : Position} {k : Nat} {us vs ws : List Word} {w : Word} {rest : List Row} {t : Term}
  {o : Except Halt (Option Signal)}

/-! ### Lines with expressions -/

/-- The words of the first line, from which skipping goes on behind the last one. -/
theorem Lines.header (h : Lines (⟨k, ws⟩ :: rest) p m e) (hd : Deep k (⟨k, ws⟩ :: rest)) :
    ∃ b, Before (ws ++ [.colon]) (indented p k) m b ∧
      (∀ m' : Machine, m'.thread.cursor = b → Lines rest (below p [⟨k, ws⟩]) m' e) ∧
      ∀ c, Within (indented p k) (ws ++ [.colon]) c b → Slides (4 * k + 1) c e := by
  obtain ⟨b, hb, hrest⟩ := h.first
  refine ⟨b, hb, hrest, fun c hc => ?_⟩
  have column := (indented_eq h.column k).2.1
  have line : Slides (4 * k + 1) c b :=
    slides_of_within hc (hd ⟨k, ws⟩ (by simp)).2.colon (Nat.le_of_eq column.symm)
  exact line.trans ((hrest (m.moved b) rfl).slides fun r hr => hd r (by simp [hr]))

theorem joins_of_endsExpression {k : TokenKind} (h : Cursor.endsExpression k = true) : k.joins < 1 := by
  cases k <;> first | decide | contradiction

/-- An expression before a word that ends it. -/
theorem Before.term {apply : Apply} (hh : Honours g apply)
    (hs : Before (t.words ++ w :: ws) p m b) (hw : Cursor.endsExpression w.kind = true) :
    ∃ d, d.Crosses (row (p.past t.words) (w :: ws)) b ∧
      (∀ m' : Machine, m'.thread.cursor = d → Before (w :: ws) (p.past t.words) m' b) ∧
      ∀ m' : Machine, m'.thread.cursor = m.thread.cursor →
        Obeys g IsValue done (fun fuel _ => (jobs fuel).expression) m' p t.words d
          (t.eval apply p) := by
  obtain ⟨d, ht, hd, hrest⟩ := hs.split t.words
  have kind : d.kind = w.kind := (hrest (m.moved d) rfl).kind
  refine ⟨d, hd, hrest, fun m' hm => (t.evaluable hh).expression (ht.at_ hm) ?_ ?_⟩
  · rw [kind]
    exact joins_of_endsExpression hw
  · exact .inr (.inr (.inl (kind ▸ hw)))

/-! ### Simple statements -/

section Simple

variable (live : Live S m) (hm : Mirrors g σ m)
include live hm

theorem carries_assign {x : Identifier} (hh : Honours g S.apply)
    (hl : Lines ((Statement.assign x t).rows k) p m e)
    (hrun : (Statement.assign x t).exec S k p σ = some (o, σ')) :
    Carries g k stating m e o σ' := by
  obtain ⟨b, hb, hrest, hout⟩ := hl.header ((Statement.assign x t).deep_rows k)
  obtain rfl := (hrest (m.moved b) rfl).moved_eq
  rw [List.append_assoc] at hb
  obtain ⟨b₁, hus, hcross, hbehind⟩ := hb.split [.let, .colon, .name x, .assign]
  obtain ⟨c₁, h₁, hs₁⟩ := hus.bump
  obtain ⟨c₂, h₂, hs₂⟩ := hs₁.advance
  obtain ⟨c₃, h₃, hs₃⟩ := hs₂.advance
  obtain ⟨c₄, h₄, hs₄⟩ := hs₃.advance
  obtain rfl : c₄ = b₁ := hs₄.moved_eq
  obtain ⟨d, hd, hcolon, hterm⟩ := (hbehind (m.moved c₄) rfl).term (t := t) hh (by decide)
  let store (v : Value) : Supplied Interrupt Status := fun _ _ => do
    endStatement
    assign x.text v
    return .normal
  have value := (hterm (holder (m.moved c₄) (.values [])) rfl).holding
  have place (c : Cursor)
      (hc : Within ((indented p k).past [.let, .colon, .name x, .assign]) t.words c d) :
      Slides (4 * k + 1) c (m.moved b).thread.cursor := hout c (hc.between _ hd)
  refine (Carries.owned (y := store) value live.skip (hm.moved c₄) hrun place
    fun v m' σ₁ hv hm' hr hrun => ?_).congr ?_ (Reaches.refl g m c₄).trans
  · obtain ⟨rfl, rfl⟩ := Prod.mk.inj (Option.some.inj hrun)
    -- the statement ends with its line, so nothing is left of it when the name is bound
    have close := (hcolon m' hr.cursor).endStatement
    obtain ⟨m'', hassign, hm'', hr''⟩ := (hm'.moved b).assign (b := .scalar v) ⟨rfl, hv⟩ x.text
    refine .normal m'' (.of_eq fun _ _ => ?_) hm'' ((Reaches.refl g m' b).trans hr'')
    exact (bind_of_ok (lift_of_ok close)).trans (bind_of_ok hassign)
  · have kind : m.thread.cursor.current.kind = .kwLet := hus.kind
    have apart : c₃.kind = .assign := hs₃.kind
    refine .round fun fuel n => ?_
    -- the name is followed by `=`, so there is no place within a container to be found
    have steps : (accessors (jobs fuel) (n + 1) [] : Eval _) (m.moved c₃) = .ok [] (m.moved c₃) := by
      simp only [accessors, Bind.bind, EStateM.bind, Eval.kind]
      rw [show (m.moved c₃).thread.cursor.kind = .assign from apart]
      rfl
    have run : statement (jobs fuel) (n + 1) m = letStatement (jobs fuel) (n + 1) m := by
      simp only [statement, Bind.bind, EStateM.bind, current, mode, live.members, Bool.false_and,
        Bool.false_eq_true, if_false, kind]
    exact run.trans ((bind_of_ok (lift_of_ok h₁)).trans ((bind_of_ok (lift_of_ok h₂)).trans
      ((bind_of_ok (lift_of_ok h₃)).trans ((bind_of_ok steps).trans (bind_of_ok (lift_of_ok h₄))))))

theorem carries_call {f : Callee} {args : Terms} (hh : Honours g S.apply)
    (hl : Lines ((Statement.call f args).rows k) p m e)
    (hrun : (Statement.call f args).exec S k p σ = some (o, σ')) :
    Carries g k stating m e o σ' := by
  obtain ⟨b, hb, hrest, hout⟩ := hl.header ((Statement.call f args).deep_rows k)
  obtain rfl := (hrest (m.moved b) rfl).moved_eq
  obtain ⟨d, hd, hcolon, hterm⟩ := hb.term (t := .call f args) hh (by decide)
  refine (Carries.after (y := fun _ _ _ => do
      endStatement
      return .normal) (hterm m rfl) live.skip hm hrun (fun c hc => hout c (hc.append hd))
    fun a v m' σ₁ _ hm' hr hrun => ?_).congr (.congr fun fuel n => ?_) id
  · obtain ⟨rfl, rfl⟩ := Prod.mk.inj (Option.some.inj hrun)
    have close := (hcolon m' hr.cursor).endStatement
    exact .normal _ (.of_eq fun _ _ => bind_of_ok (lift_of_ok close)) (hm'.moved b) (.refl g m' b)
  · have kind : m.thread.cursor.current.kind = .ident := hb.kind
    simp only [stating, statement, Bind.bind, EStateM.bind, current, mode, live.members,
      Bool.false_and, Bool.false_eq_true, if_false, kind]
    rfl

theorem carries_skip (hl : Lines (Statement.skip.rows k) p m e)
    (hrun : Statement.skip.exec S k p σ = some (o, σ')) : Carries g k stating m e o σ' := by
  obtain ⟨b, hb, hrest, -⟩ := hl.header (Statement.skip.deep_rows k)
  obtain rfl := (hrest (m.moved b) rfl).moved_eq
  obtain ⟨rfl, rfl⟩ := Prod.mk.inj (Option.some.inj hrun)
  obtain ⟨c, hc, hs⟩ := hb.bump
  refine .normal _ (.of_eq fun fuel n => ?_) (hm.moved b) (.refl g m b)
  have kind : m.thread.cursor.current.kind = .kwSkip := hb.kind
  have run : statement (jobs fuel) n m = skipStatement m := by
    simp only [statement, Bind.bind, EStateM.bind, current, mode, live.members, Bool.false_and,
      Bool.false_eq_true, if_false, kind]
  exact run.trans ((bind_of_ok (lift_of_ok hc)).trans (bind_of_ok (lift_of_ok hs.endStatement)))

/-- `break` and `continue` -/
theorem carries_loopSignal (signal : Signal) (hs : Bare (some signal))
    (hl : Lines [⟨k, [w]⟩] p m e)
    (hd : Deep k [⟨k, [w]⟩])
    (hw : ∀ fuel n, stating fuel n m = Eval.loopSignal signal m)
    (hrun : Tree.loopSignal S (indented p k) w.kind signal σ = some (o, σ')) :
    Carries g k stating m e o σ' := by
  obtain ⟨b, hb, hrest, -⟩ := hl.header hd
  obtain rfl := (hrest (m.moved b) rfl).moved_eq
  obtain ⟨c, hc, hs'⟩ := hb.bump
  unfold Tree.loopSignal at hrun
  cases hi : S.inLoop with
  | true =>
    rw [hi] at hrun
    obtain ⟨rfl, rfl⟩ := Prod.mk.inj (Option.some.inj hrun)
    -- the depth of loops that the thread keeps is that of the tree
    have loops : ¬ m.thread.mode.loopDepth = 0 := fun h => by
      have := live.loops.1 h
      rw [hi] at this
      contradiction
    refine .leaving b _ hs (.of_eq fun fuel n => (hw fuel n).trans ?_) (hm.moved b) (.refl g m b) rfl
    simp only [Eval.loopSignal, Bind.bind, EStateM.bind, current, mode, if_neg loops, Quiet.run_lift,
      hc, hs'.endStatement]
    rfl
  | false =>
    rw [hi] at hrun
    obtain ⟨rfl, rfl⟩ := Prod.mk.inj (Option.some.inj hrun)
    refine .failed m (.of_eq fun fuel n => (hw fuel n).trans ?_) hm.toRooted
    have kind : m.thread.cursor.current = w.token (indented p k) := hb.current
    simp only [Eval.loopSignal, Bind.bind, EStateM.bind, current, mode, if_pos (live.loops.2 hi), kind]
    rfl

/-- What a `raise` at `site` makes of the value behind it. -/
def raising (site : Token) (h : Held) : Supplied Interrupt Status := fun _ _ => do
  let v ← own h
  endStatement
  match v with
  | .str _ => return .leaving (.raised ⟨v, site.line, site.column⟩)
  | other => complain (.raisedNonString other.kind) site

theorem carries_raise (hh : Honours g S.apply) (hl : Lines ((Statement.raise t).rows k) p m e)
    (hrun : (Statement.raise t).exec S k p σ = some (o, σ')) :
    Carries g k stating m e o σ' := by
  obtain ⟨b, hb, hrest, hout⟩ := hl.header ((Statement.raise t).deep_rows k)
  obtain rfl := (hrest (m.moved b) rfl).moved_eq
  rw [List.append_assoc] at hb
  obtain ⟨b₁, hus, hcross, hbehind⟩ := hb.split [.raise, .colon]
  obtain ⟨c₁, h₁, hs₁⟩ := hus.bump
  obtain ⟨c₂, h₂, hs₂⟩ := hs₁.advance
  obtain rfl : c₂ = b₁ := hs₂.moved_eq
  obtain ⟨d, hd, hcolon, hterm⟩ := (hbehind (m.moved c₂) rfl).term (t := t) hh (by decide)
  let site := Word.raise.token (indented p k)
  have place (c : Cursor) (hc : Within ((indented p k).past [.raise, .colon]) t.words c d) :
      Slides (4 * k + 1) c (m.moved b).thread.cursor := hout c (hc.between _ hd)
  refine (Carries.after (y := raising site) (hterm (m.moved c₂) rfl) live.skip (hm.moved c₂) hrun place
    fun a v m' σ₁ ha hm' hr hrun => ?_).congr ?_ (Reaches.refl g m c₂).trans
  · obtain ⟨rfl, hv⟩ := ha
    have close := (hcolon m' hr.cursor).endStatement
    have steps (fuel n : Nat) : raising site a fuel n m' = _ :=
      (bind_of_ok (own_run hv)).trans (bind_of_ok (lift_of_ok close))
    -- only a text is an exception's message
    cases value : a.value with
    | str s =>
      rw [value] at hrun
      obtain ⟨rfl, rfl⟩ := Prod.mk.inj (Option.some.inj hrun)
      refine .leaving b _ (List.forall_mem_singleton.2 rfl) (.of_eq fun fuel n => (steps fuel n).trans ?_)
        (hm'.moved b) (.refl g m' b) rfl
      rw [value]
      rfl
    | _ =>
      rw [value] at hrun
      obtain ⟨rfl, rfl⟩ := Prod.mk.inj (Option.some.inj hrun)
      refine .raised b _ rfl (.of_eq fun fuel n => (steps fuel n).trans ?_) (hm'.moved b)
        (.refl g m' b) rfl
      rw [value]
      rfl
  · have kind : m.thread.cursor.current.kind = .kwRaise := hus.kind
    refine .congr fun fuel n => ?_
    have run : statement (jobs fuel) n m = raiseStatement (jobs fuel) m := by
      simp only [statement, Bind.bind, EStateM.bind, current, mode, live.members, Bool.false_and,
        Bool.false_eq_true, if_false, kind]
    exact run.trans ((bind_of_ok (lift_of_ok h₁)).trans (bind_of_ok (lift_of_ok h₂)))

omit hm in
theorem statement_return {j : Jobs} {n : Nat} (hk : m.thread.cursor.kind = .kwReturn) :
    statement j n m = returnStatement j n m := by
  have kind : m.thread.cursor.current.kind = .kwReturn := hk
  simp only [statement, Bind.bind, EStateM.bind, current, mode, live.members, Bool.false_and,
    Bool.false_eq_true, if_false, kind]

/-- What a `return` does behind its colon. -/
def returning (line : Nat) : Supplied Interrupt Status := fun fuel n => do
  let next ← current
  if next.kind = .eof ∨ next.line ≠ line then return .leaving (.result .null)
  let first ← own (← (jobs fuel).expression)
  let v ←
    if (← kind) = .comma then
      let values ← resultItems (jobs fuel) n [first]
      onHeap (Heap.newTuple values.toArray)
    else pure first
  endStatement
  return .leaving (.result v)

omit hm in
/-- Inside of functions a `return` goes on behind its colon. -/
theorem stating_return {ws : List Word} (hf : S.inFunction = true) (hp : p.column = 1)
    (hs : Before (.return :: .colon :: ws) (indented p k) m d) :
    ∃ b, (∀ fuel n, stating fuel n m = returning p.line fuel n (m.moved b)) ∧
      Before ws ((indented p k).past [.return, .colon]) (m.moved b) d := by
  obtain ⟨c₁, h₁, hs₁⟩ := hs.bump
  obtain ⟨c₂, h₂, hs₂⟩ := hs₁.advance
  rw [show [Word.return, .colon] = [.return] ++ [.colon] from rfl, Position.past_append]
  refine ⟨c₂, fun fuel n => (statement_return live hs.kind).trans ?_, hs₂⟩
  have inside : m.thread.mode.inFunction = true := by rw [live.function, hf]
  have line : (Word.return.token (indented p k)).line = p.line := (indented_eq hp k).1
  rw [show Word.colon.kind = .colon from rfl] at h₂
  refine (bind_of_ok (lift_of_ok h₁)).trans ?_
  simp only [mode, Machine.moved, inside, Bind.bind, EStateM.bind, Bool.not_true,
    Bool.false_eq_true, if_false]
  exact (bind_of_ok (lift_of_ok h₂)).trans (by rw [← line]; rfl)

/-- A `return` outside of functions. -/
theorem carries_return_outside {ws : List Word} (hf : S.inFunction = false)
    (hs : Before (.return :: ws) q m d)
    (hrun : (throw (.failed (.malformed .returnOutsideFunction q.line q.column)) :
      Course (Option Signal)) σ = some (o, σ')) : Carries g k stating m e o σ' := by
  obtain ⟨rfl, rfl⟩ := Prod.mk.inj (Option.some.inj hrun)
  obtain ⟨c, hc, -⟩ := hs.bump
  refine .failed (m.moved c) (.of_eq fun fuel n => (statement_return live hs.kind).trans ?_)
    (hm.moved c).toRooted
  have outside : m.thread.mode.inFunction = false := by rw [live.function, hf]
  refine (bind_of_ok (lift_of_ok hc)).trans ?_
  simp only [mode, Machine.moved, outside, Bind.bind, EStateM.bind, Bool.not_false, if_true]
  rfl

theorem carries_result_none (hb : Borders k e)
    (hl : Lines ((Statement.result none).rows k) p m e)
    (hrun : (Statement.result none).exec S k p σ = some (o, σ')) :
    Carries g k stating m e o σ' := by
  obtain ⟨b, hs, hrest, -⟩ := hl.header ((Statement.result none).deep_rows k)
  obtain rfl := (hrest (m.moved b) rfl).moved_eq
  cases hf : S.inFunction with
  | false =>
    refine carries_return_outside live hm hf hs ?_
    rw [← hrun]
    simp only [Statement.exec, hf]
    rfl
  | true =>
    obtain ⟨c, run, hs'⟩ := stating_return live hf hl.column hs
    obtain rfl : c = b := hs'.moved_eq
    have hrun' : (return some (.result .null) : Course (Option Signal)) σ = some (o, σ') := by
      rw [← hrun]
      simp only [Statement.exec, hf]
      rfl
    obtain ⟨rfl, rfl⟩ := Prod.mk.inj (Option.some.inj hrun')
    -- what is behind the colon is on another line
    have passed : c.passedLine = p.line :=
      (passedLine_of_row (by simp) hs.crosses).trans (line_indented p k)
    have ends : c.current.kind = .eof ∨ c.current.line ≠ p.line := by
      obtain h | ⟨h, -⟩ := hb
      · exact .inl h
      · have : c.passedLine < c.current.line := of_decide_eq_true h
        exact .inr (by omega)
    refine .leaving c _ (List.forall_mem_singleton.2 rfl) (.of_eq fun fuel n => (run fuel n).trans ?_)
      (hm.moved c) (.refl g m c) rfl
    show (if c.current.kind = .eof ∨ c.current.line ≠ p.line then _ else _ : Eval Status) _ = _
    rw [if_pos ends]
    rfl

theorem carries_result_some (hh : Honours g S.apply)
    (hl : Lines ((Statement.result (some t)).rows k) p m e)
    (hrun : (Statement.result (some t)).exec S k p σ = some (o, σ')) :
    Carries g k stating m e o σ' := by
  obtain ⟨b, hs, hrest, hout⟩ := hl.header ((Statement.result (some t)).deep_rows k)
  obtain rfl := (hrest (m.moved b) rfl).moved_eq
  cases hf : S.inFunction with
  | false =>
    refine carries_return_outside live hm hf hs ?_
    rw [← hrun]
    simp only [Statement.exec, hf]
    rfl
  | true =>
    obtain ⟨c, run, hs'⟩ := stating_return live hf hl.column hs
    obtain ⟨d, hd, hcolon, hterm⟩ := hs'.term (t := t) hh (by decide)
    have colon : d.kind = .colon := (hcolon (m.moved d) rfl).kind
    -- what is behind the colon is on the same line
    have inline : ¬ ((m.moved c).thread.cursor.current.kind = .eof ∨
        (m.moved c).thread.cursor.current.line ≠ p.line) := by
      obtain ⟨w, us, hw⟩ := List.exists_cons_of_ne_nil t.words_ne_nil
      rw [hw] at hs'
      have line : (w.token ((indented p k).past [.return, .colon])).line = p.line :=
        (Position.line_past _ _).trans (line_indented p k)
      rintro (h | h)
      · exact kind_ne_eof w (hs'.kind.symm.trans h)
      · rw [hs'.current] at h
        exact h line
    let finish (h : Held) : Supplied Interrupt Status := fun fuel n => do
      let first ← own h
      let v ←
        if (← kind) = .comma then
          let values ← resultItems (jobs fuel) n [first]
          onHeap (Heap.newTuple values.toArray)
        else pure first
      endStatement
      return .leaving (.result v)
    have hrun' : (t.eval S.apply ((indented p k).past [.return, .colon]) >>= fun v =>
        return some (.result v) : Course (Option Signal)) σ = some (o, σ') := by
      rw [← hrun]
      simp only [Statement.exec, hf]
      rfl
    refine (Carries.after (y := finish) (hterm (m.moved c) rfl) live.skip (hm.moved c) hrun'
      (fun c hc => hout c ((hc.append hd).prepend [.return, .colon]))
      fun a v m' σ₁ ha hm' hr hrun => ?_).moves fun fuel n => (run fuel n).trans ?_
    · obtain ⟨rfl, hv⟩ := ha
      obtain ⟨rfl, rfl⟩ := Prod.mk.inj (Option.some.inj hrun)
      have close := (hcolon m' hr.cursor).endStatement
      refine .leaving _ _ (List.forall_mem_singleton.2 hv) (.of_eq fun fuel n => ?_) (hm'.moved b)
        (.refl g m' b) rfl
      refine (bind_of_ok (own_run hv)).trans ?_
      have apart : m'.thread.cursor.kind ≠ .comma := by
        rw [hr.cursor, colon]
        decide
      simp only [Bind.bind, EStateM.bind, kind, if_neg apart, Quiet.run_lift]
      rw [show (pure a.value : Eval Value) m' = .ok a.value m' from rfl]
      simp only [close]
      rfl
    · show (if (m.moved c).thread.cursor.current.kind = .eof ∨ _ then _ else _ : Eval Status) _ = _
      rw [if_neg inline]

end Simple

/-! ### Bodies -/

/-- A body is run as its tree, wherever it is printed. -/
def Block.Simulated (g : Scene) (body : Block) : Prop :=
  ∀ {S : Setting} {k : Nat} {p : Position} {m : Machine} {e : Cursor} {σ σ' : Store}
    {o : Except Halt (Option Signal)}, Honours g S.apply → Lines (body.rows k) p m e → Closes k e →
    Live S m → Mirrors g σ m → body.exec S k p σ = some (o, σ') → Brings g (running k) m e o σ'

/-- The job of a body that is the `k`th one around its statements, and one more. -/
def bodyJob (k : Nat) : Supplied Fault Status := fun fuel _ => (jobs fuel).body (4 * k + 1 + 4)

theorem Brings.job (h : Brings g (running (k + 1)) m e o σ) (hr : m.thread.resume = []) :
    Brings g (bodyJob k) m e o σ := by
  refine h.congr (fun _ hx => ?_) id
  exact hx.body hr

/-- What is behind a body is nothing, or a line further left. -/
def Behind (k : Nat) (rest : List Row) : Prop :=
  rest = [] ∨ ∃ w ws vs, rest = ⟨k, w :: ws⟩ :: vs ∧ w.kind ≠ .colon

/-- The machine stands on a header in `k` bodies, with the body below it and further lines behind that
one.  The body begins at `inner`, and what is behind it at `outer`. -/
structure Opening (k : Nat) (ws : List Word) (body : Block) (rest : List Row) (p : Position)
    (m : Machine) (e inner outer : Cursor) : Prop where
  header : Before (ws ++ [.colon]) (indented p k) m inner
  enter : ∀ {q : Position} {m' : Machine}, Before [.colon] q m' inner → q.line = p.line →
    (enterBlock (4 * k + 1) : Run _) m' = .ok () (m'.moved inner)
  lines : ∀ m' : Machine, m'.thread.cursor = inner →
    Lines (body.rows (k + 1)) (below p [⟨k, ws⟩]) m' outer
  closes : Closes (k + 1) outer
  rest : ∀ m' : Machine, m'.thread.cursor = outer →
    Lines rest (below (below p [⟨k, ws⟩]) (body.rows (k + 1))) m' e
  slides : ∀ c, Within (indented p k) (ws ++ [.colon]) c inner → Slides (4 * k + 1) c e

theorem Block.rows_ne_nil (body : Block) (k : Nat) : body.rows k ≠ [] := by
  obtain ⟨w, ws, rest, h, -⟩ := body.rows_eq k
  simp [h]

theorem Lines.opening {body : Block} (h : Lines (⟨k, ws⟩ :: (body.rows (k + 1) ++ rest)) p m e)
    (hd : Deep k (⟨k, ws⟩ :: (body.rows (k + 1) ++ rest))) (hr : Behind k rest) (he : Borders k e) :
    ∃ inner outer, Opening k ws body rest p m e inner outer := by
  obtain ⟨inner, header, lines, slides⟩ := h.header hd
  obtain ⟨outer, hbody, hrest⟩ := (lines (m.moved inner) rfl).split (body.rows (k + 1))
  obtain ⟨w, us, vs, hrows, -⟩ := body.rows_eq (k + 1)
  refine ⟨inner, outer, header, fun hs hq => ?_, fun m' hm => hbody.at_ hm, ?_, hrest, slides⟩
  · have first := hbody
    rw [hrows] at first
    exact enterBlock_run hs hq first.onLine
  · obtain rfl | ⟨w, us, vs, rfl, hw⟩ := hr
    · obtain rfl : outer = e := (hrest (m.moved outer) rfl).moved_eq
      exact he.closes
    · exact (hrest (m.moved outer) rfl).onLine.closes (body.rows_ne_nil _) hbody.crosses
        (Nat.lt_succ_self k) hw

/-- A header with nothing behind its body. -/
theorem Lines.opening_last {body : Block} (h : Lines (⟨k, ws⟩ :: body.rows (k + 1)) p m e)
    (hw : Sealed ws) (he : Borders k e) : ∃ inner, Opening k ws body [] p m e inner e := by
  have deep : Deep k (⟨k, ws⟩ :: (body.rows (k + 1) ++ [])) :=
    deep_header hw (body.deep_rows _) deep_nil
  obtain ⟨inner, outer, opening⟩ := Lines.opening (by rwa [List.append_nil]) deep
    (.inl rfl) he
  obtain rfl : outer = e := (opening.rest (m.moved outer) rfl).moved_eq
  exact ⟨inner, opening⟩

namespace Opening

variable {body : Block} {inner outer : Cursor} (h : Opening k ws body rest p m e inner outer)
include h

/-- Past the body, from its first line. -/
theorem skipBody (m' : Machine) (hm : m'.thread.cursor = inner) :
    (Eval.skipBody (4 * k + 1 + 4) : Run _) m' = .ok () (m'.moved outer) :=
  (h.lines m' hm).skipBody (body.deep_rows _) h.closes

/-- Past the body, from behind some words of the header. -/
theorem skipBody_behind {us vs : List Word} (hv : Sealed vs)
    (hu : 4 ≤ ((indented p k).past us).column - (indented p k).column) (hp : p.column = 1)
    (hs : Before (vs ++ [.colon]) ((indented p k).past us) m' inner) :
    (Eval.skipBody (4 * k + 1 + 4) : Run _) m' = .ok () (m'.moved outer) := by
  have column := (indented_eq hp k).2.1
  exact skipBody_within (k := k + 1) hs hv.colon (by omega) h.lines (body.deep_rows _) h.closes

/-- The body is run. -/
theorem brings (hbody : body.Simulated g) (hh : Honours g S.apply) (live : Live S m')
    (hm : Mirrors g σ m') (hc : m'.thread.cursor = inner)
    (hrun : body.exec S (k + 1) (below p [⟨k, ws⟩]) σ = some (o, σ')) :
    Brings g (bodyJob k) m' outer o σ' :=
  (hbody hh (h.lines m' hc) h.closes live hm hrun).job live.resume

end Opening

/-! ### Branches -/

/-- Behind the keyword of a branch: its condition and its body, or further branches. -/
def branching (k : Nat) : Supplied Interrupt Status := fun fuel n => branches (jobs fuel) (4 * k + 1) n

/-- A branch that is taken, and past the other ones. -/
def finishing (k : Nat) : Supplied Interrupt Status := fun fuel n =>
  finishBranch n (4 * k + 1) ((jobs fuel).body (4 * k + 1 + 4))

/-- Behind a branch that is not taken. -/
def elsewhere (k : Nat) : Supplied Interrupt Status := fun fuel n => do
  let token ← current
  if token.column ≠ 4 * k + 1 then return .normal
  match token.kind with
  | .kwElif =>
    let _ ← bump
    branches (jobs fuel) (4 * k + 1) n
  | .kwElse =>
    let _ ← bump
    enterBlock (4 * k + 1)
    finishBranch n (4 * k + 1) ((jobs fuel).body (4 * k + 1 + 4))
  | _ => return .normal

def Branches.Simulated (g : Scene) (rest : Branches) : Prop :=
  ∀ {S : Setting} {k : Nat} {p : Position} {m : Machine} {e : Cursor} {σ σ' : Store}
    {o : Except Halt (Option Signal)}, Honours g S.apply → Lines (rest.rows k) p m e → Borders k e →
    Live S m → Mirrors g σ m → rest.exec S k p σ = some (o, σ') → Carries g k (elsewhere k) m e o σ'

theorem Branches.behind (rest : Branches) (k : Nat) : Behind k (rest.rows k) := by
  cases rest with
  | done => exact .inl rfl
  | elif => exact .inr ⟨_, _, _, rfl, by decide⟩
  | otherwise => exact .inr ⟨_, _, _, rfl, by decide⟩

/-- Where a statement may end there are no branches of it. -/
theorem Borders.no_branch (h : Borders k e) :
    ¬ ((e.current.kind = .kwElif ∨ e.current.kind = .kwElse) ∧ e.current.column = 4 * k + 1) := by
  rintro ⟨hk, hc⟩
  have hk : e.kind = .kwElif ∨ e.kind = .kwElse := hk
  obtain h | ⟨-, -, -, h⟩ := h
  · rw [h] at hk
    obtain hk | hk := hk <;> contradiction
  · have starts := h hc
    obtain hk | hk := hk <;> (rw [hk] at starts; contradiction)

theorem column_past_word (p : Position) (w : Word) :
    (p.past [w]).column = p.column + (w.chars.length + 1) := by
  have free : '\n' ∉ w.chars ++ [' '] := by
    simp [w.newline_not_mem]
  rw [Position.past, show [w].flatMap (fun w => w.chars ++ [' ']) = w.chars ++ [' '] by simp,
    Position.after_of_not_mem free]
  simp

/-- One branch is passed, from its first word on. -/
theorem skipBranches_round {body : Block} {inner outer : Cursor} {ws : List Word}
    (h : Opening k (w :: ws) body rest p m e inner outer) (hp : p.column = 1)
    (hw : w = .elif ∨ w = .else) (hs : Sealed ws)
    (hrest : Settles (fun _ n => skipBranches (4 * k + 1) n) (m.moved outer) (.ok () (m.moved e))) :
    Settles (fun _ n => skipBranches (4 * k + 1) n) m (.ok () (m.moved e)) := by
  have header := h.header
  obtain ⟨c, hc, hbehind⟩ := header.bump
  -- the keyword is long enough for what follows it to stand behind the column of the body
  have wide : 4 ≤ ((indented p k).past [w]).column - (indented p k).column := by
    have long : 4 ≤ w.chars.length := by obtain rfl | rfl := hw <;> decide
    rw [column_past_word]
    omega
  have passed := h.skipBody_behind hs wide hp hbehind
  have first : (m.thread.cursor.current.kind = .kwElif ∨ m.thread.cursor.current.kind = .kwElse) ∧
      m.thread.cursor.current.column = 4 * k + 1 := by
    have current : m.thread.cursor.current = w.token (indented p k) := header.current
    rw [current]
    refine ⟨?_, (indented_eq hp k).2.1⟩
    obtain rfl | rfl := hw
    · exact .inl rfl
    · exact .inr rfl
  refine hrest.round fun _ n => ?_
  show (if (m.thread.cursor.current.kind = .kwElif ∨ _) ∧ _ then _ else _ : Run Unit) m = _
  rw [if_pos first]
  exact (bind_of_ok hc).trans (bind_of_ok passed)

/-- There are no branches to be passed. -/
theorem skipBranches_stops (he : Borders k m.thread.cursor) :
    Settles (fun _ n => skipBranches (4 * k + 1) n) m (.ok () m) := by
  refine .round (y := fun _ _ => pure ()) (.of_eq fun _ _ => rfl) fun _ n => ?_
  show (if (m.thread.cursor.current.kind = .kwElif ∨ _) ∧ _ then _ else _ : Run Unit) m = _
  rw [if_neg he.no_branch]

/-- All branches are passed. -/
theorem skipBranches_settles (rest : Branches) {p : Position} {m : Machine}
    (hl : Lines (rest.rows k) p m e) (he : Borders k e) :
    Settles (fun _ n => skipBranches (4 * k + 1) n) m (.ok () (m.moved e)) := by
  cases rest with
  | done =>
    obtain rfl : m.thread.cursor = e := hl.moved_eq
    exact skipBranches_stops he
  | elif c body rest =>
    obtain ⟨inner, outer, opening⟩ := Lines.opening hl ((Branches.elif c body rest).deep_rows k)
      (rest.behind k) he
    exact skipBranches_round opening hl.column (.inl rfl) (.cons rfl c.sealed_words)
      (skipBranches_settles rest (opening.rest (m.moved outer) rfl) he)
  | otherwise body =>
    obtain ⟨inner, opening⟩ := Lines.opening_last hl (sealed_one rfl) he
    exact skipBranches_round opening hl.column (.inr rfl) sealed_nil
      (skipBranches_stops (m := m.moved e) he)

/-- What is done behind the body of a branch. -/
def passing (k : Nat) (status : Status) : Supplied Interrupt Status := fun _ n =>
  match status with
  | .yielded => park .branch
  | status => do
    skipBranches (4 * k + 1) n
    return status

/-- A branch that is taken is run, and the other ones are passed. -/
theorem carries_finish {body : Block} (rest : Branches) {inner outer : Cursor}
    (h : Opening k ws body (rest.rows k) p m e inner outer) (hbody : body.Simulated g)
    (hh : Honours g S.apply) (he : Borders k e) (live : Live S m') (hm : Mirrors g σ m')
    (hc : m'.thread.cursor = inner)
    (hrun : body.exec S (k + 1) (below p [⟨k, ws⟩]) σ = some (o, σ')) :
    Carries g k (finishing k) m' e o σ' := by
  have hrun' : (body.exec S (k + 1) (below p [⟨k, ws⟩]) >>= pure) σ = some (o, σ') := by
    rwa [bind_pure]
  refine Carries.afterBody (y := passing k) (h.brings hbody hh live hm hc) hrun'
    fun s m'' σ₁ bare hm'' hr hrun'' => ?_
  obtain ⟨rfl, rfl⟩ := Prod.mk.inj (Option.some.inj hrun'')
  have passed := (skipBranches_settles rest (h.rest m'' hr.cursor) he).lift
  refine .of_pending bare ?_ (hm''.moved e) (.refl g m'' e)
  have last := passed.bind (k := fun _ _ _ => pure (Status.ofPending s)) (.of_eq fun _ _ => rfl)
  cases s <;> exact last

/-- From the colon behind the keyword of a branch on. -/
theorem carries_branching {c : Term} {body : Block} {rest : Branches} {inner outer c₁ : Cursor}
    (h : Opening k (w :: .colon :: c.words) body (rest.rows k) p m e inner outer)
    (hbody : body.Simulated g) (hrest : rest.Simulated g) (hh : Honours g S.apply)
    (he : Borders k e) (live : Live S (m.moved c₁)) (hm : Mirrors g σ (m.moved c₁))
    (hs : Before (.colon :: (c.words ++ [.colon])) ((indented p k).past [w]) (m.moved c₁) inner)
    (hrun : (do
      let v ← c.eval S.apply ((indented p k).past [w, .colon])
      let q := below p [⟨k, w :: .colon :: c.words⟩]
      if v.counts then body.exec S (k + 1) q else rest.exec S k (below q (body.rows (k + 1))) :
        Course (Option Signal)) σ = some (o, σ')) :
    Carries g k (branching k) (m.moved c₁) e o σ' := by
  obtain ⟨c₂, h₂, hs₂⟩ := hs.advance
  rw [show ((indented p k).past [w]).past [.colon] = (indented p k).past [w, .colon] from
    ((indented p k).past_append [w] [.colon]).symm] at hs₂
  obtain ⟨d, hd, hcolon, hterm⟩ := hs₂.term (t := c) hh (by decide)
  let decide (a : Held) : Supplied Interrupt Status := fun fuel n => do
    let taken ← truthy a
    enterBlock (4 * k + 1)
    if taken then return ← finishing k fuel n
    skipBody (4 * k + 1 + 4)
    elsewhere k fuel n
  have place (x : Cursor) (hx : Within ((indented p k).past [w, .colon]) c.words x d) :
      Slides (4 * k + 1) x e := h.slides x ((hx.append hd).prepend [w, .colon])
  refine (Carries.after (y := decide) (hterm ((m.moved c₁).moved c₂) rfl) live.skip (hm.moved c₂) hrun
    place fun a v m' σ₁ ha hm' hr hrun => ?_).congr (.round fun fuel n =>
      bind_of_ok (lift_of_ok h₂)) (Reaches.refl g (m.moved c₁) c₂).trans
  obtain ⟨rfl, hv⟩ := ha
  have live' : Live S m' := live.congr hr.skip hr.resume hr.mode
  -- the condition's value decides; the body that is not taken is skipped to its last line
  have counts : (truthy a : Eval _) m' = .ok a.value.counts m' := by
    simp only [truthy, ask, truthy_of_scalar _ hv]
  have entered := h.enter (hcolon m' hr.cursor) (by simp)
  have steps (fuel n : Nat) : decide a fuel n m' = _ :=
    (bind_of_ok counts).trans (bind_of_ok (lift_of_ok entered))
  refine Carries.moves (b := inner) ?_ steps
  have live₁ : Live S (m'.moved inner) := live'.congr rfl rfl rfl
  cases ht : a.value.counts with
  | true =>
    rw [ht, if_pos rfl] at hrun
    exact (carries_finish rest h hbody hh he live₁ (hm'.moved inner) rfl hrun).congr
      (.congr fun _ _ => rfl) id
  | false =>
    rw [ht, if_neg (by simp)] at hrun
    have passed := h.skipBody (m'.moved inner) rfl
    refine Carries.moves (b := outer) ?_ fun fuel n => bind_of_ok (lift_of_ok passed)
    exact hrest hh (h.rest (m'.moved outer) rfl) he (live'.congr rfl rfl rfl) (hm'.moved outer) hrun

/-- Behind a branch that is not taken. -/
theorem Branches.simulated_done : Branches.done.Simulated g := by
  intro S k p m e σ σ' o hh hl he live hm hrun
  obtain rfl : m.thread.cursor = e := hl.moved_eq
  obtain ⟨rfl, rfl⟩ := Prod.mk.inj (Option.some.inj hrun)
  refine .normal m (.of_eq fun fuel n => ?_) hm (.refl g m _)
  have none := he.no_branch
  by_cases hc : m.thread.cursor.current.column = 4 * k + 1
  · simp only [elsewhere, Bind.bind, EStateM.bind, current]
    rw [if_neg (not_not_intro hc)]
    generalize m.thread.cursor.current.kind = t at none
    cases t <;> first | rfl | exact absurd ⟨.inl rfl, hc⟩ none | exact absurd ⟨.inr rfl, hc⟩ none
  · simp only [elsewhere, Bind.bind, EStateM.bind, current]
    rw [if_pos hc]
    rfl

theorem Branches.simulated_elif {c : Term} {body : Block} {rest : Branches}
    (hbody : body.Simulated g) (hrest : rest.Simulated g) :
    (Branches.elif c body rest).Simulated g := by
  intro S k p m e σ σ' o hh hl he live hm hrun
  obtain ⟨inner, outer, opening⟩ := Lines.opening hl ((Branches.elif c body rest).deep_rows k)
    (rest.behind k) he
  obtain ⟨c₁, h₁, hs₁⟩ := opening.header.bump
  refine Carries.moves (b := c₁) (carries_branching opening hbody hrest hh he
    (live.congr rfl rfl rfl) (hm.moved c₁) hs₁ hrun) fun fuel n => ?_
  have kind : m.thread.cursor.current.kind = .kwElif := opening.header.kind
  have column : m.thread.cursor.current.column = 4 * k + 1 := hl.onLine.column
  simp only [elsewhere, Bind.bind, EStateM.bind, current]
  rw [if_neg (not_not_intro column), kind]
  exact bind_of_ok (lift_of_ok h₁)

theorem Branches.simulated_otherwise {body : Block} (hbody : body.Simulated g) :
    (Branches.otherwise body).Simulated g := by
  intro S k p m e σ σ' o hh hl he live hm hrun
  obtain ⟨inner, opening⟩ := Lines.opening_last hl (sealed_one rfl) he
  obtain ⟨c₁, h₁, hs₁⟩ := opening.header.bump
  have entered := opening.enter hs₁ (by simp)
  refine Carries.moves (b := inner) (carries_finish .done opening hbody hh he
    (live.congr rfl rfl rfl) (hm.moved inner) rfl hrun) fun fuel n => ?_
  have kind : m.thread.cursor.current.kind = .kwElse := opening.header.kind
  have column : m.thread.cursor.current.column = 4 * k + 1 := hl.onLine.column
  simp only [elsewhere, Bind.bind, EStateM.bind, current]
  rw [if_neg (not_not_intro column), kind]
  exact (bind_of_ok (lift_of_ok h₁)).trans (bind_of_ok (lift_of_ok entered))

theorem carries_branch {c : Term} {body : Block} {rest : Branches} (hbody : body.Simulated g)
    (hrest : rest.Simulated g) (hh : Honours g S.apply) (he : Borders k e)
    (hl : Lines ((Statement.branch c body rest).rows k) p m e) (live : Live S m) (hm : Mirrors g σ m)
    (hrun : (Statement.branch c body rest).exec S k p σ = some (o, σ')) :
    Carries g k stating m e o σ' := by
  obtain ⟨inner, outer, opening⟩ := Lines.opening hl ((Statement.branch c body rest).deep_rows k)
    (rest.behind k) he
  obtain ⟨c₁, h₁, hs₁⟩ := opening.header.bump
  refine Carries.moves (b := c₁) (carries_branching opening hbody hrest hh he
    (live.congr rfl rfl rfl) (hm.moved c₁) hs₁ hrun) fun fuel n => ?_
  have kind : m.thread.cursor.current.kind = .kwIf := opening.header.kind
  have column : (Word.if.token (indented p k)).column = 4 * k + 1 := (indented_eq hl.column k).2.1
  have run : statement (jobs fuel) n m = ifStatement (jobs fuel) n m := by
    simp only [statement, Bind.bind, EStateM.bind, current, mode, live.members, Bool.false_and,
      Bool.false_eq_true, if_false, kind]
  refine run.trans ((bind_of_ok (lift_of_ok h₁)).trans ?_)
  rw [column]
  rfl

end Rewind.Tree
