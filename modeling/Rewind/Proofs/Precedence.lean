/-
Expressions are evaluated as their trees.

The evaluator has no tree.  It reads an expression off its text, one function for each level of
precedence, and looks ahead for the `if` of a conditional, whose sides it finds by going back.  On
the printed text of a tree it moves exactly over that text and comes to the value of the tree, or
stops where the value does.

What is shown for the parts of a tree is about a level, some words and a value: evaluating the words
at the level comes to what is behind them with the value, and while skipping to the same place.

* `Comes` — what a computation comes to, to be gone on with;
* `Stands` — a machine before the words of a line, to whose names values are bound;
* `Evaluates`, `Opens` — some words evaluated at a level, with nothing behind them that continues an
  expression of the level, or with operators of it behind them;
* `Operates`, `operates` — one operator with its right operand, behind the left one;
* `evaluates_conditional` — the condition first, then one of the sides;
* `Expr.evaluable` — every expression, by induction on its tree;
* `Expr.evaluation_of_tree` — the printed text of a tree has the value of the tree.
-/
import Rewind.Proofs.Grammar
import Rewind.Proofs.Walk
import Rewind.Proofs.Turns
import Rewind.Eval.Engine

namespace Rewind

open Eval

/-! ### Looking up a name -/

theorem resolve_run (name : String) (m : Machine) :
    (resolve name : Eval _) m =
      match m.world.scopes.resolve m.thread.scope name with
      | none => .ok none m
      | some found =>
        match m.world.scopes.blueprint? found with
        | none => .ok (some found) m
        | some b =>
          if m.world.isInUse b m.thread.mode.owner m.thread.scope then .ok (some found) m
          else if m.world.reaches m.roots b.cell then .ok (some found) m
          else
            .ok ((m.world.dissolve m.roots).scopes.resolve m.thread.scope name)
              { m with world := m.world.dissolve m.roots } := by
  simp only [resolve, bind, EStateM.bind, scope, ask]
  cases hr : m.world.scopes.resolve m.thread.scope name with
  | none => rfl
  | some found =>
    simp only [EStateM.bind, ask]
    cases hb : m.world.scopes.blueprint? found with
    | none => rfl
    | some b =>
      simp only [EStateM.bind, mode, ask]
      -- what the blueprint is asked for: somebody runs in it, or it can be reached; only then is
      -- it kept
      by_cases hu : m.world.isInUse b m.thread.mode.owner m.thread.scope = true
      · rw [if_pos hu, if_pos hu]
        rfl
      rw [if_neg hu, if_neg hu]
      by_cases hc : m.world.reaches m.roots b.cell = true
      · rw [if_pos hc]
        show (if m.world.reaches m.roots b.cell = true then _ else _ : Eval _) m = _
        rw [if_pos hc]
        rfl
      · rw [if_neg hc]
        show (if m.world.reaches m.roots b.cell = true then _ else _ : Eval _) m = _
        rw [if_neg hc]
        rfl

theorem lookup_alike {m m' : Machine} {name : String} {r : Option Value} (hw : m'.world = m.world)
    (hs : m'.thread.scope = m.thread.scope) (hm : m'.thread.mode = m.thread.mode)
    (hr : m'.roots = m.roots) (h : (lookup name : Eval _) m = .ok r m) :
    (lookup name : Eval _) m' = .ok r m' := by
  obtain ⟨found, w, h₁, h₂⟩ : ∃ found w, (resolve name : Eval _) m = .ok found { m with world := w } ∧
      (resolve name : Eval _) m' = .ok found { m' with world := w } := by
    -- every test that `resolve` makes is about what the two machines share
    rw [resolve_run, resolve_run, hw, hs, hm, hr]
    split
    · exact ⟨_, m.world, rfl, by rw [← hw]⟩
    split
    · exact ⟨_, m.world, rfl, by rw [← hw]⟩
    split
    · exact ⟨_, m.world, rfl, by rw [← hw]⟩
    split
    · exact ⟨_, m.world, rfl, by rw [← hw]⟩
    · exact ⟨_, _, rfl, rfl⟩
  have run {m : Machine} (h : (resolve name : Eval _) m = .ok found { m with world := w }) :
      (lookup name : Eval _) m =
        .ok (found.bind fun r => w.scopes.getLocal? r name) { m with world := w } := by
    simp only [lookup, bind, EStateM.bind, h]
    cases found <;> rfl
  rw [run h₁] at h
  obtain ⟨hv, he⟩ := EStateM.Result.ok.inj h
  have hw' : w = m'.world := by rw [hw, ← he]
  rw [run h₂, hv, hw']

theorem lookup_of_resolve {m : Machine} {name : String} {r : Ref .scope}
    (h : m.world.scopes.resolve m.thread.scope name = some r)
    (hb : m.world.scopes.blueprint? r = none) :
    (lookup name : Eval _) m = .ok (m.world.scopes.getLocal? r name) m := by
  have hr : (resolve name : Eval _) m = .ok (some r) m := by
    rw [resolve_run, h]
    dsimp only
    rw [hb]
  simp only [lookup, bind, EStateM.bind, hr]
  rfl

/-! ### What evaluation comes to -/

/-- Begun in `m`, the computation `x` comes to `d` with the value of `o` and goes on there as `k`
does, or stops as `o` does.  While skipping it comes to `d` with a value of no meaning. -/
inductive Comes (k : Held → Eval Held) (x : Eval Held) (m : Machine) (d : Cursor)
    (o : Except Interrupt Value) : Prop
  | value (h : Held) (hs : h.value.scalar = true) (ho : m.thread.skip = 0 → o = .ok h.value)
    (hx : x m = k h (m.moved d))
  | stop (i : Interrupt) (c : Cursor) (hm : m.thread.skip = 0) (ho : o = .error i)
    (hx : x m = .error i (m.moved c))

variable {k k' : Held → Eval Held} {x : Eval Held} {m : Machine} {b d : Cursor}
  {o : Except Interrupt Value} {ℓ n fuel : Nat} {p : Position} {us ws : List Word}
  {ρ : String → Option Value}

theorem Comes.trans {g : Value → Except Interrupt Value} (h : Comes k x m b o)
    (hk : ∀ left, left.value.scalar = true →
      Comes k' (k left) (m.moved b) d (g left.value)) :
    Comes k' x m d (o >>= g) := by
  cases h with
  | stop i c hm ho hx => exact .stop i c hm (by rw [ho]; rfl) hx
  | value left hs ho hx =>
    cases hk left hs with
    | stop i c hm ho' hx' => exact .stop i c hm (by rw [ho hm]; exact ho') (hx.trans hx')
    | value right hs' ho' hx' =>
      exact .value right hs' (fun hm => by rw [ho hm]; exact ho' hm) (hx.trans hx')

theorem Comes.andThen (h : Comes pure x m d o) (f : Held → Eval Held) : Comes f (x >>= f) m d o := by
  cases h with
  | stop i c hm ho hx => exact .stop i c hm ho (by simp only [bind, EStateM.bind, hx])
  | value left hs ho hx =>
    exact .value left hs ho (by simp only [bind, EStateM.bind, hx]; rfl)

theorem Comes.bind {f : Held → Eval Held} {g : Value → Except Interrupt Value}
    (h : Comes pure x m b o)
    (hf : ∀ left, left.value.scalar = true → Comes k (f left) (m.moved b) d (g left.value)) :
    Comes k (x >>= f) m d (o >>= g) := (h.andThen f).trans hf

theorem Comes.close (h : Comes k x m b o)
    (hk : ∀ left, k left (m.moved b) = .ok left (m.moved d)) : Comes pure x m d o := by
  cases h with
  | stop i c hm ho hx => exact .stop i c hm ho hx
  | value left hs ho hx => exact .value left hs ho (hx.trans (hk left))

/-- A computation that begins as another one does. -/
theorem Comes.congr {y : Eval Held} {m' : Machine} (h : Comes k y m' d o) (hy : x m = y m')
    (hd : ∀ c, m'.moved c = m.moved c) : Comes k x m d o := by
  have hs : m'.thread.skip = m.thread.skip := by
    have := congrArg (fun m : Machine => m.thread.skip) (hd d)
    exact this
  cases h with
  | stop i c hm ho hx => exact .stop i c (hs ▸ hm) ho (by rw [hy, hx, hd])
  | value left hl ho hx => exact .value left hl (hs ▸ ho) (by rw [hy, hx, hd])

/-! ### A machine at a line -/

/-- The names among the words have the values that `ρ` gives, scalars all of them, and to look them
up changes nothing. -/
def Shows (ρ : String → Option Value) (ws : List Word) (m : Machine) : Prop :=
  ∀ x, Word.name x ∈ ws →
    (lookup x.text : Eval _) m = .ok (ρ x.text) m ∧ ∀ v ∈ ρ x.text, v.scalar = true

/-- The machine stands on the first of the words `ws`, which begin at `p`; behind them is `d`. -/
structure Stands (ρ : String → Option Value) (ws : List Word) (p : Position) (m : Machine)
    (d : Cursor) : Prop where
  crosses : m.thread.cursor.Crosses (row p ws) d
  sound : m.thread.cursor.Sound
  shows : Shows ρ ws m

/-- A machine that differs in its cursor only, in whether it skips, and in scalars it holds. -/
structure Alike (m m' : Machine) : Prop where
  world : m'.world = m.world
  scope : m'.thread.scope = m.thread.scope
  mode : m'.thread.mode = m.thread.mode
  roots : m'.roots = m.roots

theorem alike_moved (m : Machine) (c : Cursor) : Alike m (m.moved c) := ⟨rfl, rfl, rfl, rfl⟩

/-- The machine while it holds a value. -/
def Machine.pinning (m : Machine) (v : Value) : Machine :=
  { m with pinned := .values [v] :: m.pinned }

theorem alike_pinning {v : Value} (h : v.scalar = true) : Alike m (m.pinning v) := by
  refine ⟨rfl, rfl, rfl, ?_⟩
  have hc : Pin.cells (.values [v]) = [] := by
    cases v <;> first | rfl | contradiction
  show m.globals.cell :: m.moduleScopes.map Ref.cell ++ cellsOf (m.modules.map (·.2)) ++
    m.thread.cells ++ (Pin.values [v] :: m.pinned).flatMap Pin.cells ++
    m.world.loop.ready.map Ref.cell ++ m.world.loop.sleepers.map (·.2.cell) = _
  rw [List.flatMap_cons, hc]
  rfl

/-- The machine while it skips. -/
def Machine.skipping (m : Machine) : Machine :=
  { m with thread := { m.thread with skip := m.thread.skip + 1 } }

theorem alike_skipping (m : Machine) : Alike m m.skipping := ⟨rfl, rfl, rfl, rfl⟩

theorem Shows.alike {m' : Machine} (h : Shows ρ ws m) (ha : Alike m m') : Shows ρ ws m' :=
  fun x hx => ⟨lookup_alike ha.world ha.scope ha.mode ha.roots (h x hx).1, (h x hx).2⟩

theorem Shows.sublist (h : Shows ρ ws m) (hu : us ⊆ ws) : Shows ρ us m :=
  fun x hx => h x (hu hx)

namespace Stands

theorem pinning {v : Value} (h : Stands ρ ws p m d) (hv : v.scalar = true) :
    Stands ρ ws p (m.pinning v) d :=
  ⟨h.crosses, h.sound, h.shows.alike (alike_pinning hv)⟩

theorem skipping (h : Stands ρ ws p m d) : Stands ρ ws p m.skipping d :=
  ⟨h.crosses, h.sound, h.shows.alike (alike_skipping m)⟩

/-- Some words of a line, and those behind them. -/
theorem split (us : List Word) (h : Stands ρ (us ++ ws) p m d) :
    ∃ b, Stands ρ us p m b ∧ Stands ρ ws (p.past us) (m.moved b) d := by
  have hc := h.crosses
  rw [row_append] at hc
  obtain ⟨b, hb, hd⟩ := hc.append_inv
  exact ⟨b, ⟨hb, h.sound, h.shows.sublist (List.subset_append_left _ _)⟩,
    ⟨hd, (hb.sound h.sound).1,
      (h.shows.sublist (List.subset_append_right _ _)).alike (alike_moved m b)⟩⟩

theorem source_eq {b : Cursor} (h : Stands ρ ws p m b) : b.source = m.thread.cursor.source :=
  (h.crosses.sound h.sound).2

variable {w : Word}

theorem current (h : Stands ρ (w :: ws) p m d) : m.thread.cursor.current = w.token p :=
  h.crosses.cons_inv.1

theorem kind (h : Stands ρ (w :: ws) p m d) : m.thread.cursor.kind = w.kind := by
  rw [Cursor.kind, h.current]
  rfl

theorem steps (h : Stands ρ (w :: ws) p m d) :
    ∃ b, m.thread.cursor.bump = .ok b ∧ Stands ρ ws (p.past [w]) (m.moved b) d := by
  obtain ⟨b, hb, hd⟩ := split [w] h
  obtain ⟨-, c, hc, hs⟩ := hb.crosses.cons_inv
  cases hs
  exact ⟨_, hc, hd⟩

/-- On to the next word. -/
theorem bump (h : Stands ρ (w :: ws) p m d) :
    ∃ b, (Eval.bump : Run _) m = .ok (w.token p) (m.moved b) ∧
      Stands ρ ws (p.past [w]) (m.moved b) d := by
  obtain ⟨b, hb, hs⟩ := h.steps
  refine ⟨b, ?_, hs⟩
  simp only [Eval.bump, Eval.current, Eval.move, Bind.bind, EStateM.bind, hb, h.current]
  rfl

/-- On to the next word, where this one is wanted. -/
theorem advance (h : Stands ρ (w :: ws) p m d) :
    ∃ b, (Eval.advance w.kind : Run _) m = .ok (w.token p) (m.moved b) ∧
      Stands ρ ws (p.past [w]) (m.moved b) d := by
  obtain ⟨b, hb, hs⟩ := h.steps
  refine ⟨b, ?_, hs⟩
  have hm : m.thread.cursor.advance w.kind = .ok b := by
    rw [Cursor.advance, if_pos h.kind, hb]
  simp only [Eval.advance, Eval.current, Eval.move, Bind.bind, EStateM.bind, hm, h.current]
  rfl

end Stands

/-! ### The levels -/

/-- The evaluator at a level of precedence. -/
def atLevel : Nat → Jobs → Nat → Eval Held
  | 2, j, n => orExpr j n
  | 3, j, n => andExpr j n
  | 4, j, n => equality j n
  | 5, j, n => identity j n
  | 6, j, n => comparison j n
  | 7, j, n => additive j n
  | 8, j, n => multiplicative j n
  | 9, j, n => unaryExpr j n
  | 10, j, n => power j n
  | 11, j, n => do chain j n (← primary j n)
  | _, j, n => conditional j n

/-- What a level of binary operators does behind its first operand. -/
def tailAt : Nat → Jobs → Nat → Held → Eval Held
  | 2, j, n => orTail j n
  | 3, j, n => andTail j n
  | 4, j, n => equalityTail j n
  | 5, j, n => identityTail j n
  | 6, j, n => comparisonTail j n
  | 7, j, n => additiveTail j n
  | 8, j, n => multiplicativeTail j n
  | _, _, _ => pure

/-- What a power does behind its base. -/
def powerTail (j : Jobs) (base : Held) : Eval Held := do
  if (← kind) ≠ .caret then return base
  let op ← bump
  let exponent ← holding [base.value] j.unary
  unlessSkipping do
    return .fresh (← orComplain op (Value.power op base.value exponent.value))

theorem power_eq (j : Jobs) (n : Nat) : atLevel 10 j n = atLevel 11 j n >>= powerTail j := by
  simp only [atLevel, power, bind_assoc]
  rfl

/-- How a level of binary operators evaluates an operand. -/
def headAt : Nat → Jobs → Nat → Eval Held
  | 8, j, _ => j.unary
  | ℓ, j, n => atLevel (ℓ + 1) j n

theorem atLevel_eq (j : Jobs) (n : Nat) (h₁ : 2 ≤ ℓ) (h₂ : ℓ ≤ 8) :
    atLevel ℓ j n = headAt ℓ j n >>= tailAt ℓ j n := by
  match ℓ, h₁, h₂ with
  | 2, _, _ | 3, _, _ | 4, _, _ | 5, _, _ | 6, _, _ | 7, _, _ | 8, _, _ => rfl

theorem skipOver_of_ne {t : TokenKind} (h : m.thread.cursor.kind ≠ t) :
    (skipOver t : Run _) m = .ok false m := by
  simp only [skipOver, bind, EStateM.bind, kind, if_neg h]
  rfl

/-- A token that does not continue an expression at its level ends it there. -/
theorem tailAt_stops {j : Jobs} {left : Held} (h₁ : 2 ≤ ℓ) (h₂ : ℓ ≤ 8)
    (hk : m.thread.cursor.kind.joins ≠ ℓ) : tailAt ℓ j (n + 1) left m = .ok left m := by
  have apart {t : TokenKind} {f : Bool → Eval Held} (ht : t.joins = ℓ)
      (hf : f false = pure left) :
      (liftM (skipOver t : Run _) >>= f : Eval Held) m = .ok left m := by
    have hn : m.thread.cursor.kind ≠ t := fun h => hk (h ▸ ht)
    simp only [bind, EStateM.bind, Quiet.run_lift, skipOver_of_ne hn, hf]
    rfl
  match ℓ, h₁, h₂ with
  | 2, _, _ => exact apart (t := .kwOr) rfl rfl
  | 3, _, _ => exact apart (t := .kwAnd) rfl rfl
  | 5, _, _ => exact apart (t := .kwIs) rfl rfl
  | 4, _, _ | 6, _, _ | 7, _, _ | 8, _, _ =>
    simp only [tailAt, equalityTail, comparisonTail, additiveTail, multiplicativeTail, bind,
      EStateM.bind, kind]
    generalize m.thread.cursor.kind = t at hk
    cases t <;> first | rfl | exact absurd rfl hk

/-- An end of an expression that is seen by looking ahead from the line `line`. -/
def Ends (line : Nat) (d : Cursor) : Prop :=
  d.kind = .eof ∨ d.kind.closes = true ∨ Cursor.endsExpression d.kind = true ∨ line < d.current.line

/-- Evaluating the words `ws` at the level `ℓ` comes to what is behind them with the value `o`,
whatever the place they begin at.  Behind them stands nothing that continues an expression of the
level, and behind an expression of the loosest level stands an end that can be seen ahead. -/
structure Evaluates (ρ : String → Option Value) (ℓ : Nat) (ws : List Word)
    (o : Position → Except Interrupt Value) : Prop where
  comes (fuel n : Nat) {p : Position} {m : Machine} {d : Cursor} :
    2 * ws.length + (if ℓ ≤ 8 then 1 else 0) ≤ fuel → 2 * ws.length + (if ℓ ≤ 8 then 1 else 0) ≤ n →
    Stands ρ ws p m d → d.kind.joins < ℓ → (ℓ = 1 → Ends p.line d) →
    Comes pure (atLevel ℓ (jobs fuel) n) m d (o p)

/-- The same where operators of the level may follow: evaluation is then behind its first operand. -/
structure Opens (ρ : String → Option Value) (ℓ : Nat) (ws : List Word)
    (o : Position → Except Interrupt Value) : Prop where
  comes {fuel n : Nat} {p : Position} {m : Machine} {d : Cursor} :
    2 * ws.length + 1 ≤ fuel → 2 * ws.length + 1 ≤ n → Stands ρ ws p m d → d.kind.joins ≤ ℓ →
    ∃ n', n ≤ n' + ws.length ∧
      Comes (tailAt ℓ (jobs fuel) n') (atLevel ℓ (jobs fuel) n) m d (o p)

variable {o : Position → Except Interrupt Value}

/-- An operand of a level of binary operators. -/
theorem Evaluates.head (h : Evaluates ρ (ℓ + 1) ws o) (h₁ : 2 ≤ ℓ) (h₂ : ℓ ≤ 8)
    (hf : 2 * ws.length + 1 ≤ fuel) (hn : 2 * ws.length + 1 ≤ n) (hs : Stands ρ ws p m d)
    (hk : d.kind.joins ≤ ℓ) : Comes pure (headAt ℓ (jobs fuel) n) m d (o p) := by
  -- the operands of a product are evaluated by a job of their own, which costs one unit of fuel
  by_cases h8 : ℓ = 8
  · subst h8
    obtain ⟨fuel, rfl⟩ : ∃ f, fuel = f + 1 := ⟨fuel - 1, by omega⟩
    exact h.comes _ fuel (by simpa using hf) (by simpa using hf) hs (by omega) (by omega)
  · have hhead : headAt ℓ (jobs fuel) n = atLevel (ℓ + 1) (jobs fuel) n := by
      match ℓ, h₁, h₂ with
      | 2, _, _ | 3, _, _ | 4, _, _ | 5, _, _ | 6, _, _ | 7, _, _ => rfl
      | 8, _, _ => contradiction
    have hℓ : ℓ + 1 ≤ 8 := by omega
    rw [hhead]
    exact h.comes _ _ (by rwa [if_pos hℓ]) (by rwa [if_pos hℓ]) hs (by omega) (by omega)

theorem Evaluates.opens (h : Evaluates ρ (ℓ + 1) ws o) (h₁ : 2 ≤ ℓ) (h₂ : ℓ ≤ 8) : Opens ρ ℓ ws o := by
  constructor
  intro fuel n p m d hf hn hs hk
  refine ⟨n, Nat.le_add_right _ _, ?_⟩
  rw [atLevel_eq _ _ h₁ h₂]
  exact (h.head h₁ h₂ hf hn hs hk).andThen _

theorem Opens.works (h : Opens ρ ℓ ws o) (h₁ : 2 ≤ ℓ) (h₂ : ℓ ≤ 8) : Evaluates ρ ℓ ws o := by
  constructor
  intro fuel n p m d hf hn hs hk _
  rw [if_pos h₂] at hf hn
  obtain ⟨n', hn', hc⟩ := h.comes hf hn hs (Nat.le_of_lt hk)
  obtain ⟨n', rfl⟩ : ∃ k, n' = k + 1 := ⟨n' - 1, by omega⟩
  -- what follows continues no expression of the level, so the tail has nothing to do
  exact hc.close fun left => tailAt_stops h₁ h₂ (Nat.ne_of_lt hk)

/-- A power that no other operand of a power follows. -/
theorem Evaluates.power (h : Evaluates ρ 11 ws o) : Evaluates ρ 10 ws o := by
  constructor
  intro fuel n p m d hf hn hs hk _
  rw [power_eq]
  refine ((h.comes _ _ hf hn hs (Nat.lt_succ_of_lt hk) (by omega)).andThen _).close fun left => ?_
  have hc : (m.moved d).thread.cursor.kind ≠ .caret := by
    intro hc
    rw [show d.kind = .caret from hc] at hk
    exact absurd hk (by decide)
  simp only [powerTail, bind, EStateM.bind, kind]
  rw [if_pos hc]
  rfl

/-- A unary operand without a sign is a power. -/
theorem Evaluates.unary (h : Evaluates ρ 10 ws o) (hb : Begins false ws) : Evaluates ρ 9 ws o := by
  constructor
  intro fuel n p m d hf hn hs hk _
  refine (h.comes _ _ hf hn hs (Nat.lt_succ_of_lt hk) (by omega)).congr ?_ fun _ => rfl
  obtain ⟨w, vs, rfl, hw⟩ := hb
  -- the first word is no sign, so the unary operator falls through to the power
  simp only [atLevel, unaryExpr, bind, EStateM.bind, kind, hs.kind]
  generalize w.kind = t at hw
  cases t <;> first | rfl | contradiction

/-! ### Looking ahead for a conditional -/

namespace Cursor

variable {c c' : Cursor} {depth depth' : Nat}

/-- A token that does not end the search leads on to the next one, which ends it on a later line. -/
theorem conditionalFrom_bump (hb : c.bump = .ok c')
    (hp : c.current.kind.passed depth = some depth') :
    conditionalFrom depth c.current c.behind =
      if depth' = 0 ∧ c.current.stop.line < c'.current.line then .ok false
      else conditionalFrom depth' c'.current c'.behind := by
  unfold bump at hb
  split at hb
  · contradiction
  rename_i t behind hs
  obtain rfl := Except.ok.inj hb
  unfold TokenKind.passed at hp
  split at hp
  · contradiction
  rename_i hk
  have hd := Option.some.inj hp
  obtain ⟨he, hk⟩ := not_or.1 hk
  conv => lhs; unfold conditionalFrom
  rw [if_neg he, if_neg (fun h => hk ⟨h.1, .inl h.2⟩), if_neg (fun h => hk ⟨h.1, .inr (.inl h.2)⟩),
    if_neg (fun h => hk ⟨h.1, .inr (.inr h.2)⟩), hd]
  dsimp only
  split
  · rename_i hs'
    rw [hs] at hs'
    contradiction
  · rename_i hs'
    rw [hs] at hs'
    obtain ⟨rfl, rfl⟩ := Prod.mk.inj (Except.ok.inj hs')
    by_cases hl : depth' = 0 ∧ c.current.stop.line < t.line
    · rw [if_pos hl, if_pos hl]
    rw [if_neg hl, if_neg hl]
    -- behind the end of the file there is no token to read, and the search is over there
    by_cases ht : t.kind = .eof
    · rw [dif_pos ht, conditionalFrom, if_pos ht]
    · rw [dif_neg ht]

/-- The search goes from the first word of a line over all of them. -/
theorem conditionalFrom_crosses {p : Position} {w : Word} {ws : List Word}
    (hc : c.Crosses (row p (w :: ws)) c') (hw : walk depth (w :: ws) = some depth') :
    conditionalFrom depth c.current c.behind =
      if depth' = 0 ∧ p.line < c'.current.line then .ok false
      else conditionalFrom depth' c'.current c'.behind := by
  induction ws generalizing p w c depth with
  | nil =>
    obtain ⟨hcur, b, hb, hs⟩ := hc.cons_inv
    obtain rfl : b = c' := by
      cases hs
      rfl
    have hp : c.current.kind.passed depth = some depth' := by
      rw [hcur]
      show w.kind.passed depth = some depth'
      simpa [walk] using hw
    rw [conditionalFrom_bump hb hp, hcur, (line_of_mem_row (show w.token p ∈ row p [w] by simp [row])).2]
  | cons v ws ih =>
    obtain ⟨hcur, b, hb, hs⟩ := hc.cons_inv
    obtain ⟨depth₁, hp, hrest⟩ := Option.bind_eq_some_iff.1 hw
    have hp' : c.current.kind.passed depth = some depth₁ := by
      rw [hcur]
      exact hp
    have hline : ¬(depth₁ = 0 ∧ c.current.stop.line < b.current.line) := by
      rw [hcur, hs.cons_inv.1, (line_of_mem_row (show w.token p ∈ row p [w] by simp [row])).2]
      exact fun h => absurd h.2 (by simp [Token.line, Word.token])
    -- the next word is on the same line, so the search is not cut off before it
    rw [conditionalFrom_bump hb hp', if_neg hline, ih hs hrest, Position.line_past]

end Cursor

/-- Before an end that is no operator the search has found nothing. -/
theorem conditionalAhead_eq {c : Cursor} (hc : c.Crosses (row p ws) d) (hw : ws ≠ [])
    (hb : Balanced 0 ws) (hd : Ends p.line d) : c.conditionalAhead = .ok false := by
  obtain ⟨w, ws, rfl⟩ := List.exists_cons_of_ne_nil hw
  rw [Cursor.conditionalAhead, Cursor.conditionalFrom_crosses hc hb]
  split
  · rfl
  rename_i hline
  unfold Cursor.conditionalFrom
  split
  · rfl
  rename_i he
  -- every kind of end stops the search before it has seen an `if`
  obtain hd | hd | hd | hd := hd
  · exact absurd hd he
  · rw [if_pos ⟨rfl, hd⟩]
  · split
    · rfl
    rw [if_neg, if_pos ⟨rfl, hd⟩]
    rintro ⟨-, hif⟩
    rw [show d.kind = .kwIf from hif] at hd
    contradiction
  · exact absurd ⟨rfl, hd⟩ hline

/-- What is passed over behind the `if` of a conditional. -/
def passSides (j : Jobs) (n : Nat) : Eval Unit := do
  let _ ← orExpr j n
  let _ ← advance .kwElse
  let _ ← j.expression

/-- What a conditional does once an `if` has been seen ahead. -/
def decided (j : Jobs) (n : Nat) : Eval Held := do
  let start ← capture
  let _ ← skipping (orExpr j n)
  let _ ← advance .kwIf
  let taken ← truthy (← orExpr j n)
  let _ ← advance .kwElse
  if !taken then return ← j.expression
  rewind start
  let v ← orExpr j n
  skipping do
    let _ ← advance .kwIf
    passSides j n
  return v

theorem conditional_run {j : Jobs} {found : Bool} (hm : m.thread.skip = 0)
    (hc : m.thread.cursor.conditionalAhead = .ok found) :
    conditional j n m = if found then decided j n m else orExpr j n m := by
  have hg : (isSkipping : Eval Bool) m = .ok false m := by simp [isSkipping, hm]
  have hget : (get : Eval Machine) m = .ok m m := rfl
  rw [conditional, bind_of_ok hg, if_neg nofun, bind_of_ok hget, hc]
  cases found <;> rfl

theorem conditional_skips {j : Jobs} (hm : m.thread.skip ≠ 0) :
    conditional j n m = (do skipConditional j n; return Held.null : Eval Held) m := by
  have hs : (m.thread.skip != 0) = true := bne_iff_ne.2 hm
  simp only [conditional, bind, EStateM.bind, isSkipping, hs, if_true]

/-- An expression that is no conditional. -/
theorem Evaluates.whole (h : Evaluates ρ 2 ws o) (hw : ws ≠ []) (hb : Balanced 0 ws) :
    Evaluates ρ 1 ws o := by
  constructor
  intro fuel n p m d hf hn hs hk hd
  have hk' : d.kind.joins < 2 := Nat.lt_succ_of_lt hk
  by_cases hm : m.thread.skip = 0
  · refine (h.comes _ _ hf hn hs hk' (by omega)).congr ?_ fun _ => rfl
    exact conditional_run hm (conditionalAhead_eq hs.crosses hw hb (hd rfl))
  · cases h.comes _ _ hf hn hs hk' (by omega) with
    | stop i c hm' => exact absurd hm' hm
    | value left hl ho hx =>
      have hx' : orExpr (jobs fuel) n m = .ok left (m.moved d) := hx
      -- skipping, the conditional looks for an `if` behind its first side and finds none
      have hif : (m.moved d).thread.cursor.kind ≠ .kwIf := by
        intro hif
        rw [show d.kind = .kwIf from hif] at hk
        exact absurd hk (by decide)
      refine .value .null rfl (fun hm' => absurd hm' hm) ?_
      show conditional (jobs fuel) n m = .ok .null (m.moved d)
      rw [conditional_skips hm]
      simp only [skipConditional, bind, EStateM.bind, hx', Quiet.run_lift, skipOver_of_ne hif]
      rfl

/-- One level further. -/
theorem Evaluates.next (h : Evaluates ρ (ℓ + 1) ws o) (h₁ : 1 ≤ ℓ) (h₂ : ℓ ≤ 10) (hw : ws ≠ [])
    (hb : ℓ = 9 → Begins false ws) (hz : ℓ = 1 → Balanced 0 ws) : Evaluates ρ ℓ ws o := by
  by_cases hℓ : ℓ = 1
  · subst hℓ
    exact h.whole hw (hz rfl)
  by_cases h8 : ℓ ≤ 8
  · exact (h.opens (by omega) h8).works (by omega) h8
  obtain rfl | rfl : ℓ = 9 ∨ ℓ = 10 := by omega
  · exact h.unary (hb rfl)
  · exact h.power

/-- From its level on an expression is evaluated at every looser one. -/
theorem Evaluates.looser {top : Nat} (h : Evaluates ρ top ws o) (ht : top ≤ 11) (hw : ws ≠ [])
    (hb : 10 ≤ top → Begins false ws) (hz : 2 ≤ top → Balanced 0 ws) (h₁ : 1 ≤ ℓ) (hℓ : ℓ ≤ top) :
    Evaluates ρ ℓ ws o := by
  obtain ⟨k, rfl⟩ := Nat.exists_eq_add_of_le hℓ
  clear hℓ
  -- one level at a time, from `top` down
  induction k generalizing ℓ with
  | zero => exact h
  | succ k ih =>
    rw [show ℓ + (k + 1) = ℓ + 1 + k by omega] at h ht hb hz
    exact (ih (by omega) h ht hb hz).next h₁ (by omega) hw (fun _ => hb (by omega))
      (fun _ => hz (by omega))

/-! ### Operators -/

theorem Comes.holding {v : Value} {o : Except Interrupt Value}
    (h : Comes pure x (m.pinning v) d o) : Comes pure (holding [v] x) m d o := by
  cases h with
  | stop i c hm ho hx =>
    have hx' : x { m with pinned := .values [v] :: m.pinned } = _ := hx
    exact .stop i c hm ho (by simp only [Eval.holding, Eval.pinning, hx']; rfl)
  | value left hs ho hx =>
    have hx' : x { m with pinned := .values [v] :: m.pinned } = _ := hx
    exact .value left hs ho (by simp only [Eval.holding, Eval.pinning, hx']; rfl)

/-- While skipping, nothing stops an expression. -/
theorem Comes.skipping {o : Except Interrupt Value} (h : Comes pure x m.skipping d o) :
    ∃ left, Eval.skipping x m = .ok left (m.moved d) := by
  cases h with
  | stop i c hm => exact absurd hm (Nat.succ_ne_zero _)
  | value left hs ho hx =>
    have hx' : x { m with thread := { m.thread with skip := m.thread.skip + 1 } } = _ := hx
    exact ⟨left, by simp only [Eval.skipping, hx']; rfl⟩

/-- Behind both operands: the operator is passed over, or its value is what the rest goes on with. -/
theorem Comes.operates {tail z : Held → Eval Held} {left : Held} {o : Except Interrupt Value}
    {g : Value → Except Interrupt Value} (hx : Comes pure x m d o) (hl : left.value.scalar = true)
    (hz : ∀ right, right.value.scalar = true → m.thread.skip = 0 →
      Comes tail (z right) (m.moved d) d (g right.value)) :
    Comes tail (do
      let right ← x
      if ← isSkipping then tail left else z right : Eval Held) m d (o >>= g) := by
  refine hx.bind fun right hr => ?_
  -- while skipping the operator is not applied, and the left operand stands for the result
  by_cases hm : m.thread.skip = 0
  · refine (hz right hr hm).congr ?_ fun _ => rfl
    show (if (m.moved d).thread.skip != 0 then tail left else z right) (m.moved d) = _
    rw [show (m.moved d).thread.skip = 0 from hm]
    rfl
  · refine .value left hl (fun h => absurd h hm) ?_
    show (if (m.moved d).thread.skip != 0 then tail left else z right) (m.moved d) = _
    rw [show ((m.moved d).thread.skip != 0) = true from bne_iff_ne.2 hm]
    rfl

/-- A computation at `q` has the value of `r` or stops as `r` does, and changes nothing. -/
def Computes {α : Type} (y : Eval α) (mk : α → Held) (m : Machine) (q : Position) :
    Except Upset Value → Prop
  | .ok v => ∃ a, (mk a).value = v ∧ y m = .ok a m
  | .error u => y m = .error (Upset.at q u) m

theorem Computes.comes {α : Type} {y : Eval α} {mk : α → Held} {q : Position}
    {r : Except Upset Value} {tail : Held → Eval Held} (h : Computes y mk m q r)
    (hm : m.thread.skip = 0) (hv : ∀ v, r = .ok v → v.scalar = true) :
    Comes tail (do let a ← y; tail (mk a) : Eval Held) m m.thread.cursor
      (r.mapError (Upset.at q)) := by
  cases r with
  | ok v =>
    obtain ⟨a, rfl, ha⟩ := h
    exact .value (mk a) (hv _ rfl) (fun _ => rfl) (by simp only [bind, EStateM.bind, ha]; rfl)
  | error u =>
    have h : y m = .error (Upset.at q u) m := h
    exact .stop _ m.thread.cursor hm rfl (by simp only [bind, EStateM.bind, h]; rfl)

theorem computes_orComplain {α : Type} {mk : α → Held} (site : Token) {r : Except Upset Value}
    {e : Except Complaint α} (h : r = (e.map fun a => (mk a).value).mapError .complaint) :
    Computes (orComplain site e) mk m site.start r := by
  subst h
  cases e with
  | ok a => exact ⟨a, rfl, rfl⟩
  | error c => rfl

/-! ### The evaluator's arithmetic -/

theorem numeric_eq (op : Token) {f : Int → Int → Int} {g : Float → Float → Float} (a b : Value)
    (h : op.kind = .plus ∧ f = (· + ·) ∧ g = (· + ·) ∨ op.kind = .minus ∧ f = (· - ·) ∧ g = (· - ·) ∨
      op.kind = .star ∧ f = (· * ·) ∧ g = (· * ·)) :
    arithmetic op.text f g a b = (Value.numeric op a b).mapError .complaint := by
  unfold arithmetic Value.numeric
  obtain ⟨hk, rfl, rfl⟩ | ⟨hk, rfl, rfl⟩ | ⟨hk, rfl, rfl⟩ := h
  all_goals
    simp only [hk, Value.checked, Value.unsupported]
    grind [Except.mapError]

theorem compare_eq (op : Token) {f : Int → Int → Bool} {g : Float → Float → Bool} (a b : Value)
    (h : op.kind = .lt ∧ f = (fun x y => decide (x < y)) ∧ g = (fun x y => decide (x < y)) ∨
      op.kind = .gt ∧ f = (fun x y => decide (y < x)) ∧ g = (fun x y => decide (y < x)) ∨
      op.kind = .lte ∧ f = (fun x y => decide (x ≤ y)) ∧ g = (fun x y => decide (x ≤ y)) ∨
      op.kind = .gte ∧ f = (fun x y => decide (y ≤ x)) ∧ g = (fun x y => decide (y ≤ x))) :
    ordered op.text f g a b =
      ((Value.compare op a b).map Value.bool).mapError .complaint := by
  unfold ordered Value.compare
  obtain ⟨hk, rfl, rfl⟩ | ⟨hk, rfl, rfl⟩ | ⟨hk, rfl, rfl⟩ | ⟨hk, rfl, rfl⟩ := h
  all_goals
    simp only [hk]
    grind [Except.mapError, Except.map]

theorem divide_eq (op : Token) (a b : Value) (h : op.text = "/") :
    quotient a b = (Value.divide op a b).mapError .complaint := by
  unfold quotient Value.divide
  rw [Value.unsupported, h]
  grind [Except.mapError]

theorem remainder_eq (op : Token) (a b : Value) (h : op.text = "%") :
    remainder a b = (Value.remainder op a b).mapError .complaint := by
  unfold remainder Value.remainder
  rw [Value.unsupported, h]
  grind [Except.mapError]

theorem power_value (op : Token) (a b : Value) (h : op.text = "^") :
    raise a b = (Value.power op a b).mapError .complaint := by
  unfold raise Value.power
  rw [Value.unsupported, h]
  grind [Except.mapError]

theorem negate_eq (v : Value) : opposite v = v.negate.mapError .complaint := by
  unfold opposite Value.negate
  simp only [Value.checked]
  grind [Except.mapError]

theorem repeatText_eq (s : String) (n : Nat) :
    repeatText s n = String.join (List.replicate n s) := by
  have hr : Nat.repeat (· ++ s) n "" = String.join (List.replicate n s) := by
    induction n with
    | zero => rfl
    | succ n ih =>
      rw [Nat.repeat, ih, List.replicate_succ', String.join, String.join, List.foldl_append]
      rfl
  unfold repeatText
  -- an empty text is not repeated, which makes no difference
  split
  · rename_i hs
    obtain rfl := String.isEmpty_iff.1 hs
    rw [← hr]
    clear hr
    induction n with
    | zero => rfl
    | succ n ih =>
      rw [Nat.repeat, ← ih]
      rfl
  · exact hr

theorem truthy_of_scalar {v : Value} (w : Heap) (h : v.scalar = true) : w.truthy v = v.counts := by
  cases v <;> first | rfl | contradiction

/-! ### Operators behind their left operand -/

section Step

variable {left : Held} {value : Position → Except Interrupt Value}

/-- The value of an operator at `p` with the left operand `v`. -/
def Operator.outcome (op : Operator) (v : Value) (value : Position → Except Interrupt Value)
    (p : Position) : Except Interrupt Value :=
  if op.settledBy v then .ok v
  else do
    let w ← value (p.past op.words)
    (op.apply v w).mapError (Upset.at p)

/-- An operator of one word that needs both operands. -/
theorem comes_operator {op : Operator} {z : Token → Held → Eval Held}
    (hop : op.words = [op.word]) (hu : op.settledBy left.value = false)
    (hlevel : 2 ≤ op.level ∧ op.level ≤ 8) (hl : left.value.scalar = true)
    (hr : Evaluates ρ (op.level + 1) ws value) (hf : 2 * ws.length + 1 ≤ fuel)
    (hn : 2 * ws.length + 1 ≤ n) (hs : Stands ρ (op.words ++ ws) p m d)
    (hk : d.kind.joins ≤ op.level)
    (hrun : ∀ b, (bump : Run _) m = .ok (op.word.token p) (m.moved b) →
      m.thread.cursor.kind = op.word.kind →
      tailAt op.level (jobs fuel) (n + 1) left m = (do
        let right ← holding [left.value] (headAt op.level (jobs fuel) n)
        if ← isSkipping then tailAt op.level (jobs fuel) n left
        else z (op.word.token p) right : Eval Held) (m.moved b))
    (hz : ∀ right, right.value.scalar = true → m.thread.skip = 0 →
      Comes (tailAt op.level (jobs fuel) n) (z (op.word.token p) right) (m.moved d) d
        ((op.apply left.value right.value).mapError (Upset.at p))) :
    Comes (tailAt op.level (jobs fuel) n) (tailAt op.level (jobs fuel) (n + 1) left) m d
      (op.outcome left.value value p) := by
  rw [hop] at hs
  obtain ⟨b, hb, hs'⟩ := hs.bump
  rw [Operator.outcome, hu, hop]
  -- while the right operand is evaluated the left one is held, so that nothing takes its cell
  have hx := hr.head hlevel.1 hlevel.2 hf hn (hs'.pinning hl) hk
  exact (hx.holding.operates (z := z (op.word.token p))
    (g := fun v => (op.apply left.value v).mapError (Upset.at p)) hl hz).congr
    (hrun b hb hs.kind) fun _ => rfl

/-- What is behind the left operand of an operator works out the operator and goes on. -/
structure Operates (ρ : String → Option Value) (op : Operator) : Prop where
  step {fuel n : Nat} {p : Position} {m : Machine} {d : Cursor} {ws : List Word} {left : Held}
    {value : Position → Except Interrupt Value} : left.value.scalar = true →
    Evaluates ρ (op.level + 1) ws value → 2 * ws.length + 1 ≤ fuel → 2 * ws.length + 1 ≤ n →
    Stands ρ (op.words ++ ws) p m d → d.kind.joins ≤ op.level →
    (op = .is → ∃ w vs, ws = w :: vs ∧ w.kind ≠ .kwNot) →
    Comes (tailAt op.level (jobs fuel) n) (tailAt op.level (jobs fuel) (n + 1) left) m d
      (op.outcome left.value value p)

theorem operates_comparison {op : Operator} (hop : op.level = 6)
    (he : ∀ p a b, op.apply a b =
      ((Value.compare (op.word.token p) a b).map Value.bool).mapError .complaint) :
    Operates ρ op := by
  constructor
  intro fuel n p m d ws left value hl hr hf hn hs hk _
  refine comes_operator (z := fun site right => do
    let b ← orComplain site (Value.compare site left.value right.value)
    tailAt op.level (jobs fuel) n (.fresh (.bool b))) ?_ ?_ (by omega) hl hr hf hn hs hk ?_ ?_
  · cases op <;> first | rfl | contradiction
  · cases op <;> first | rfl | contradiction
  · -- the four operators differ in the word they are written with only
    intro b hb hc
    simp only [hop, tailAt, comparisonTail, bind, EStateM.bind, kind, hc]
    cases op
    all_goals first
      | contradiction
      | simp only [Operator.word, Word.kind, EStateM.bind, Quiet.run_lift, hb]
        rfl
  · intro right hright hm
    exact (computes_orComplain (op.word.token p) (he p left.value right.value)).comes hm
      fun v hv => Expr.scalar_apply _ hright hv

theorem operates_lt : Operates ρ .lt :=
  operates_comparison rfl fun p a b => compare_eq (Operator.lt.word.token p) a b
    (.inl ⟨rfl, rfl, rfl⟩)

theorem operates_gt : Operates ρ .gt :=
  operates_comparison rfl fun p a b => compare_eq (Operator.gt.word.token p) a b
    (.inr (.inl ⟨rfl, rfl, rfl⟩))

theorem operates_lte : Operates ρ .lte :=
  operates_comparison rfl fun p a b => compare_eq (Operator.lte.word.token p) a b
    (.inr (.inr (.inl ⟨rfl, rfl, rfl⟩)))

theorem operates_gte : Operates ρ .gte :=
  operates_comparison rfl fun p a b => compare_eq (Operator.gte.word.token p) a b
    (.inr (.inr (.inr ⟨rfl, rfl, rfl⟩)))

theorem operates_equality {op : Operator} (hop : op.level = 4)
    (he : ∀ p a b, op.apply a b =
      .ok (.bool (Value.equals a b != ((op.word.token p).kind == .neq)))) : Operates ρ op := by
  constructor
  intro fuel n p m d ws left value hl hr hf hn hs hk _
  refine comes_operator (z := fun site right => tailAt op.level (jobs fuel) n
    (.fresh (.bool (left.value.equals right.value != (site.kind == .neq))))) ?_ ?_ (by omega) hl hr
    hf hn hs hk ?_ ?_
  · cases op <;> first | rfl | contradiction
  · cases op <;> first | rfl | contradiction
  · intro b hb hc
    simp only [hop, tailAt, equalityTail, bind, EStateM.bind, kind, hc]
    cases op
    all_goals first
      | contradiction
      | simp only [Operator.word, Word.kind, EStateM.bind, Quiet.run_lift, hb]
        rfl
  · intro right hright hm
    rw [he p]
    exact .value _ rfl (fun _ => rfl) rfl

theorem operates_eq : Operates ρ .eq :=
  operates_equality rfl fun p a b => by
    show _ = Except.ok (Value.bool (a.equals b != false))
    cases h : a.equals b <;> simp [Operator.apply, h]

theorem operates_neq : Operates ρ .neq :=
  operates_equality rfl fun p a b => by
    show _ = Except.ok (Value.bool (a.equals b != true))
    cases h : a.equals b <;> simp [Operator.apply, h]

theorem computes_of_eq (site : Token) {r : Except Upset Value} {e : Except Complaint Value}
    (h : r = e.mapError .complaint) : Computes (orComplain site e) .fresh m site.start r := by
  refine computes_orComplain _ (h.trans ?_)
  cases e <;> rfl

theorem repeated_computes (s : String) (count : Int) (site : Token) :
    Computes (repeated s count site) .fresh m site.start (copies s count) := by
  unfold copies
  split
  · rename_i hc
    show repeated s count site m = _
    simp only [repeated, bind, EStateM.bind, if_pos hc]
    rfl
  split
  · rename_i hc hl
    show repeated s count site m = _
    simp only [repeated, bind, EStateM.bind, if_neg hc, if_pos hl]
    rfl
  · rename_i hc hl
    refine ⟨_, rfl, ?_⟩
    simp only [repeated, bind, if_neg hc, if_neg hl, repeatText_eq]
    rfl

/-- `*` repeats a text next to an integer and multiplies otherwise. -/
theorem star_cases (a b : Value) :
    (∃ s count, a = .str s ∧ b = .int count ∨ a = .int count ∧ b = .str s) ∨
      Operator.star.apply a b = arithmetic "*" (· * ·) (· * ·) a b ∧
        ∀ p, multiply (Operator.star.word.token p) a b =
          orComplain (Operator.star.word.token p)
            (Value.numeric (Operator.star.word.token p) a b) := by
  -- the evaluator asks for a text and an integer first, in either order
  cases a with
  | str s =>
    cases b with
    | int count => exact .inl ⟨s, count, .inl ⟨rfl, rfl⟩⟩
    | _ => exact .inr ⟨rfl, fun _ => rfl⟩
  | int count =>
    cases b with
    | str s => exact .inl ⟨s, count, .inr ⟨rfl, rfl⟩⟩
    | _ => exact .inr ⟨rfl, fun _ => rfl⟩
  | _ => exact .inr ⟨rfl, fun _ => rfl⟩

theorem multiply_computes {op : Operator} (hop : op.level = 8) (a b : Value) :
    Computes (multiply (op.word.token p) a b) .fresh m p (op.apply a b) := by
  cases op
  all_goals first | contradiction | skip
  · obtain ⟨s, count, ⟨rfl, rfl⟩ | ⟨rfl, rfl⟩⟩ | ⟨ha, hm⟩ := star_cases a b
    · exact repeated_computes s count _
    · exact repeated_computes s count _
    · rw [ha, hm]
      exact computes_of_eq _ (numeric_eq (Operator.star.word.token p) a b
        (.inr (.inr ⟨rfl, rfl, rfl⟩)))
  · exact computes_of_eq _ (divide_eq (Operator.slash.word.token p) a b rfl)
  · exact computes_of_eq _ (remainder_eq (Operator.percent.word.token p) a b rfl)

theorem operates_product {op : Operator} (hop : op.level = 8) : Operates ρ op := by
  constructor
  intro fuel n p m d ws left value hl hr hf hn hs hk _
  refine comes_operator (z := fun site right => do
    let v ← multiply site left.value right.value
    tailAt op.level (jobs fuel) n (.fresh v)) ?_ ?_ (by omega) hl hr hf hn hs hk ?_ ?_
  · cases op <;> first | rfl | contradiction
  · cases op <;> first | rfl | contradiction
  · intro b hb hc
    simp only [hop, tailAt, multiplicativeTail, bind, EStateM.bind, kind, hc]
    cases op
    all_goals first
      | contradiction
      | simp only [Operator.word, Word.kind, EStateM.bind, Quiet.run_lift, hb]
        rfl
  · intro right hright hm
    exact (multiply_computes hop left.value right.value).comes hm
      fun v hv => Expr.scalar_apply _ hright hv

/-- `+` joins texts and adds otherwise. -/
theorem plus_cases {a b : Value} (ha : a.scalar = true) :
    (Operator.plus.apply a b = .ok (.str (a.written ++ b.written)) ∧
      ((∃ s, a = .str s) ∨ ∃ s, b = .str s)) ∨
      Operator.plus.apply a b = arithmetic "+" (· + ·) (· + ·) a b ∧
        ∀ {j : Jobs} {site : Token} {left right : Held}, left.value = a → right.value = b →
          add j site left right = do
            return .fresh (← orComplain site (Value.numeric site a b)) := by
  cases a with
  | str s => exact .inl ⟨rfl, .inl ⟨s, rfl⟩⟩
  | int _ | float _ | bool _ | null =>
    cases b with
    | str s => exact .inl ⟨rfl, .inr ⟨s, rfl⟩⟩
    | _ =>
      refine .inr ⟨rfl, fun hl hr => ?_⟩
      simp only [add, hl, hr]
  | _ => contradiction

theorem render_of_scalar {j : Jobs} {v : Value} {site : Token} (hv : v.scalar = true) :
    (render j v site : Eval _) m = .ok v.written m := by
  cases v <;> first | rfl | contradiction

theorem add_computes {j : Jobs} {right : Held} (hl : left.value.scalar = true)
    (hr : right.value.scalar = true) :
    Computes (add j (Operator.plus.word.token p) left right) id m p
      (Operator.plus.apply left.value right.value) := by
  obtain ⟨ha, hs⟩ | ⟨ha, hadd⟩ := plus_cases (b := right.value) hl
  · have hadd : add j (Operator.plus.word.token p) left right =
        holding [left.value, right.value] (do
          let first ← render j left.value (Operator.plus.word.token p)
          let second ← render j right.value (Operator.plus.word.token p)
          return .fresh (.str (first ++ second)) : Eval Held) := by
      -- both operands are written out as texts, whichever of them is one
      obtain ⟨s, hs⟩ | ⟨s, hs⟩ := hs
      · simp only [add, hs]
      · simp only [add, hs]
        cases left.value <;> rfl
    rw [ha]
    refine ⟨.fresh (.str (left.value.written ++ right.value.written)), rfl, ?_⟩
    rw [hadd]
    simp only [holding, pinning, bind, EStateM.bind, render_of_scalar hl, render_of_scalar hr]
    rfl
  · rw [ha, hadd rfl rfl]
    have hn := numeric_eq (Operator.plus.word.token p) left.value right.value
      (.inl ⟨rfl, rfl, rfl⟩)
    rw [show arithmetic "+" (· + ·) (· + ·) left.value right.value = _ from hn]
    simp only [bind]
    cases Value.numeric (Operator.plus.word.token p) left.value right.value with
    | ok v => exact ⟨.fresh v, rfl, rfl⟩
    | error c => rfl

theorem operates_plus : Operates ρ .plus := by
  constructor
  intro fuel n p m d ws left value hl hr hf hn hs hk _
  refine comes_operator (z := fun site right => do
    let h ← add (jobs fuel) site left right
    tailAt 7 (jobs fuel) n h) rfl rfl (by decide) hl hr hf hn hs hk ?_ ?_
  · intro b hb hc
    simp only [Operator.level, tailAt, additiveTail, bind, EStateM.bind, kind, hc]
    simp only [Operator.word, Word.kind, EStateM.bind, Quiet.run_lift, hb]
    rfl
  · intro right hright hm
    exact (add_computes hl hright).comes hm fun v hv => Expr.scalar_apply _ hright hv

theorem operates_minus : Operates ρ .minus := by
  constructor
  intro fuel n p m d ws left value hl hr hf hn hs hk _
  refine comes_operator (z := fun site right => do
    let v ← orComplain site (Value.numeric site left.value right.value)
    tailAt 7 (jobs fuel) n (.fresh v)) rfl rfl (by decide) hl hr hf hn hs hk ?_ ?_
  · intro b hb hc
    simp only [Operator.level, tailAt, additiveTail, bind, EStateM.bind, kind, hc]
    simp only [Operator.word, Word.minus, Word.kind, EStateM.bind, Quiet.run_lift, hb]
    rfl
  · intro right hright hm
    have hc := computes_of_eq (m := m.moved d) (Operator.minus.word.token p) (numeric_eq
      (Operator.minus.word.token p) left.value right.value (.inr (.inl ⟨rfl, rfl, rfl⟩)))
    exact hc.comes hm fun v hv => Expr.scalar_apply .minus hright hv

theorem skipOver_of_eq {w : Word} (hs : Stands ρ (w :: ws) p m d) :
    ∃ b, (skipOver w.kind : Run _) m = .ok true (m.moved b) ∧
      Stands ρ ws (p.past [w]) (m.moved b) d := by
  obtain ⟨b, hb, hs'⟩ := hs.bump
  refine ⟨b, ?_, hs'⟩
  simp only [skipOver, bind, EStateM.bind, kind, if_pos hs.kind, hb]
  rfl

/-- Behind `is` and perhaps `not`. -/
theorem comes_identity {op : Operator} {b : Cursor} (negated : Bool)
    (hu : op.settledBy left.value = false)
    (he : ∀ v w, op.apply v w = .ok (.bool (Value.identical v w != negated)))
    (hl : left.value.scalar = true) (hr : Evaluates ρ 6 ws value)
    (hf : 2 * ws.length + 1 ≤ fuel) (hn : 2 * ws.length + 1 ≤ n)
    (hs : Stands ρ ws (p.past op.words) (m.moved b) d) (hk : d.kind.joins ≤ 5)
    (hrun : identityTail (jobs fuel) (n + 1) left m = (do
      let right ← holding [left.value] (comparison (jobs fuel) n)
      if ← isSkipping then identityTail (jobs fuel) n left
      else
        identityTail (jobs fuel) n
          (.fresh (.bool (left.value.identical right.value != negated))) : Eval Held) (m.moved b)) :
    Comes (identityTail (jobs fuel) n) (identityTail (jobs fuel) (n + 1) left) m d
      (op.outcome left.value value p) := by
  rw [Operator.outcome, hu]
  have hx : Comes pure (comparison (jobs fuel) n) ((m.moved b).pinning left.value) d _ :=
    hr.head (ℓ := 5) (by decide) (by decide) hf hn (hs.pinning hl) hk
  refine (hx.holding.operates (g := fun w => (op.apply left.value w).mapError (Upset.at p))
    (z := fun right => identityTail (jobs fuel) n
      (.fresh (.bool (left.value.identical right.value != negated)))) hl
    fun right hright hm => ?_).congr hrun fun _ => rfl
  rw [he]
  exact .value _ rfl (fun _ => rfl) rfl

theorem operates_is : Operates ρ .is := by
  constructor
  intro fuel n p m d ws left value hl hr hf hn hs hk hnot
  obtain ⟨b, hb, hs'⟩ := skipOver_of_eq hs
  obtain ⟨w, vs, rfl, hw⟩ := hnot rfl
  -- the operand does not begin with `not`, which would make it `is not`
  have hno := skipOver_of_ne (t := .kwNot) (hs'.kind.trans_ne hw)
  refine comes_identity false rfl (fun v w => ?_) hl hr hf hn hs' hk ?_
  · rw [Bool.bne_false]
    rfl
  · rw [show (Operator.is.word).kind = .kwIs from rfl] at hb
    simp only [identityTail, bind, EStateM.bind, Quiet.run_lift, hb, Bool.not_true, Bool.false_eq_true,
      if_false, hno]

theorem operates_isNot : Operates ρ .isNot := by
  constructor
  intro fuel n p m d ws left value hl hr hf hn hs hk _
  obtain ⟨b, hb, hs'⟩ := skipOver_of_eq (w := Operator.isNot.word) hs
  obtain ⟨b', hb', hs''⟩ := skipOver_of_eq hs'
  have hs'' : Stands ρ ws (p.past Operator.isNot.words) (m.moved b') d := by
    rw [show Operator.isNot.words = [Operator.isNot.word] ++ [.not] from rfl, Position.past_append]
    exact hs''
  refine comes_identity true rfl (fun v w => ?_) hl hr hf hn hs'' hk ?_
  · rw [Bool.bne_true]
    rfl
  · rw [show (Operator.isNot.word).kind = .kwIs from rfl] at hb
    rw [show Word.not.kind = .kwNot from rfl] at hb'
    simp only [identityTail, bind, EStateM.bind, Quiet.run_lift, hb, Bool.not_true, Bool.false_eq_true,
      if_false, hb']
    rfl

/-- Behind `or` and `and`: the right operand is passed over where the left one decides. -/
theorem comes_circuit (op : Operator) {tail : Held → Eval Held} {x : Eval Held} {b : Cursor}
    (hop : ∀ v w, op.apply v w = .ok w) (hl : left.value.scalar = true)
    (hx : ∀ {m' : Machine}, Stands ρ ws (p.past op.words) m' d → Comes pure x m' d
      (value (p.past op.words)))
    (hs : Stands ρ ws (p.past op.words) (m.moved b) d)
    {y : Eval Held} (hrun : y m = (do
      if (← isSkipping) || op.settledBy left.value then
        let _ ← skipping x
        tail left
      else tail (← holding [left.value] x) : Eval Held) (m.moved b)) :
    Comes tail y m d (op.outcome left.value value p) := by
  have hw : op.outcome left.value value p =
      if op.settledBy left.value then .ok left.value else value (p.past op.words) := by
    rw [Operator.outcome]
    split
    · rfl
    · cases value (p.past op.words) with
      | ok w => simp only [bind, Except.bind, hop]; rfl
      | error i => rfl
  rw [hw]
  -- the right operand is passed over in two cases: the whole expression is, or the left one
  -- decides
  obtain ⟨h, hskip⟩ := (hx hs.skipping).skipping
  have hpass (hc : ((m.moved b).thread.skip != 0 || op.settledBy left.value) = true) :
      y m = tail left (m.moved d) := by
    rw [hrun]
    show (if ((m.moved b).thread.skip != 0 || op.settledBy left.value) = true then
      (do let _ ← skipping x; tail left) else _ : Eval Held) (m.moved b) = _
    rw [if_pos hc]
    simp only [bind, EStateM.bind, hskip]
    rfl
  by_cases hm : m.thread.skip = 0
  · cases hu : op.settledBy left.value with
    | true => exact .value left hl (fun _ => by rw [if_pos rfl]) (hpass (by rw [hu, Bool.or_true]))
    | false =>
      rw [if_neg (by decide)]
      -- the left operand leaves it open, and the value is that of the right one
      refine ((hx (hs.pinning hl)).holding.andThen tail).congr ?_ fun _ => rfl
      rw [hrun]
      show (if ((m.moved b).thread.skip != 0 || op.settledBy left.value) = true then
        (do let _ ← skipping x; tail left) else (holding [left.value] x >>= tail) : Eval Held)
        (m.moved b) = _
      rw [hu, show (m.moved b).thread.skip = 0 from hm]
      rfl
  · exact .value left hl (fun h => absurd h hm)
      (hpass (by rw [show ((m.moved b).thread.skip != 0) = true from bne_iff_ne.2 hm, Bool.true_or]))

theorem operates_or : Operates ρ .or := by
  constructor
  intro fuel n p m d ws left value hl hr hf hn hs hk _
  obtain ⟨b, hb, hs'⟩ := skipOver_of_eq hs
  refine comes_circuit .or (x := andExpr (jobs fuel) n) (fun _ _ => rfl) hl
    (fun hs => hr.head (ℓ := 2) (by decide) (by decide) hf hn hs hk) hs' ?_
  rw [show (Operator.or.word).kind = .kwOr from rfl] at hb
  simp only [Operator.level, tailAt, orTail, bind, EStateM.bind, Quiet.run_lift, hb, Bool.not_true,
    Bool.false_eq_true, if_false]
  simp only [isSkipping, truthy, ask, truthy_of_scalar _ hl]
  rfl

theorem operates_and : Operates ρ .and := by
  constructor
  intro fuel n p m d ws left value hl hr hf hn hs hk _
  obtain ⟨b, hb, hs'⟩ := skipOver_of_eq hs
  refine comes_circuit .and (x := equality (jobs fuel) n) (fun _ _ => rfl) hl
    (fun hs => hr.head (ℓ := 3) (by decide) (by decide) hf hn hs hk) hs' ?_
  rw [show (Operator.and.word).kind = .kwAnd from rfl] at hb
  simp only [Operator.level, tailAt, andTail, bind, EStateM.bind, Quiet.run_lift, hb, Bool.not_true,
    Bool.false_eq_true, if_false]
  simp only [isSkipping, truthy, ask, truthy_of_scalar _ hl]
  rfl

theorem operates (op : Operator) (h : op ≠ .caret) : Operates ρ op := by
  cases op with
  | or => exact operates_or
  | and => exact operates_and
  | eq => exact operates_eq
  | neq => exact operates_neq
  | is => exact operates_is
  | isNot => exact operates_isNot
  | lt => exact operates_lt
  | gt => exact operates_gt
  | lte => exact operates_lte
  | gte => exact operates_gte
  | plus => exact operates_plus
  | minus => exact operates_minus
  | star | slash | percent => exact operates_product rfl
  | caret => contradiction

end Step

/-! ### Operands -/

section Operand

variable {j : Jobs} {o : Except Interrupt Value}

theorem Comes.unless {y : Eval Held} (h : m.thread.skip = 0 → Comes pure y m m.thread.cursor o) :
    Comes pure (unlessSkipping y) m m.thread.cursor o := by
  by_cases hm : m.thread.skip = 0
  · refine (h hm).congr ?_ fun _ => rfl
    show (if m.thread.skip != 0 then pure Held.null else y) m = y m
    rw [hm]
    rfl
  · refine .value .null rfl (fun h => absurd h hm) ?_
    show (if m.thread.skip != 0 then pure Held.null else y) m = _
    rw [show (m.thread.skip != 0) = true from bne_iff_ne.2 hm]
    rfl

/-- Nothing is read or called behind an operand that no dot or bracket follows. -/
theorem chain_stops {left : Held} (hk : m.thread.cursor.kind.joins < 11) :
    chain j (n + 1) left m = .ok left m := by
  simp only [chain, bind, EStateM.bind, kind]
  generalize m.thread.cursor.kind = t at hk
  cases t <;> first | rfl | exact absurd hk (by decide)

end Operand

/-- How an operand that begins with a token is evaluated behind it. -/
def primaryOf (j : Jobs) (n : Nat) (token : Token) : Eval Held :=
  match token.kind with
  | .int => return .fresh (.int (natOfDigits token.text.toList))
  | .float => return .fresh (.float (floatOfLiteral token.text))
  | .str => unlessSkipping (return .fresh (.str (← interpolate j token)))
  | .kwTrue => return .fresh (.bool true)
  | .kwFalse => return .fresh (.bool false)
  | .kwNull => return Held.null
  | .lparen => parenthesized j n
  | .lbracket => arrayLiteral j n
  | .lbrace => dictLiteral j n
  | .ident => unlessSkipping (name token)
  | .kwSuper => unlessSkipping (superProxy token)
  | other => malformed (.unexpectedInExpression other) token

theorem primary_eq (j : Jobs) (n : Nat) : primary j n = (do primaryOf j n (← bump) : Eval Held) :=
  rfl

variable {value : Position → Except Interrupt Value} {w : Word}

theorem evaluates_operand
    (h : ∀ {fuel n : Nat} {p : Position} {m : Machine} {d : Cursor}, 2 * (ws.length + 1) ≤ fuel →
      Stands ρ ws (p.past [w]) m d → Shows ρ [w] m → d.kind.joins < 11 →
      Comes pure (primaryOf (jobs fuel) n (w.token p)) m d (value p)) :
    Evaluates ρ 11 (w :: ws) value := by
  constructor
  intro fuel n p m d hf hn hs hk _
  obtain ⟨b, hb, hs'⟩ := hs.bump
  have hw : Shows ρ [w] (m.moved b) :=
    (hs.shows.sublist (by simp)).alike (alike_moved m b)
  have hp : Comes pure (primary (jobs fuel) n) m d (value p) := by
    refine (h (n := n) hf hs' hw hk).congr ?_ fun _ => rfl
    rw [primary_eq]
    simp only [bind, EStateM.bind, Quiet.run_lift, hb]
  -- nothing that could be read from the operand or called follows it
  obtain ⟨n, rfl⟩ : ∃ k, n = k + 1 := ⟨n - 1, by simp at hn; omega⟩
  exact (hp.andThen (chain (jobs fuel) (n + 1))).close fun left => chain_stops hk

/-- A word alone leaves the machine where it is. -/
theorem Stands.moved_eq (h : Stands ρ [] p m d) : m.thread.cursor = d := by
  cases h.crosses
  rfl

theorem ofChars_of_findHole {cs : List Char} (h : Template.findHole cs = none) :
    Template.ofChars cs = .plain cs := by
  rw [Template.ofChars]
  split
  · rfl
  · rename_i hs
    rw [h] at hs
    contradiction

theorem float_literal (whole fraction : Digits) :
    floatOfLiteral (String.ofList (whole.chars ++ '.' :: fraction.chars)) =
      Float.ofScientific (natOfDigits (whole.chars ++ fraction.chars)) true
        fraction.chars.length := by
  -- the fraction is what is left behind the digits and the dot
  have hdrop : (whole.chars ++ '.' :: fraction.chars).dropWhile Char.isDigit =
      '.' :: fraction.chars := by
    refine dropWhile_run whole.digit ?_
    rintro d hd
    obtain rfl := Option.some.inj hd
    rfl
  have hfilter : (whole.chars ++ '.' :: fraction.chars).filter Char.isDigit =
      whole.chars ++ fraction.chars := by
    rw [List.filter_append, List.filter_cons_of_neg (by decide), List.filter_eq_self.2 whole.digit,
      List.filter_eq_self.2 fraction.digit]
  simp only [floatOfLiteral, String.toList_ofList, hdrop, hfilter, List.drop_succ_cons,
    List.drop_zero]

theorem evaluates_literal (l : Literal) : Evaluates ρ 11 [l.word] fun _ => .ok l.value := by
  refine evaluates_operand fun hf hs _ _ => ?_
  obtain rfl := hs.moved_eq
  cases l with
  | int ds h =>
    refine .value (.fresh (.int (natOfDigits ds.chars))) rfl (fun _ => rfl) ?_
    show EStateM.Result.ok (Held.fresh (.int (natOfDigits (String.ofList ds.chars).toList))) _ = _
    rw [String.toList_ofList]
    rfl
  | float whole fraction =>
    refine .value (.fresh (.float _)) rfl (fun _ => rfl) ?_
    show EStateM.Result.ok (Held.fresh (.float (floatOfLiteral
      (String.ofList (whole.chars ++ '.' :: fraction.chars))))) _ = _
    rw [float_literal]
    rfl
  | bool b => cases b <;> exact .value _ rfl (fun _ => rfl) rfl
  | null => exact .value _ rfl (fun _ => rfl) rfl
  | text cs h =>
    refine Comes.unless fun hm => .value (.fresh (.str (String.ofList cs))) rfl (fun _ => rfl) ?_
    simp only [interpolate, Literal.word, Word.token, Word.spelling, String.toList_ofList,
      ofChars_of_findHole h, fill]
    rfl

theorem evaluates_name (x : Identifier) :
    Evaluates ρ 11 [.name x] ((Expr.name x).eval ρ) := by
  refine evaluates_operand fun {fuel n p m d} hf hs hx hk => ?_
  obtain rfl := hs.moved_eq
  refine Comes.unless fun hm => ?_
  obtain ⟨hl, hv⟩ := hx x (by simp)
  -- a name with a parenthesis behind it would be called
  have hcall : m.thread.cursor.kind ≠ .lparen := by
    intro hc
    rw [hc] at hk
    exact absurd hk (by decide)
  have hl : (lookup ((Word.name x).token p).text : Eval _) m = .ok (ρ x.text) m := hl
  rw [Expr.eval]
  cases hr : ρ x.text with
  | some v =>
    refine .value (.view v) (hv v hr) (fun _ => rfl) ?_
    simp only [name, bind, EStateM.bind, kind, if_neg hcall, hl, hr]
    rfl
  | none =>
    refine .stop _ m.thread.cursor hm rfl ?_
    simp only [name, bind, EStateM.bind, kind, if_neg hcall, hl, hr]
    rfl

theorem evaluates_paren {signed : Bool} (h : Evaluates ρ 1 ws value) (hb : Begins signed ws) :
    Evaluates ρ 11 (enclosed true ws) fun p => value (inside true p) := by
  refine evaluates_operand fun {fuel n p m d} hf hs _ _ => ?_
  obtain ⟨b, hb', hs'⟩ := hs.split _
  obtain ⟨fuel, rfl⟩ : ∃ k, fuel = k + 1 := ⟨fuel - 1, by omega⟩
  have hkind : b.kind = .rparen := hs'.kind
  -- inside, the closing parenthesis is the end that can be seen ahead
  have hx : Comes pure (jobs (fuel + 1)).expression m b (value (p.past [.lparen])) := by
    refine h.comes _ fuel ?_ ?_ hb' ?_ fun _ => .inr (.inl ?_)
    · simp at hf ⊢
      omega
    · simp at hf ⊢
      omega
    · rw [hkind]
      decide
    · rw [hkind]
      rfl
  obtain ⟨w, vs, rfl, hw⟩ := hb
  have hopen : m.thread.cursor.kind ≠ .rparen := by
    intro hc
    rw [hb'.kind] at hc
    rw [hc] at hw
    contradiction
  obtain ⟨c, hc, hend⟩ := hs'.advance
  -- a comma would make a tuple of it
  have hcomma : (m.moved b).thread.cursor.kind ≠ .comma := by
    rw [show (m.moved b).thread.cursor.kind = .rparen from hkind]
    decide
  show Comes pure (parenthesized (jobs (fuel + 1)) n) m d (value (p.past [.lparen]))
  rw [← hend.moved_eq]
  cases hx with
  | stop i c hm ho hx =>
    refine .stop i c hm ho ?_
    simp only [parenthesized, bind, EStateM.bind, Quiet.run_lift, skipOver_of_ne hopen, hx,
      Bool.false_eq_true, if_false]
  | value first hl ho hx =>
    refine .value first hl ho ?_
    have hx : (jobs (fuel + 1)).expression m = .ok first (m.moved b) := hx
    simp only [parenthesized, bind, EStateM.bind, Quiet.run_lift, skipOver_of_ne hopen, hx,
      Bool.false_eq_true, if_false, kind, if_pos hcomma]
    rw [show Word.rparen.kind = .rparen from rfl] at hc
    simp only [hc]
    rfl

/-! ### Places -/

/-- The words of an expression are evaluated at a level, also where operators of the level follow. -/
structure Sits (ρ : String → Option Value) (ℓ : Nat) (ws : List Word)
    (o : Position → Except Interrupt Value) : Prop where
  evaluates : Evaluates ρ ℓ ws o
  opens : 2 ≤ ℓ → ℓ ≤ 8 → Opens ρ ℓ ws o

/-- What is evaluated at its own level is evaluated at every looser one. -/
theorem Sits.looser {top : Nat} (h : Sits ρ top ws value) (ht : top ≤ 11) (hw : ws ≠ [])
    (hb : 10 ≤ top → Begins false ws) (hz : 2 ≤ top → Balanced 0 ws) (h₁ : 1 ≤ ℓ) (hℓ : ℓ ≤ top) :
    Sits ρ ℓ ws value := by
  obtain rfl | hℓ := Nat.eq_or_lt_of_le hℓ
  · exact h
  exact ⟨h.evaluates.looser ht hw hb hz h₁ (Nat.le_of_lt hℓ), fun h₂ h₈ =>
    (h.evaluates.looser ht hw hb hz (by omega) hℓ).opens h₂ h₈⟩

theorem Evaluates.sits (h : Evaluates ρ ℓ ws value) (hℓ : 9 ≤ ℓ) : Sits ρ ℓ ws value :=
  ⟨h, fun _ h₈ => absurd h₈ (by omega)⟩

theorem joins_operator (op : Operator) {ws : List Word} (hs : Stands ρ (op.words ++ ws) p m d) :
    m.thread.cursor.kind.joins = op.level := by
  have hw : ∃ vs, op.words ++ ws = op.word :: vs := by cases op <;> exact ⟨_, rfl⟩
  obtain ⟨vs, hw⟩ := hw
  rw [hw] at hs
  rw [hs.kind]
  cases op <;> rfl

/-- An operator between two operands. -/
theorem opens_operator {op : Operator} {first second : Position → Except Interrupt Value}
    (hop : op ≠ .caret) (hlevel : 2 ≤ op.level ∧ op.level ≤ 8) (hu : Opens ρ op.level us first)
    (hw : Evaluates ρ (op.level + 1) ws second)
    (his : op = .is → ∃ w vs, ws = w :: vs ∧ w.kind ≠ .kwNot) :
    Opens ρ op.level (us ++ (op.words ++ ws))
      fun p => first p >>= fun v => op.outcome v second (p.past us) := by
  constructor
  intro fuel n p m d hf hn hs hk
  simp only [List.length_append] at hf hn ⊢
  obtain ⟨b, hus, hws⟩ := hs.split _
  have hfu : 2 * us.length + 1 ≤ fuel := by omega
  have hnu : 2 * us.length + 1 ≤ n := by omega
  -- the words of the first operand end where an operator of the level stands
  obtain ⟨n', hn', hc⟩ := hu.comes hfu hnu hus (Nat.le_of_eq (joins_operator op hws))
  have hlen : 0 < op.words.length := by cases op <;> decide
  obtain ⟨k, rfl⟩ : ∃ k, n' = k + 1 := ⟨n' - 1, by omega⟩
  exact ⟨k, by omega, hc.trans fun left hl =>
    (operates op hop).step hl hw (by omega) (by omega) hws hk his⟩

/-- A computation that is left out while skipping. -/
theorem Comes.orSkipped {y : Eval Held} {o : Except Interrupt Value} (hc : m.thread.cursor = d)
    (h : m.thread.skip = 0 → Comes pure y m d o) : Comes pure (unlessSkipping y) m d o := by
  subst hc
  exact .unless h

theorem TokenKind.joins_ne_nine (k : TokenKind) : k.joins ≠ 9 := by
  cases k <;> decide

/-- A base, `^` and an exponent. -/
theorem evaluates_power {first second : Position → Except Interrupt Value}
    (hu : Evaluates ρ 11 us first) (hw : Evaluates ρ 9 ws second) :
    Evaluates ρ 10 (us ++ (Operator.caret.words ++ ws))
      fun p => first p >>= fun v => Operator.caret.outcome v second (p.past us) := by
  constructor
  intro fuel n p m d hf hn hs hk _
  have hcaret : Operator.caret.words.length = 1 := rfl
  simp only [List.length_append, hcaret] at hf hn
  obtain ⟨b, hus, hws⟩ := hs.split _
  have hb : b.kind = .caret := Stands.kind hws
  have hfirst := hu.comes fuel n (by simp; omega) (by simp; omega) hus
    (by rw [hb]; decide) (by omega)
  rw [power_eq]
  refine hfirst.bind fun left hl => ?_
  obtain ⟨b', hb', hws'⟩ := hws.bump
  obtain ⟨k, rfl⟩ : ∃ k, fuel = k + 1 := ⟨fuel - 1, by omega⟩
  -- the exponent is a unary operand, in which a power is read first: `^` groups to the right
  have hsecond : Comes pure (jobs (k + 1)).unary ((m.moved b').pinning left.value) d
      (second ((p.past us).past Operator.caret.words)) :=
    hw.comes _ k (by simp; omega) (by simp; omega) (hws'.pinning hl)
      (by have := d.kind.joins_ne_nine; omega) (by omega)
  rw [Operator.outcome, if_neg (show ¬Operator.caret.settledBy left.value = true from nofun)]
  refine (hsecond.holding.bind (k := pure) fun right hr =>
    Comes.orSkipped (m := m.moved d) (d := d) (y := do
      let v ← orComplain (Operator.caret.word.token (p.past us))
        (Value.power (Operator.caret.word.token (p.past us)) left.value right.value)
      return Held.fresh v) rfl fun hm => ?_).congr ?_ fun _ => rfl
  · exact (computes_of_eq (m := m.moved d) (Operator.caret.word.token (p.past us))
      (power_value (Operator.caret.word.token (p.past us)) left.value right.value rfl)).comes hm
      fun v hv => Expr.scalar_apply .caret hr hv
  · have hc : (m.moved b).thread.cursor.kind = .caret := hb
    simp only [powerTail, bind, EStateM.bind, kind, hc]
    rw [if_neg (not_not_intro rfl)]
    simp only [EStateM.bind, Quiet.run_lift, hb']
    rfl

/-- A unary operator and its operand. -/
theorem evaluates_unary {w : Word} {y : Token → Held → Eval Held}
    {g : Value → Position → Except Interrupt Value} (h : Evaluates ρ 9 ws value)
    (hrun : ∀ {m m' : Machine} {j : Jobs} {n : Nat} {p : Position},
      m.thread.cursor.kind = w.kind → (bump : Run _) m = .ok (w.token p) m' →
      unaryExpr j n m = (do
        let operand ← j.unary
        unlessSkipping (y (w.token p) operand) : Eval Held) m')
    (hy : ∀ {m : Machine} {p : Position} {operand : Held}, m.thread.skip = 0 →
      operand.value.scalar = true →
      Comes pure (y (w.token p) operand) m m.thread.cursor (g operand.value p)) :
    Evaluates ρ 9 (w :: ws) fun p => value (p.past [w]) >>= fun v => g v p := by
  constructor
  intro fuel n p m d hf hn hs hk _
  obtain ⟨b, hb, hws⟩ := hs.bump
  obtain ⟨k, rfl⟩ : ∃ k, fuel = k + 1 := ⟨fuel - 1, by simp at hf; omega⟩
  have hoperand : Comes pure (jobs (k + 1)).unary (m.moved b) d (value (p.past [w])) :=
    h.comes _ k (by simp at hf ⊢; omega) (by simp at hf ⊢; omega) hws hk (by omega)
  refine (hoperand.bind (k := pure) (f := fun operand => unlessSkipping (y (w.token p) operand))
    fun operand ho => ?_).congr (hrun hs.kind hb) fun _ => rfl
  exact Comes.orSkipped rfl fun hm => hy hm ho

theorem evaluates_not (h : Evaluates ρ 9 ws value) :
    Evaluates ρ 9 (.not :: ws) fun p => value (p.past [.not]) >>= fun v => .ok (.bool !v.counts) := by
  refine evaluates_unary (y := fun _ operand => do
    let b ← truthy operand
    return .fresh (.bool !b)) h ?_ ?_
  · intro m m' j n p hk hb
    simp only [unaryExpr, bind, EStateM.bind, kind, hk, Word.not, Word.kind]
    simp only [Quiet.run_lift, hb]
  · intro m p operand _ ho
    refine .value (.fresh (.bool !operand.value.counts)) rfl (fun _ => rfl) ?_
    simp only [truthy, bind, EStateM.bind, ask, truthy_of_scalar _ ho]
    rfl

theorem evaluates_negative (h : Evaluates ρ 9 ws value) :
    Evaluates ρ 9 (.minus :: ws)
      fun p => value (p.past [.minus]) >>= fun v => (opposite v).mapError (Upset.at p) := by
  refine evaluates_unary (y := fun op operand => do
    let v ← orComplain op operand.value.negate
    return .fresh v) h ?_ ?_
  · intro m m' j n p hk hb
    simp only [unaryExpr, bind, EStateM.bind, kind, hk, Word.minus, Word.kind]
    simp only [Quiet.run_lift, hb]
    rfl
  · intro m p operand hm _
    refine (computes_of_eq (Word.minus.token p) (negate_eq operand.value)).comes hm fun v hv => ?_
    exact Expr.scalar_opposite hv

/-! ### Conditionals -/

theorem Comes.passed {o : Except Interrupt Value} (h : Comes pure x m d o) (hm : m.thread.skip ≠ 0) :
    ∃ left, x m = .ok left (m.moved d) := by
  cases h with
  | stop i c hm' => exact absurd hm' hm
  | value left hs ho hx => exact ⟨left, hx⟩

/-- Back at the first of the words that have been passed. -/
theorem Stands.back {w : Word} {c : Cursor} (hs : Stands ρ (w :: ws) p m d)
    (hc : c.source = m.thread.cursor.source) :
    ∃ b, (rewind m.thread.cursor.capture : Run _) (m.moved c) = .ok () (m.moved b) ∧
      Stands ρ (w :: ws) p (m.moved b) d := by
  have hholds : c.source.Holds m.thread.cursor.current m.thread.cursor.behind := hc ▸ hs.sound
  let b : Cursor := ⟨c.source, m.thread.cursor.current, m.thread.cursor.behind, 0⟩
  refine ⟨b, ?_, hs.crosses.congr (by simp [row]) ⟨hc, rfl, rfl⟩, hholds,
    hs.shows.alike (alike_moved m b)⟩
  have hb : (m.moved c).thread.cursor.rewind m.thread.cursor.capture = .ok b :=
    Cursor.rewind_eq hholds
  simp only [rewind, move, hb]
  rfl

/-- The words of a conditional. -/
def Word.choice (us vs ws : List Word) : List Word := us ++ (.if :: (vs ++ .else :: ws))

section Conditional

variable {w : Word} {vs : List Word} {first second third : Position → Except Interrupt Value} {k : Nat}

theorem Word.length_choice (us vs ws : List Word) :
    (choice us vs ws).length = us.length + (vs.length + (ws.length + 2)) := by
  simp [choice]
  omega

theorem lift_of_ok {α : Type} {x : Run α} {a : α} {m m' : Machine} (h : x m = .ok a m') :
    (liftM x : Eval α) m = .ok a m' := by
  rw [Quiet.run_lift, h]

theorem skipping_of_ok {α : Type} {x : Eval α} {a : α} {c : Cursor}
    (h : x m.skipping = .ok a (m.skipping.moved c)) : skipping x m = .ok a (m.moved c) := by
  have h : x { m with thread := { m.thread with skip := m.thread.skip + 1 } } = _ := h
  simp only [skipping, h]
  rfl

/-- Behind its `if` a conditional is passed over. -/
theorem passSides_skips (hv : Evaluates ρ 2 vs second) (hw : Evaluates ρ 1 ws third)
    (hm : m.thread.skip ≠ 0) (hk : d.kind.joins < 1) (hd : Ends p.line d)
    (hs : Stands ρ (vs ++ .else :: ws) p m d) (hf : 2 * (vs.length + (ws.length + 2)) + 1 ≤ k + 1)
    (hn : 2 * (vs.length + (ws.length + 2)) + 1 ≤ n) :
    passSides (jobs (k + 1)) n m = .ok () (m.moved d) := by
  obtain ⟨b, hvs, hrest⟩ := hs.split _
  obtain ⟨b', hb', hws⟩ := hrest.advance
  have hb : b.kind = .kwElse := hrest.kind
  obtain ⟨right, hright⟩ := (hv.comes (k + 1) n (by simp; omega) (by simp; omega) hvs
    (by rw [hb]; decide) (by omega)).passed hm
  obtain ⟨last, hlast⟩ := (hw.comes k k (by simp; omega) (by simp; omega) hws hk
    (fun _ => by simpa using hd)).passed (m := (m.moved b).moved b') hm
  have hlast : (jobs (k + 1)).expression (m.moved b') = .ok last (m.moved d) := hlast
  exact (bind_of_ok hright).trans ((bind_of_ok (lift_of_ok hb')).trans (bind_of_ok hlast))

/-- A conditional is passed over. -/
theorem skipConditional_skips (hu : Evaluates ρ 2 us first) (hv : Evaluates ρ 2 vs second)
    (hw : Evaluates ρ 1 ws third) (hm : m.thread.skip ≠ 0) (hk : d.kind.joins < 1)
    (hd : Ends p.line d) (hs : Stands ρ (Word.choice us vs ws) p m d)
    (hf : 2 * (us.length + (vs.length + (ws.length + 2))) + 1 ≤ k + 1)
    (hn : 2 * (us.length + (vs.length + (ws.length + 2))) + 1 ≤ n) :
    skipConditional (jobs (k + 1)) n m = .ok () (m.moved d) := by
  obtain ⟨b₁, hus, hrest⟩ := hs.split _
  have hif : b₁.kind = .kwIf := hrest.kind
  obtain ⟨b₂, hb₂, hsides⟩ := skipOver_of_eq hrest
  obtain ⟨left, hleft⟩ := (hu.comes (k + 1) n (by simp; omega) (by simp; omega) hus
    (by rw [hif]; decide) (by omega)).passed hm
  have hpass := passSides_skips (k := k) (n := n) hv hw (m := (m.moved b₁).moved b₂) hm hk
    (by simpa using hd) hsides (by omega) (by omega)
  exact (bind_of_ok hleft).trans ((bind_of_ok (lift_of_ok hb₂)).trans hpass)

/-- Ahead of a conditional the search finds its `if`. -/
theorem conditionalAhead_choice {c : Cursor} (hc : c.Crosses (row p (Word.choice (w :: us) vs ws)) d)
    (hb : Balanced 0 (w :: us)) : c.conditionalAhead = .ok true := by
  rw [Word.choice, row_append] at hc
  obtain ⟨b, hus, hrest⟩ := hc.append_inv
  have hcurrent : b.current = Word.if.token (p.past (w :: us)) := hrest.cons_inv.1
  have hif : b.current.kind = .kwIf := by
    rw [hcurrent]
    rfl
  -- the `if` stands on the line that the search began on
  have hline : b.current.line = p.line := by
    rw [hcurrent]
    exact p.line_past _
  rw [Cursor.conditionalAhead, Cursor.conditionalFrom_crosses hus hb, hline,
    if_neg (fun h => absurd h.2 (Nat.lt_irrefl _)), Cursor.conditionalFrom, hif, if_neg nofun,
    if_neg nofun, if_pos ⟨rfl, rfl⟩]

/-- Where the condition holds, evaluation goes back to the first side and passes over the rest. -/
theorem comes_first_side {c : Cursor} (hu : Evaluates ρ 2 (w :: us) first)
    (hv : Evaluates ρ 2 vs second) (hw : Evaluates ρ 1 ws third) (hk : d.kind.joins < 1)
    (hd : Ends p.line d) (hs : Stands ρ (Word.choice (w :: us) vs ws) p m d)
    (hc : c.source = m.thread.cursor.source)
    (hf : 2 * ((w :: us).length + (vs.length + (ws.length + 2))) + 1 ≤ k + 1)
    (hn : 2 * ((w :: us).length + (vs.length + (ws.length + 2))) + 1 ≤ n) :
    Comes pure (do
      rewind m.thread.cursor.capture
      let v ← orExpr (jobs (k + 1)) n
      skipping do
        let _ ← advance .kwIf
        passSides (jobs (k + 1)) n
      return v : Eval Held) (m.moved c) d (first p) := by
  -- back at the first word, with the source unchanged, the words are crossed once more
  obtain ⟨b₀, hb₀, hback⟩ := hs.back hc
  obtain ⟨b₁, hus, hrest⟩ := hback.split (w :: us)
  have hif : b₁.kind = .kwIf := hrest.kind
  refine Comes.congr ?_ (bind_of_ok (lift_of_ok hb₀)) fun _ => rfl
  refine ((hu.comes (k + 1) n (by simp at hf ⊢; omega) (by simp at hn ⊢; omega) hus
    (by rw [hif]; decide) (by omega)).andThen _).close fun v => ?_
  obtain ⟨b₂, hb₂, hsides⟩ := hrest.skipping.advance
  have hpass := passSides_skips (k := k) (n := n) hv hw (Nat.succ_ne_zero _) hk (by simpa using hd)
    hsides (by omega) (by omega)
  have hskip : skipping (do
      let _ ← advance .kwIf
      passSides (jobs (k + 1)) n : Eval Unit) ((m.moved b₀).moved b₁) = .ok () (m.moved d) :=
    skipping_of_ok (c := d) ((bind_of_ok (lift_of_ok hb₂)).trans hpass)
  exact bind_of_ok hskip

/-- The condition is evaluated first and decides which of the sides is. -/
theorem evaluates_conditional (hu : Evaluates ρ 2 (w :: us) first)
    (hub : Balanced 0 (w :: us)) (hv : Evaluates ρ 2 vs second) (hw : Evaluates ρ 1 ws third) :
    Evaluates ρ 1 (Word.choice (w :: us) vs ws) fun p =>
      second ((p.past (w :: us)).past [.if]) >>= fun v =>
        if v.counts then first p
        else third ((((p.past (w :: us)).past [.if]).past vs).past [.else]) := by
  constructor
  intro fuel n p m d hf hn hs hk hd
  have hd := hd rfl
  rw [Word.length_choice, if_pos (by decide)] at hf hn
  obtain ⟨k, rfl⟩ : ∃ k, fuel = k + 1 := ⟨fuel - 1, by omega⟩
  by_cases hm : m.thread.skip = 0
  swap
  · refine .value .null rfl (fun h => absurd h hm) ?_
    show conditional (jobs (k + 1)) n m = .ok .null (m.moved d)
    rw [conditional_skips hm]
    exact bind_of_ok (skipConditional_skips hu hv hw hm hk hd hs hf hn)
  refine Comes.congr (y := decided (jobs (k + 1)) n) ?_
    (conditional_run hm (conditionalAhead_choice hs.crosses hub)) fun _ => rfl
  obtain ⟨b₁, hus, hrest⟩ := hs.split (w :: us)
  have hif : b₁.kind = .kwIf := hrest.kind
  obtain ⟨b₂, hb₂, hsides⟩ := hrest.advance
  -- the first side is passed over until the condition is known
  obtain ⟨left, hleft⟩ := (hu.comes (k + 1) n (by simp at hf ⊢; omega)
    (by simp at hn ⊢; omega) hus.skipping (by rw [hif]; decide) (by omega)).skipping
  have hcapture : (capture : Eval _) m = .ok m.thread.cursor.capture m := rfl
  unfold decided
  refine Comes.congr ?_ ((bind_of_ok hcapture).trans ((bind_of_ok hleft).trans
    (bind_of_ok (lift_of_ok hb₂)))) fun _ => rfl
  obtain ⟨b₃, hvs, hrest'⟩ := hsides.split _
  have helse : b₃.kind = .kwElse := hrest'.kind
  obtain ⟨b₄, hb₄, hws⟩ := hrest'.advance
  refine (hv.comes (k + 1) n (by simp at hf ⊢; omega) (by simp at hn ⊢; omega) hvs
    (by rw [helse]; decide) (by omega)).bind fun c hc => ?_
  have htruthy : (truthy c : Eval _) ((m.moved b₂).moved b₃) = .ok c.value.counts (m.moved b₃) := by
    simp only [truthy, ask, truthy_of_scalar _ hc]
    rfl
  refine Comes.congr ?_ ((bind_of_ok htruthy).trans (bind_of_ok (lift_of_ok hb₄))) fun _ => rfl
  -- only where the condition holds does evaluation go back for the first side
  cases c.value.counts with
  | false =>
    simp only [Bool.not_false, if_true, Bool.false_eq_true, if_false]
    exact hw.comes k k (by simp at hf ⊢; omega) (by simp at hf ⊢; omega) hws hk
      (fun _ => by simpa using hd)
  | true =>
    simp only [Bool.not_true, Bool.false_eq_true, if_true, if_false]
    exact comes_first_side hu hv hw hk hd hs (hws.source_eq.symm.trans hs.source_eq) hf hn

end Conditional

namespace Expr

theorem eval_binary (op : Operator) (a b : Expr) (p : Position) :
    (binary op a b).eval ρ p = a.eval ρ (inside (a.level < op.left) p) >>= fun v =>
      op.outcome v (fun q => b.eval ρ (inside (op.encloses b.level b.words) q))
        (p.past (Rewind.enclosed (a.level < op.left) a.words)) := by
  rw [eval]
  refine congrArg _ (funext fun v => ?_)
  rw [Operator.outcome]
  split <;> rfl

/-- The right operand of `is` does not begin with `not`. -/
theorem begins_behind_is (b : Expr) :
    ∃ w vs, Rewind.enclosed (Operator.is.encloses b.level b.words) b.words = w :: vs ∧
      w.kind ≠ .kwNot := by
  -- without parentheses around it the operand was checked not to begin with `not`
  cases hb : Operator.is.encloses b.level b.words with
  | true => exact ⟨.lparen, _, rfl, by decide⟩
  | false =>
    obtain ⟨w, vs, hw, -⟩ := b.begins_words
    have := (Bool.or_eq_false_iff.1 hb).2
    exact ⟨w, vs, hw, by simpa [hw] using this⟩

/-- An expression is evaluated at every level that asks for no parentheses around it. -/
def Evaluable (ρ : String → Option Value) (e : Expr) : Prop :=
  ∀ ℓ, 1 ≤ ℓ → ℓ ≤ e.level → Sits ρ ℓ e.words (e.eval ρ)

variable {e : Expr}

theorem evaluable_of_level (h : Sits ρ e.level e.words (e.eval ρ)) : e.Evaluable ρ := fun ℓ h₁ hℓ =>
  h.looser e.level_bounds.2 e.words_ne_nil (fun ht => by
    have := e.begins_words
    rwa [show decide (e.level < 10) = false from decide_eq_false (by omega)] at this)
    e.balanced_words.2 h₁ hℓ

/-- With the parentheses that a place asks for an expression is evaluated there. -/
theorem Evaluable.enclosed (h : e.Evaluable ρ) {b : Bool} (h₁ : 1 ≤ ℓ) (h₁₁ : ℓ ≤ 11)
    (hb : b = false → ℓ ≤ e.level) :
    Sits ρ ℓ (enclosed b e.words) fun p => e.eval ρ (inside b p) := by
  cases b with
  | false => exact h ℓ h₁ (hb rfl)
  | true =>
    have hparen := evaluates_paren (h 1 (Nat.le_refl 1) e.level_bounds.1).evaluates e.begins_words
    exact (hparen.sits (by decide)).looser (by decide) (by simp [Rewind.enclosed])
      (fun _ => begins_enclosed nofun) (fun _ => balanced_enclosed (e.balanced_words.1 0) nofun) h₁ h₁₁

theorem evaluable_binary {op : Operator} {a b : Expr} (hop : op ≠ .caret) (ha : a.Evaluable ρ)
    (hb : b.Evaluable ρ) : (binary op a b).Evaluable ρ := by
  obtain ⟨h₁, h₂⟩ : 2 ≤ op.level ∧ op.level ≤ 8 := by
    cases op <;> first | decide | contradiction
  -- every binary operator but `^` groups to the left
  have hleft : op.left = op.level := by cases op <;> first | rfl | contradiction
  have hright : op.right = op.level + 1 := by cases op <;> first | rfl | contradiction
  have hA := ha.enclosed (b := decide (a.level < op.left)) (ℓ := op.level) (by omega) (by omega)
    fun h => by
      rw [decide_eq_false_iff_not] at h
      omega
  have hB := hb.enclosed (b := op.encloses b.level b.words) (ℓ := op.level + 1) (by omega) (by omega)
    fun h => by
      have := (Bool.or_eq_false_iff.1 h).1
      rw [decide_eq_false_iff_not] at this
      omega
  have hopens : Opens ρ op.level (binary op a b).words ((binary op a b).eval ρ) := by
    rw [show (binary op a b).eval ρ = _ from funext (eval_binary op a b)]
    exact opens_operator hop ⟨h₁, h₂⟩ (hA.opens h₁ h₂) hB.evaluates fun his => by
      subst his
      exact b.begins_behind_is
  exact evaluable_of_level ⟨hopens.works h₁ h₂, fun _ _ => hopens⟩

theorem le_of_not_enclosed {ℓ : Nat} (h : decide (e.level < ℓ) = false) : ℓ ≤ e.level :=
  Nat.le_of_not_lt (decide_eq_false_iff_not.1 h)

theorem evaluable_caret {a b : Expr} (ha : a.Evaluable ρ) (hb : b.Evaluable ρ) :
    (binary .caret a b).Evaluable ρ := by
  have hA := (ha.enclosed (ℓ := 11) (by decide) (by decide) le_of_not_enclosed).evaluates
  have hB := (hb.enclosed (b := Operator.caret.encloses b.level b.words) (ℓ := 9) (by decide)
    (by decide) fun h => le_of_not_enclosed (Bool.or_eq_false_iff.1 h).1).evaluates
  refine evaluable_of_level (Evaluates.sits ?_ (show 9 ≤ 10 by decide))
  rw [show (binary .caret a b).eval ρ = _ from funext (eval_binary .caret a b)]
  exact evaluates_power hA hB

theorem evaluable_conditional {a c b : Expr} (ha : a.Evaluable ρ) (hc : c.Evaluable ρ)
    (hb : b.Evaluable ρ) : (conditional a c b).Evaluable ρ := by
  have hA := (ha.enclosed (ℓ := 2) (by decide) (by decide) le_of_not_enclosed).evaluates
  have hC := (hc.enclosed (ℓ := 2) (by decide) (by decide) le_of_not_enclosed).evaluates
  have hB := (hb 1 (Nat.le_refl 1) b.level_bounds.1).evaluates
  have hbal : Balanced 0 (Rewind.enclosed (a.level < 2) a.words) :=
    balanced_enclosed (a.balanced_words.1 0) fun h => a.balanced_words.2 (le_of_not_enclosed h)
  have hbegins : Begins true (Rewind.enclosed (a.level < 2) a.words) :=
    begins_enclosed fun _ => a.begins_words.signed
  obtain ⟨w, us, hus, -⟩ := hbegins
  refine evaluable_of_level ⟨?_, fun h₂ => absurd h₂ (by decide : ¬ 2 ≤ 1)⟩
  rw [hus] at hA hbal
  have := evaluates_conditional hA hbal hC hB
  rw [← hus] at this
  exact this

/-- Every expression is evaluated as its tree, at every level that asks for no parentheses. -/
theorem evaluable (e : Expr) : e.Evaluable ρ := by
  induction e with
  | literal l => exact evaluable_of_level ((evaluates_literal l).sits (by decide))
  | name x => exact evaluable_of_level ((evaluates_name x).sits (by decide))
  | paren e ih =>
    refine evaluable_of_level (Evaluates.sits ?_ (by simp [level]))
    exact evaluates_paren (ih 1 (Nat.le_refl 1) e.level_bounds.1).evaluates e.begins_words
  | not e ih =>
    refine evaluable_of_level (Evaluates.sits ?_ (by simp [level]))
    exact evaluates_not (ih.enclosed (by decide) (by decide) le_of_not_enclosed).evaluates
  | negative e ih =>
    refine evaluable_of_level (Evaluates.sits ?_ (by simp [level]))
    exact evaluates_negative (ih.enclosed (by decide) (by decide) le_of_not_enclosed).evaluates
  | binary op a b iha ihb =>
    by_cases hop : op = .caret
    · exact hop ▸ evaluable_caret iha ihb
    · exact evaluable_binary hop iha ihb
  | conditional a c b iha ihc ihb => exact evaluable_conditional iha ihc ihb

/-- The machine, which does not skip, stands before the text of `e`, which begins at `p` of its
source.  Behind the text stands a token that does not continue an expression and shows where this
one ends.  To the names in `e` the values `ρ` are bound, scalars all of them. -/
structure Printed (e : Expr) (ρ : String → Option Value) (p : Position) (behind : List Char)
    (next : Token) (rest : List Char) (m : Machine) : Prop where
  awake : m.thread.skip = 0
  reads : m.thread.cursor.source.Reads p (e.text ++ behind)
  scans : scan p (e.text ++ behind) = .ok (m.thread.cursor.current, m.thread.cursor.behind)
  names : Shows ρ e.words m
  apart : Apart behind
  follows : scan (p.after e.text) behind = .ok (next, rest)
  joins : next.kind.joins = 0
  ends : next.kind = .eof ∨ next.kind.closes = true ∨ Cursor.endsExpression next.kind = true ∨
    p.line < next.line

/-- Evaluation of a printed tree moves exactly over its text.  It has the value that the tree has by
recursion, or stops as that recursion first stops. -/
theorem evaluation_of_tree {e : Expr} {behind rest : List Char} {next : Token}
    (printed : e.Printed ρ p behind next rest m) (enough : 2 * e.words.length + 2 ≤ fuel) :
    match e.eval ρ p with
    | .ok v => ∃ h : Held, h.value = v ∧ (jobs fuel).expression m =
        .ok h (m.moved ⟨m.thread.cursor.source, next, rest, p.line⟩)
    | .error i => ∃ c, (jobs fuel).expression m = .error i (m.moved c) := by
  obtain ⟨fuel, rfl⟩ : ∃ k, fuel = k + 1 := ⟨fuel - 1, by omega⟩
  let d : Cursor := ⟨m.thread.cursor.source, next, rest, p.line⟩
  have stands : Stands ρ e.words p m d :=
    ⟨crosses_row printed.reads.column_pos e.words_ne_nil printed.apart printed.scans printed.follows,
      Source.holds_of_scan printed.reads printed.scans, printed.names⟩
  have comes : Comes pure (jobs (fuel + 1)).expression m d (e.eval ρ p) :=
    (e.evaluable 1 (Nat.le_refl 1) e.level_bounds.1).evaluates.comes _ fuel (by simp; omega)
      (by simp; omega) stands (Nat.lt_one_iff.2 printed.joins) fun _ => printed.ends
  cases comes with
  | value h hs ho hx =>
    rw [ho printed.awake]
    exact ⟨h, rfl, hx⟩
  | stop i c hm ho hx =>
    rw [ho]
    exact ⟨c, hx⟩

end Expr

/-! ### An expression in its text -/

theorem scan_nil (p : Position) : scan p [] = .ok (⟨.eof, "", p, p⟩, []) := by
  simp [scan, skipGap, bind, Except.bind, pure, Except.pure]

theorem scan_of_ofSource {s : Source} {c : Cursor} (h : Cursor.ofSource s = .ok c) :
    scan s.origin s.text = .ok (c.current, c.behind) := by
  unfold Cursor.ofSource at h
  cases hs : scan s.origin s.text with
  | error fault =>
    rw [hs] at h
    contradiction
  | ok r =>
    rw [hs] at h
    obtain rfl := Except.ok.inj h
    rfl

theorem ofSource_onText {text : String} (h : (Cursor.ofSource ⟨0, text.toList⟩).isOk = true) :
    Cursor.ofSource ⟨0, text.toList⟩ = .ok (onText text).thread.cursor := by
  unfold onText
  split
  · assumption
  · rename_i hc
    rw [hc] at h
    nomatch h

theorem scope_onText (text : String) : (onText text).thread.scope = ⟨0⟩ := by
  unfold onText
  split <;> rfl

theorem awake_onText (text : String) : (onText text).thread.skip = 0 := by
  unfold onText
  split <;> rfl

/-- The machine with other bindings. -/
def Machine.binding (m : Machine) (scopes : Scopes) : Machine :=
  { m with world := { m.world with scopes } }

namespace Expr

/-- `x - ( y - 2 ) * - 3 if x is not y else "no"` -/
def sample : Expr :=
  let x : Expr := .name ⟨'x', [], by decide, nofun, by decide +kernel⟩
  let y : Expr := .name ⟨'y', [], by decide, nofun, by decide +kernel⟩
  let int (c : Char) (h : c.isDigit = true) (hf : natOfDigits [c] ≤ maxInt) : Expr :=
    .literal (.int ⟨[c], by simp, by simpa using h⟩ hf)
  .conditional
    (.binary .minus x (.binary .star (.binary .minus y (int '2' (by decide) (by decide)))
      (.negative (int '3' (by decide) (by decide)))))
    (.binary .isNot x y) (.literal (.text "no".toList (by decide +kernel)))

def sampleText : String := "x - ( y - 2 ) * - 3 if x is not y else \"no\""

def sampleValues (name : String) : Option Value :=
  if name = "x" then some (.int 7) else if name = "y" then some (.int 5) else none

def sampleScopes : Scopes :=
  ((Machine.new {}).world.scopes.define ⟨0⟩ "x" (.int 7)).define ⟨0⟩ "y" (.int 5)

/-- The end of that text. -/
def sampleEnd : Token :=
  let p := (Position.origin 0).after sampleText.toList
  ⟨.eof, "", p, p⟩

theorem sample_text : sample.text = sampleText.toList := by decide +kernel

theorem shows_sample (hs : m.world.scopes = sampleScopes) (hr : m.thread.scope = ⟨0⟩) :
    Shows sampleValues sample.words m := by
  have bound {name : String} (h : sampleScopes.resolve ⟨0⟩ name = some ⟨0⟩) :
      (lookup name : Eval _) m = .ok (sampleScopes.getLocal? ⟨0⟩ name) m := by
    rw [← hs]
    refine lookup_of_resolve ?_ ?_
    · rw [hs, hr, h]
    · rw [hs]
      rfl
  intro x hx
  have hx : x.text = "x" ∨ x.text = "y" := by
    have names : sample.words.all (fun
      | .name x => x.text == "x" || x.text == "y"
      | _ => true) = true := by decide +kernel
    simpa using List.all_eq_true.1 names _ hx
  obtain hx | hx := hx
  · rw [hx]
    exact ⟨bound (by decide +kernel), fun v hv => by obtain rfl := Option.some.inj hv; rfl⟩
  · rw [hx]
    exact ⟨bound (by decide +kernel), fun v hv => by obtain rfl := Option.some.inj hv; rfl⟩

theorem printed_sample (hr : m.thread.scope = ⟨0⟩) (ha : m.thread.skip = 0)
    (hc : Cursor.ofSource ⟨0, sampleText.toList⟩ = .ok m.thread.cursor) :
    sample.Printed sampleValues (Position.origin 0) [] sampleEnd [] (m.binding sampleScopes) := by
  have hsource : (m.binding sampleScopes).thread.cursor.source = ⟨0, sampleText.toList⟩ :=
    (Cursor.sound_ofSource hc).2
  have htext : sample.text ++ [] = sampleText.toList := by rw [sample_text, List.append_nil]
  refine ⟨ha, ?_, ?_, shows_sample rfl hr, apart_nil, ?_, rfl, .inl rfl⟩
  · rw [hsource, htext]
    exact Source.reads_origin _
  · have hscan := scan_of_ofSource hc
    rw [htext]
    exact hscan
  · rw [sample_text]
    exact scan_nil _

/-- The sample has a value, by the recursion and by evaluation of its text. -/
theorem evaluation_of_sample : sample.eval sampleValues (Position.origin 0) = .ok (.int 16) ∧
    ∃ (m : Machine) (h : Held), h.value = .int 16 ∧ (jobs 40).expression m =
      .ok h (m.moved ⟨m.thread.cursor.source, sampleEnd, [], 1⟩) := by
  have printed : sample.Printed sampleValues (Position.origin 0) [] sampleEnd []
      ((onText sampleText).binding sampleScopes) :=
    printed_sample (scope_onText _) (awake_onText _) (ofSource_onText (by decide +kernel))
  have hv : sample.eval sampleValues (Position.origin 0) = .ok (.int 16) := rfl
  have h := evaluation_of_tree printed (show 2 * sample.words.length + 2 ≤ 40 by decide)
  rw [hv] at h
  exact ⟨hv, _, h⟩

end Expr

end Rewind
