/-
Expressions with calls are evaluated as their trees.

The levels of precedence are taken one after the other, as for expressions without calls; what is new
is that a part that has been evaluated hands a changed machine on to what follows it.

* `IsValue` — a value at hand is that of the tree;
* `Evaluates`, `Opens`, `Sits` — some words evaluated at a level of precedence;
* `Operates`, `operates` — one operator with its right operand, behind the left one;
* `evaluates_conditional` — the condition first, then one of the sides;
* `Honours` — calls of functions are carried out as in the tree;
* `Term.evaluable`, `Terms.readable` — every expression and all arguments, if calls are honoured.
-/
import Rewind.Proofs.Binding
import Rewind.Proofs.Landing

namespace Rewind.Tree

open Eval

/-! ### The levels -/

/-- What is at hand is this scalar. -/
def IsValue (h : Held) (v : Value) : Prop := h.value = v ∧ v.scalar = true

/-- The evaluator at a level of precedence. -/
def level (ℓ : Nat) : Supplied Interrupt Held := fun fuel n => atLevel ℓ (jobs fuel) n

/-- What a level of binary operators does behind its first operand. -/
def tail (ℓ : Nat) (h : Held) : Supplied Interrupt Held := fun fuel n => tailAt ℓ (jobs fuel) n h

/-- How a level of binary operators evaluates an operand. -/
def head (ℓ : Nat) : Supplied Interrupt Held := fun fuel n => headAt ℓ (jobs fuel) n

variable {g : Scene} {σ σ' : Store} {m m' : Machine} {b d : Cursor} {ℓ : Nat} {p q : Position}
  {us vs ws : List Word} {w : Word} {run : Position → Course Value} {h left : Held} {v : Value}

/-- Evaluating the words `ws` at the level `ℓ` comes to what the tree does, whatever the place they
begin at.  Behind them stands nothing that continues an expression of the level, and behind an
expression of the loosest level stands an end that can be seen ahead. -/
structure Evaluates (g : Scene) (ℓ : Nat) (ws : List Word) (run : Position → Course Value) : Prop where
  obeys {p : Position} {m : Machine} {d : Cursor} : Before ws p m d → d.kind.joins < ℓ →
    (ℓ = 1 → Ends p.line d) → Obeys g IsValue done (level ℓ) m p ws d (run p)

/-- The same where operators of the level may follow: evaluation is then behind its first operand. -/
structure Opens (g : Scene) (ℓ : Nat) (ws : List Word) (run : Position → Course Value) : Prop where
  obeys {p : Position} {m : Machine} {d : Cursor} : Before ws p m d → d.kind.joins ≤ ℓ →
    Obeys g IsValue (tail ℓ) (level ℓ) m p ws d (run p)

namespace Evaluates

/-- An operand of a level of binary operators. -/
theorem head (h : Evaluates g (ℓ + 1) ws run) (h₁ : 2 ≤ ℓ) (h₂ : ℓ ≤ 8) (hs : Before ws p m d)
    (hk : d.kind.joins ≤ ℓ) : Obeys g IsValue done (head ℓ) m p ws d (run p) := by
  have obeys := h.obeys hs (Nat.lt_succ_of_le hk) (by omega)
  by_cases h8 : ℓ = 8
  · subst h8
    exact obeys.job fun _ _ => rfl
  · have same : Tree.head ℓ = level (ℓ + 1) := by
      match ℓ, h₁, h₂ with
      | 2, _, _ | 3, _, _ | 4, _, _ | 5, _, _ | 6, _, _ | 7, _, _ => rfl
      | 8, _, _ => contradiction
    rwa [same]

theorem opens (h : Evaluates g (ℓ + 1) ws run) (h₁ : 2 ≤ ℓ) (h₂ : ℓ ≤ 8) : Opens g ℓ ws run where
  obeys hs hk := by
    refine ((h.head h₁ h₂ hs hk).andThen (tail ℓ)).congr_here (.congr fun fuel n => ?_)
    rw [level, atLevel_eq _ _ h₁ h₂]
    rfl

end Evaluates

theorem Opens.works (h : Opens g ℓ ws run) (h₁ : 2 ≤ ℓ) (h₂ : ℓ ≤ 8) : Evaluates g ℓ ws run where
  obeys hs hk _ := by
    refine (h.obeys hs (Nat.le_of_lt hk)).close fun a m' hr => ?_
    have apart : m'.thread.cursor.kind.joins ≠ ℓ := by
      rw [hr.cursor]
      exact Nat.ne_of_lt hk
    exact .round (y := done a) (.of_eq fun _ _ => rfl) fun _ _ => tailAt_stops h₁ h₂ apart

/-- What a power does behind its base where it is none. -/
theorem powerTail_stops {j : Jobs} (hk : m.thread.cursor.kind ≠ .caret) :
    powerTail j left m = .ok left m := by
  simp only [powerTail, Bind.bind, EStateM.bind, kind]
  rw [if_pos hk]
  rfl

namespace Evaluates

/-- A power that no other operand of a power follows. -/
theorem power (h : Evaluates g 11 ws run) : Evaluates g 10 ws run where
  obeys hs hk _ := by
    have obeys := h.obeys hs (Nat.lt_succ_of_lt hk) (by omega)
    have sequence := obeys.andThen fun base fuel _ => powerTail (jobs fuel) base
    refine (sequence.congr_here (.congr fun fuel n => ?_)).close fun a m' hr => ?_
    · rw [level, power_eq]
      rfl
    · refine .of_eq fun _ _ => powerTail_stops ?_
      rw [hr.cursor]
      intro hc
      rw [hc] at hk
      exact absurd hk (by decide)

/-- A unary operand without a sign is a power. -/
theorem unary (h : Evaluates g 10 ws run) (hb : Begins false ws) : Evaluates g 9 ws run where
  obeys {p m d} hs hk _ := by
    refine (h.obeys hs (Nat.lt_succ_of_lt hk) (by omega)).congr_here (.congr fun fuel n => ?_)
    obtain ⟨w, vs, rfl, hw⟩ := hb
    simp only [level, atLevel, unaryExpr, Bind.bind, EStateM.bind, kind, hs.kind]
    generalize w.kind = t at hw
    cases t <;> first | rfl | contradiction

/-- An expression that is no conditional. -/
theorem whole (h : Evaluates g 2 ws run) (hw : ws ≠ []) (hb : Balanced 0 ws) :
    Evaluates g 1 ws run where
  obeys {p m d} hs hk hd := by
    have obeys := h.obeys hs (Nat.lt_succ_of_lt hk) (by omega)
    refine ⟨fun hm => ⟨.null, .null, ⟨rfl, rfl⟩, ?_⟩, fun hm _ _ _ hmirrors hrun => ?_⟩
    · obtain ⟨a, v, -, settles⟩ := obeys.passed hm
      have apart : (m.moved d).thread.cursor.kind ≠ .kwIf := by
        intro hif
        rw [show d.kind = .kwIf from hif] at hk
        exact absurd hk (by decide)
      obtain ⟨enough, settles⟩ := settles
      refine .of_settles ⟨enough, fun fuel n hf hn => ?_⟩
      have hx : orExpr (jobs fuel) n m = .ok a (m.moved d) := settles fuel n hf hn
      show conditional (jobs fuel) n m = .ok .null (m.moved d)
      rw [conditional_skips hm]
      simp only [skipConditional, Bind.bind, EStateM.bind, hx, Quiet.run_lift, skipOver_of_ne apart]
      rfl
    · refine (obeys.lands hm hmirrors hrun).congr (.congr fun fuel n => ?_) id
      exact conditional_run hm (conditionalAhead_eq hs.crosses hw hb (hd rfl))

/-- One level further. -/
theorem next (h : Evaluates g (ℓ + 1) ws run) (h₁ : 1 ≤ ℓ) (h₂ : ℓ ≤ 10) (hw : ws ≠ [])
    (hb : ℓ = 9 → Begins false ws) (hz : ℓ = 1 → Balanced 0 ws) : Evaluates g ℓ ws run := by
  by_cases hℓ : ℓ = 1
  · subst hℓ
    exact h.whole hw (hz rfl)
  by_cases h8 : ℓ ≤ 8
  · exact (h.opens (by omega) h8).works (by omega) h8
  obtain rfl | rfl : ℓ = 9 ∨ ℓ = 10 := by omega
  · exact h.unary (hb rfl)
  · exact h.power

/-- From its level on an expression is evaluated at every looser one. -/
theorem looser {top : Nat} (h : Evaluates g top ws run) (ht : top ≤ 11) (hw : ws ≠ [])
    (hb : 10 ≤ top → Begins false ws) (hz : 2 ≤ top → Balanced 0 ws) (h₁ : 1 ≤ ℓ) (hℓ : ℓ ≤ top) :
    Evaluates g ℓ ws run := by
  obtain ⟨k, rfl⟩ := Nat.exists_eq_add_of_le hℓ
  clear hℓ
  induction k generalizing ℓ with
  | zero => exact h
  | succ k ih =>
    rw [show ℓ + (k + 1) = ℓ + 1 + k by omega] at h ht hb hz
    exact (ih (by omega) h ht hb hz).next h₁ (by omega) hw (fun _ => hb (by omega))
      (fun _ => hz (by omega))

end Evaluates

/-! ### Operators -/

section Operators

variable {R : Value → Value → Prop} {o : Except Upset Value}

/-- Behind both operands: the operator is passed over, or what it gives is gone on with. -/
theorem Obeys.operates {x : Supplied Interrupt Held} {k z : Held → Supplied Interrupt Held}
    {run : Course Value} {f : Value → Course Value} (hx : Obeys g IsValue done x m p ws d run)
    (hl : IsValue left v)
    (hz : ∀ right u m', IsValue right u → m'.thread.skip = 0 → m'.thread.cursor = d →
      Obeys g IsValue k (z right) m' (p.past ws) [] d (f u)) :
    Obeys g IsValue k (fun fuel n => do
      let right ← x fuel n
      if ← isSkipping then k left fuel n else z right fuel n) m p ws d (run >>= f) := by
  refine hx.bind_nil (y := fun right fuel n => do
    if ← isSkipping then k left fuel n else z right fuel n) fun right u m' hr reaches => ?_
  by_cases hm : m'.thread.skip = 0
  · refine (hz right u m' hr hm reaches.cursor).congr_here (.congr fun fuel n => ?_)
    show (if m'.thread.skip != 0 then k left fuel n else z right fuel n) m' = _
    rw [hm]
    rfl
  · refine ⟨fun _ => ⟨left, v, hl, .congr fun fuel n => ?_⟩, fun h => absurd h hm⟩
    rw [← reaches.cursor]
    show (if m'.thread.skip != 0 then k left fuel n else z right fuel n) m' = _
    rw [show (m'.thread.skip != 0) = true from bne_iff_ne.2 hm]
    rfl

/-- An operator that works out what the tree says, and goes on. -/
theorem Obeys.settle {k : Held → Supplied Interrupt Held} {α : Type} {y : Eval α} {mk : α → Held}
    (h : Computes y mk m q o) (hv : ∀ v, o = .ok v → v.scalar = true) (hm : m.thread.skip = 0)
    (hc : m.thread.cursor = d) :
    Obeys g IsValue k (fun fuel n => do
      let a ← y
      k (mk a) fuel n) m p ws d (Course.settle q o) := by
  subst hc
  refine ⟨fun h => absurd hm h, fun _ σ σ' o' hmirrors hrun => ?_⟩
  cases o with
  | ok v =>
    obtain ⟨a, rfl, ha⟩ := h
    obtain ⟨rfl, rfl⟩ := Prod.mk.inj (Option.some.inj hrun)
    exact .value (mk a) m ⟨rfl, hv _ rfl⟩ (.bind (.of_eq fun _ _ => ha)) hmirrors (.refl g m _)
  | error u =>
    have stop : y m = .error (u.at q) m := h
    obtain ⟨rfl, rfl⟩ := Prod.mk.inj (Option.some.inj hrun)
    cases u with
    | complaint c =>
      exact .raised m.thread.cursor m rfl (Settles.stop_of_eq stop) hmirrors (.refl g m _)
        (.behind p ws _)
    | tooLong count => exact .failed m (Settles.stop_of_eq stop) hmirrors.toRooted

variable {op : Operator} {second : Position → Course Value}

/-- An operator at `p` with the left operand `v`, where `second` is the right one. -/
def outcome (op : Operator) (v : Value) (second : Position → Course Value) (p : Position) :
    Course Value := do
  if op.settledBy v then return v
  let w ← second (p.past op.words)
  Course.settle p (op.apply v w)

/-- What is behind the left operand of an operator works out the operator and goes on. -/
structure Operates (g : Scene) (op : Operator) : Prop where
  step {p : Position} {m : Machine} {d : Cursor} {ws : List Word} {left : Held} {v : Value}
    {second : Position → Course Value} : IsValue left v → Evaluates g (op.level + 1) ws second →
    Before (op.words ++ ws) p m d → d.kind.joins ≤ op.level →
    (op = .is → ∃ w vs, ws = w :: vs ∧ w.kind ≠ .kwNot) →
    Obeys g IsValue (tail op.level) (tail op.level left) m p (op.words ++ ws) d (outcome op v second p)

/-- An operator of one word that needs both operands. -/
theorem obeys_operator {z : Token → Held → Supplied Interrupt Held} (hop : op.words = [op.word])
    (hu : op.settledBy v = false) (hlevel : 2 ≤ op.level ∧ op.level ≤ 8) (hl : IsValue left v)
    (hr : Evaluates g (op.level + 1) ws second) (hs : Before (op.words ++ ws) p m d)
    (hk : d.kind.joins ≤ op.level)
    (hrun : ∀ fuel n b, (bump : Run _) m = .ok (op.word.token p) (m.moved b) →
      m.thread.cursor.kind = op.word.kind →
      tailAt op.level (jobs fuel) (n + 1) left m = (do
        let right ← holding [left.value] (headAt op.level (jobs fuel) n)
        if ← isSkipping then tailAt op.level (jobs fuel) n left
        else z (op.word.token p) right fuel n : Eval Held) (m.moved b))
    (hz : ∀ right u m', IsValue right u → m'.thread.skip = 0 → m'.thread.cursor = d →
      Obeys g IsValue (tail op.level) (z (op.word.token p) right) m' ((p.past op.words).past ws) [] d
        (Course.settle p (op.apply v u))) :
    Obeys g IsValue (tail op.level) (tail op.level left) m p (op.words ++ ws) d
      (outcome op v second p) := by
  rw [outcome, hu]
  rw [hop] at hs hz ⊢
  obtain ⟨b, hb, hs'⟩ := hs.bump
  have operand := (hr.head hlevel.1 hlevel.2 (m := holder (m.moved b) (.values [left.value]))
    (hs'.at_ rfl) hk).holding
  exact ((operand.operates hl hz).prepend [op.word]).round fun fuel n => hrun fuel n b hb hs.kind

theorem operates_comparison (hop : op.level = 6)
    (he : ∀ p a b, op.apply a b =
      ((Value.compare (op.word.token p) a b).map Value.bool).mapError .complaint) :
    Operates g op where
  step {p m d ws left v second} hl hr hs hk _ := by
    refine obeys_operator (z := fun site right fuel n => do
      let b ← orComplain site (Value.compare site left.value right.value)
      tailAt op.level (jobs fuel) n (.fresh (.bool b))) ?_ ?_ (by omega) hl hr hs hk ?_ ?_
    · cases op <;> first | rfl | contradiction
    · cases op <;> first | rfl | contradiction
    · intro fuel n b hb hc
      simp only [hop, tailAt, comparisonTail, Bind.bind, EStateM.bind, kind, hc]
      cases op
      all_goals first
        | contradiction
        | simp only [Operator.word, Word.kind, EStateM.bind, Quiet.run_lift, hb]
          rfl
    · rintro right u m' ⟨rfl, hu⟩ hm hc
      obtain ⟨rfl, -⟩ := hl
      exact .settle (computes_orComplain (op.word.token p) (he p left.value right.value))
        (fun v hv => Expr.scalar_apply _ hu hv) hm hc

theorem operates_equality (hop : op.level = 4)
    (he : ∀ p a b, op.apply a b =
      .ok (.bool (Value.equals a b != ((op.word.token p).kind == .neq)))) : Operates g op where
  step {p m d ws left v second} hl hr hs hk _ := by
    refine obeys_operator (z := fun site right => tail op.level
      (.fresh (.bool (left.value.equals right.value != (site.kind == .neq))))) ?_ ?_ (by omega) hl
      hr hs hk ?_ ?_
    · cases op <;> first | rfl | contradiction
    · cases op <;> first | rfl | contradiction
    · intro fuel n b hb hc
      simp only [hop, tailAt, equalityTail, Bind.bind, EStateM.bind, kind, hc]
      cases op
      all_goals first
        | contradiction
        | simp only [Operator.word, Word.kind, EStateM.bind, Quiet.run_lift, hb]
          rfl
    · rintro right u m' ⟨rfl, -⟩ - hc
      obtain ⟨rfl, -⟩ := hl
      rw [he p]
      exact .value ⟨rfl, rfl⟩ hc (.refl _ _)

theorem operates_product (hop : op.level = 8) : Operates g op where
  step {p m d ws left v second} hl hr hs hk _ := by
    refine obeys_operator (z := fun site right fuel n => do
      let v ← multiply site left.value right.value
      tailAt op.level (jobs fuel) n (.fresh v)) ?_ ?_ (by omega) hl hr hs hk ?_ ?_
    · cases op <;> first | rfl | contradiction
    · cases op <;> first | rfl | contradiction
    · intro fuel n b hb hc
      simp only [hop, tailAt, multiplicativeTail, Bind.bind, EStateM.bind, kind, hc]
      cases op
      all_goals first
        | contradiction
        | simp only [Operator.word, Word.kind, EStateM.bind, Quiet.run_lift, hb]
          rfl
    · rintro right u m' ⟨rfl, hu⟩ hm hc
      obtain ⟨rfl, -⟩ := hl
      exact .settle (multiply_computes hop left.value right.value)
        (fun v hv => Expr.scalar_apply _ hu hv) hm hc

theorem operates_minus : Operates g .minus where
  step {p m d ws left v second} hl hr hs hk _ := by
    refine obeys_operator (z := fun site right fuel n => do
      let v ← orComplain site (Value.numeric site left.value right.value)
      tailAt 7 (jobs fuel) n (.fresh v)) rfl rfl (by decide) hl hr hs hk ?_ ?_
    · intro fuel n b hb hc
      simp only [Operator.level, tailAt, additiveTail, Bind.bind, EStateM.bind, kind, hc]
      simp only [Operator.word, Word.minus, Word.kind, EStateM.bind, Quiet.run_lift, hb]
      rfl
    · rintro right u m' ⟨rfl, hu⟩ hm hc
      obtain ⟨rfl, -⟩ := hl
      have computes := computes_of_eq (m := m') (Operator.minus.word.token p) (numeric_eq
        (Operator.minus.word.token p) left.value right.value (.inr (.inl ⟨rfl, rfl, rfl⟩)))
      exact .settle computes (fun v hv => Expr.scalar_apply .minus hu hv) hm hc

/-- To add scalars takes no calls. -/
theorem add_alike (j j' : Jobs) {right : Held} (hl : left.value.scalar = true)
    (hr : right.value.scalar = true) (site : Token) (m : Machine) :
    add j site left right m = add j' site left right m := by
  obtain ⟨-, hs⟩ | ⟨-, hadd⟩ := plus_cases (b := right.value) hl
  · have joined (j : Jobs) : add j site left right =
        holding [left.value, right.value] (do
          let first ← render j left.value site
          let second ← render j right.value site
          return .fresh (.str (first ++ second)) : Eval Held) := by
      obtain ⟨s, hs⟩ | ⟨s, hs⟩ := hs
      · simp only [add, hs]
      · simp only [add, hs]
        cases left.value <;> rfl
    simp only [joined, holding, pinning, Bind.bind, EStateM.bind, render_of_scalar hl,
      render_of_scalar hr]
  · rw [hadd rfl rfl, hadd rfl rfl]

theorem operates_plus : Operates g .plus where
  step {p m d ws left v second} hl hr hs hk _ := by
    refine obeys_operator (z := fun site right fuel n => do
      let h ← add (jobs fuel) site left right
      tailAt 7 (jobs fuel) n h) rfl rfl (by decide) hl hr hs hk ?_ ?_
    · intro fuel n b hb hc
      simp only [Operator.level, tailAt, additiveTail, Bind.bind, EStateM.bind, kind, hc]
      simp only [Operator.word, Word.kind, EStateM.bind, Quiet.run_lift, hb]
      rfl
    · rintro right u m' ⟨rfl, hu⟩ hm hc
      obtain ⟨rfl, hv⟩ := hl
      refine (Obeys.settle (add_computes (j := jobs 0) hv hu)
        (fun v hv => Expr.scalar_apply _ hu hv) hm hc).congr_here (.congr fun fuel n => ?_)
      show EStateM.bind _ _ m' = EStateM.bind _ _ m'
      simp only [EStateM.bind, add_alike (jobs fuel) (jobs 0) hv hu]
      rfl

/-- Behind `is` and perhaps `not`. -/
theorem obeys_identity {b : Cursor} (negated : Bool) (hu : op.settledBy v = false)
    (he : ∀ v w, op.apply v w = .ok (.bool (Value.identical v w != negated)))
    (hl : IsValue left v) (hr : Evaluates g 6 ws second)
    (hs : Before ws (p.past op.words) (m.moved b) d) (hk : d.kind.joins ≤ 5)
    (hrun : ∀ fuel n, identityTail (jobs fuel) (n + 1) left m = (do
      let right ← holding [left.value] (comparison (jobs fuel) n)
      if ← isSkipping then identityTail (jobs fuel) n left
      else
        identityTail (jobs fuel) n
          (.fresh (.bool (left.value.identical right.value != negated))) : Eval Held) (m.moved b)) :
    Obeys g IsValue (tail 5) (tail 5 left) m p (op.words ++ ws) d (outcome op v second p) := by
  rw [outcome, hu]
  have operand := (hr.head (ℓ := 5) (by decide) (by decide)
    (m := holder (m.moved b) (.values [left.value])) (hs.at_ rfl) hk).holding
  refine ((operand.operates (k := tail 5) (z := fun right => tail 5
    (.fresh (.bool (left.value.identical right.value != negated)))) hl ?_).prepend op.words).round
    fun fuel n => hrun fuel n
  rintro right u m' ⟨rfl, -⟩ - hc
  obtain ⟨rfl, -⟩ := hl
  rw [he]
  exact .value ⟨rfl, rfl⟩ hc (.refl _ _)

theorem operates_is : Operates g .is where
  step {p m d ws left v second} hl hr hs hk hnot := by
    obtain ⟨b, hb, hs'⟩ := hs.skipOver
    obtain ⟨w, vs, rfl, hw⟩ := hnot rfl
    have apart := skipOver_of_ne (t := .kwNot) (hs'.kind.trans_ne hw)
    refine obeys_identity false rfl (fun v w => ?_) hl hr hs' hk fun fuel n => ?_
    · rw [Bool.bne_false]
      rfl
    · rw [show (Operator.is.word).kind = .kwIs from rfl] at hb
      simp only [identityTail, Bind.bind, EStateM.bind, Quiet.run_lift, hb, Bool.not_true,
        Bool.false_eq_true, if_false, apart]

theorem operates_isNot : Operates g .isNot where
  step {p m d ws left v second} hl hr hs hk _ := by
    obtain ⟨b, hb, hs'⟩ := hs.skipOver
    obtain ⟨b', hb', hs''⟩ := hs'.skipOver
    have behind : Before ws (p.past Operator.isNot.words) (m.moved b') d := by
      rw [show Operator.isNot.words = [Operator.isNot.word] ++ [.not] from rfl, Position.past_append]
      exact hs''
    refine obeys_identity true rfl (fun v w => ?_) hl hr behind hk fun fuel n => ?_
    · rw [Bool.bne_true]
      rfl
    · rw [show (Operator.isNot.word).kind = .kwIs from rfl] at hb
      rw [show Word.not.kind = .kwNot from rfl] at hb'
      simp only [identityTail, Bind.bind, EStateM.bind, Quiet.run_lift, hb, Bool.not_true,
        Bool.false_eq_true, if_false, hb']
      rfl

/-- Behind `or` and `and`: the right operand is passed over where the left one decides. -/
theorem obeys_circuit {k : Held → Supplied Interrupt Held} {x y : Supplied Interrupt Held}
    {b : Cursor} (hop : ∀ v w, op.apply v w = .ok w) (hl : IsValue left v)
    (hx : ∀ m' : Machine, Before ws (p.past op.words) m' d →
      Obeys g IsValue done x m' (p.past op.words) ws d (second (p.past op.words)))
    (hs : Before ws (p.past op.words) (m.moved b) d)
    (hrun : ∀ fuel n, y fuel (n + 1) m = (do
      if (← isSkipping) || op.settledBy left.value then
        let _ ← skipping (x fuel n)
        k left fuel n
      else
        let right ← holding [left.value] (x fuel n)
        k right fuel n : Eval Held) (m.moved b)) :
    Obeys g IsValue k y m p (op.words ++ ws) d (outcome op v second p) := by
  obtain ⟨rfl, hv⟩ := hl
  -- the operand on the right is passed over while nothing has an effect, and where it is not
  -- needed
  have passes (hc : ((m.moved b).thread.skip != 0 || op.settledBy left.value) = true) :
      Goes y m (k left) (m.moved d) := by
    obtain ⟨_, _, -, settles⟩ := (hx (m.moved b).skipping (hs.at_ rfl)).skipping
    have sequence := Goes.bind (k := fun _ => k left) settles
    refine Goes.trans (.round fun fuel n => (hrun fuel n).trans ?_) sequence
    show (if ((m.moved b).thread.skip != 0 || op.settledBy left.value) = true then
      (do let _ ← skipping (x fuel n); k left fuel n) else _ : Eval Held) (m.moved b) = _
    rw [if_pos hc]
  -- the right operand has an effect only if the left one does not settle the outcome
  by_cases hm : m.thread.skip = 0
  · cases hu : op.settledBy left.value with
    | true =>
      rw [outcome, hu]
      refine ⟨fun h => absurd hm h, fun _ σ σ' o hmirrors hrun => ?_⟩
      obtain ⟨rfl, rfl⟩ := Prod.mk.inj (Option.some.inj hrun)
      exact .value left _ ⟨rfl, hv⟩ (passes (by rw [hu, Bool.or_true])) (hmirrors.moved d)
        (.refl g m d)
    | false =>
      have right : outcome op left.value second p = second (p.past op.words) := by
        simp only [outcome, hu, hop, Course.settle]
        exact bind_pure _
      rw [right]
      -- the left operand is held while the right one is evaluated
      have operand := (hx (holder (m.moved b) (.values [left.value])) (hs.at_ rfl)).holding
      refine ((operand.andThen k).prepend op.words).round fun fuel n => (hrun fuel n).trans ?_
      show (if ((m.moved b).thread.skip != 0 || op.settledBy left.value) = true then
        _ else (holding [left.value] (x fuel n) >>= fun right => k right fuel n) : Eval Held)
        (m.moved b) = _
      rw [hu, show (m.moved b).thread.skip = 0 from hm]
      rfl
  · -- while nothing has an effect both are passed over
    exact ⟨fun _ => ⟨left, _, ⟨rfl, hv⟩, passes (by
      rw [show ((m.moved b).thread.skip != 0) = true from bne_iff_ne.2 hm, Bool.true_or])⟩,
      fun h => absurd h hm⟩

theorem operates_or : Operates g .or where
  step {p m d ws left v second} hl hr hs hk _ := by
    obtain ⟨b, hb, hs'⟩ := hs.skipOver
    refine obeys_circuit (x := head 2) (fun _ _ => rfl) hl
      (fun _ hs => hr.head (ℓ := 2) (by decide) (by decide) hs hk) hs' fun fuel n => ?_
    obtain ⟨rfl, hv⟩ := hl
    rw [show (Operator.or.word).kind = .kwOr from rfl] at hb
    simp only [Operator.level, tail, tailAt, orTail, Bind.bind, EStateM.bind, Quiet.run_lift, hb,
      Bool.not_true, Bool.false_eq_true, if_false]
    simp only [isSkipping, truthy, ask, truthy_of_scalar _ hv]
    rfl

theorem operates_and : Operates g .and where
  step {p m d ws left v second} hl hr hs hk _ := by
    obtain ⟨b, hb, hs'⟩ := hs.skipOver
    refine obeys_circuit (x := head 3) (fun _ _ => rfl) hl
      (fun _ hs => hr.head (ℓ := 3) (by decide) (by decide) hs hk) hs' fun fuel n => ?_
    obtain ⟨rfl, hv⟩ := hl
    rw [show (Operator.and.word).kind = .kwAnd from rfl] at hb
    simp only [Operator.level, tail, tailAt, andTail, Bind.bind, EStateM.bind, Quiet.run_lift, hb,
      Bool.not_true, Bool.false_eq_true, if_false]
    simp only [isSkipping, truthy, ask, truthy_of_scalar _ hv]
    rfl

theorem operates (op : Operator) (h : op ≠ .caret) : Operates g op := by
  cases op with
  | or => exact operates_or
  | and => exact operates_and
  | eq =>
    refine operates_equality rfl fun p a b => ?_
    show _ = Except.ok (Value.bool (a.equals b != false))
    cases h : a.equals b <;> simp [Operator.apply, h]
  | neq =>
    refine operates_equality rfl fun p a b => ?_
    show _ = Except.ok (Value.bool (a.equals b != true))
    cases h : a.equals b <;> simp [Operator.apply, h]
  | is => exact operates_is
  | isNot => exact operates_isNot
  | lt => exact operates_comparison rfl fun p a b =>
      compare_eq (Operator.lt.word.token p) a b (.inl ⟨rfl, rfl, rfl⟩)
  | gt => exact operates_comparison rfl fun p a b =>
      compare_eq (Operator.gt.word.token p) a b (.inr (.inl ⟨rfl, rfl, rfl⟩))
  | lte => exact operates_comparison rfl fun p a b =>
      compare_eq (Operator.lte.word.token p) a b (.inr (.inr (.inl ⟨rfl, rfl, rfl⟩)))
  | gte => exact operates_comparison rfl fun p a b =>
      compare_eq (Operator.gte.word.token p) a b (.inr (.inr (.inr ⟨rfl, rfl, rfl⟩)))
  | plus => exact operates_plus
  | minus => exact operates_minus
  | star | slash | percent => exact operates_product rfl
  | caret => contradiction

end Operators

/-! ### Places -/

/-- The words of an expression are evaluated at a level, also where operators of the level follow. -/
structure Sits (g : Scene) (ℓ : Nat) (ws : List Word) (run : Position → Course Value) : Prop where
  evaluates : Evaluates g ℓ ws run
  opens : 2 ≤ ℓ → ℓ ≤ 8 → Opens g ℓ ws run

/-- What is evaluated at its own level is evaluated at every looser one. -/
theorem Sits.looser {top : Nat} (h : Sits g top ws run) (ht : top ≤ 11) (hw : ws ≠ [])
    (hb : 10 ≤ top → Begins false ws) (hz : 2 ≤ top → Balanced 0 ws) (h₁ : 1 ≤ ℓ) (hℓ : ℓ ≤ top) :
    Sits g ℓ ws run := by
  obtain rfl | hℓ := Nat.eq_or_lt_of_le hℓ
  · exact h
  exact ⟨h.evaluates.looser ht hw hb hz h₁ (Nat.le_of_lt hℓ), fun h₂ h₈ =>
    (h.evaluates.looser ht hw hb hz (by omega) hℓ).opens h₂ h₈⟩

theorem Evaluates.sits (h : Evaluates g ℓ ws run) (hℓ : 9 ≤ ℓ) : Sits g ℓ ws run :=
  ⟨h, fun _ h₈ => absurd h₈ (by omega)⟩

theorem joins_operator (op : Operator) (hs : Before (op.words ++ ws) p m d) :
    m.thread.cursor.kind.joins = op.level := by
  obtain ⟨vs, hw⟩ : ∃ vs, op.words ++ ws = op.word :: vs := by cases op <;> exact ⟨_, rfl⟩
  rw [hw] at hs
  rw [hs.kind]
  cases op <;> rfl

section Parts

variable {first second third : Position → Course Value} {op : Operator}

/-- An operator between two operands. -/
theorem opens_operator (hop : op ≠ .caret) (hu : Opens g op.level us first)
    (hw : Evaluates g (op.level + 1) ws second)
    (his : op = .is → ∃ w vs, ws = w :: vs ∧ w.kind ≠ .kwNot) :
    Opens g op.level (us ++ (op.words ++ ws))
      fun p => first p >>= fun v => outcome op v second (p.past us) where
  obeys hs hk := by
    obtain ⟨b, hus, hb, hws⟩ := hs.split us
    have next := joins_operator op (hws ((default : Machine).moved b) rfl)
    refine (hu.obeys hus (Nat.le_of_eq next)).trans hb fun left v m' hl hr => ?_
    exact (operates op hop).step hl hw (hws m' hr.cursor) hk his

/-- A part that is left out while skipping. -/
theorem Obeys.unless {x : Supplied Interrupt Held} {run : Course Value}
    (hc : m.thread.cursor = d) (h : m.thread.skip = 0 → Obeys g IsValue done x m p ws d run) :
    Obeys g IsValue done (fun fuel n => unlessSkipping (x fuel n)) m p ws d run := by
  by_cases hm : m.thread.skip = 0
  · refine (h hm).congr_here (.congr fun fuel n => ?_)
    show (if m.thread.skip != 0 then pure Held.null else x fuel n) m = x fuel n m
    rw [hm]
    rfl
  · refine ⟨fun _ => ⟨.null, .null, ⟨rfl, rfl⟩, .congr fun fuel n => ?_⟩, fun h => absurd h hm⟩
    show (if m.thread.skip != 0 then pure Held.null else x fuel n) m = _
    rw [show (m.thread.skip != 0) = true from bne_iff_ne.2 hm, ← hc]
    rfl

/-- What an operator gives is the value. -/
theorem Obeys.settled {run : Except Upset Value} {e : Except Complaint Value} (site : Token)
    (h : run = e.mapError .complaint) (hv : ∀ v, run = .ok v → v.scalar = true)
    (hm : m.thread.skip = 0) (hc : m.thread.cursor = d) :
    Obeys g IsValue done (fun _ _ => do return Held.fresh (← orComplain site e)) m p ws d
      (Course.settle site.start run) :=
  .settle (k := done) (computes_of_eq site h) hv hm hc

/-- A base, `^` and an exponent. -/
theorem evaluates_power (hu : Evaluates g 11 us first) (hw : Evaluates g 9 ws second) :
    Evaluates g 10 (us ++ (Operator.caret.words ++ ws))
      fun p => first p >>= fun v => outcome .caret v second (p.past us) where
  obeys {p m d} hs hk _ := by
    obtain ⟨b, hus, hb, hws⟩ := hs.split us
    have caret : b.kind = .caret := (hws (m.moved b) rfl).kind
    have base := hu.obeys hus (by rw [caret]; decide) (by omega)
    refine ((base.andThen fun h fuel _ => powerTail (jobs fuel) h).trans hb
      fun left v m' hl hr => ?_).congr_here (.congr fun fuel n => ?_)
    swap
    · rw [level, power_eq]
      rfl
    obtain ⟨rfl, hv⟩ := hl
    obtain ⟨c, hc, rest⟩ := (hws m' hr.cursor).bump
    have exponent := (hw.obeys (m := holder (m'.moved c) (.values [left.value])) (rest.at_ rfl)
      (by have := d.kind.joins_ne_nine; omega) (by omega)).job
      (x := fun fuel _ => (jobs fuel).unary) fun _ _ => rfl
    let z (right : Held) : Supplied Interrupt Held := fun _ _ => unlessSkipping do
      return .fresh (← orComplain (Operator.caret.word.token (p.past us))
        (Value.power (Operator.caret.word.token (p.past us)) left.value right.value))
    rw [outcome, if_neg (show ¬Operator.caret.settledBy left.value = true from nofun)]
    refine ((exponent.holding.bind_nil (y := z) fun right u m'' hr' reaches => ?_).prepend
      Operator.caret.words).congr (.congr fun fuel n => ?_)
    swap
    · have caret : m'.thread.cursor.kind = .caret := by rw [hr.cursor, caret]
      simp only [powerTail, Bind.bind, EStateM.bind, kind, caret]
      rw [if_neg (not_not_intro rfl)]
      simp only [EStateM.bind, Quiet.run_lift, hc]
      rfl
    · obtain ⟨rfl, hu⟩ := hr'
      exact .unless reaches.cursor fun hm => .settled _
        (power_value (Operator.caret.word.token (p.past us)) left.value right.value rfl)
        (fun v hv => Expr.scalar_apply .caret hu hv) hm reaches.cursor

/-- A unary operator and its operand. -/
theorem evaluates_unary {y : Token → Held → Eval Held} {f : Value → Position → Course Value}
    (h : Evaluates g 9 ws run)
    (hrun : ∀ {m m' : Machine} {j : Jobs} {n : Nat} {p : Position},
      m.thread.cursor.kind = w.kind → (bump : Run _) m = .ok (w.token p) m' →
      unaryExpr j n m = (do
        let operand ← j.unary
        unlessSkipping (y (w.token p) operand) : Eval Held) m')
    (hy : ∀ {m : Machine} {p q : Position} {ws : List Word} {operand : Held} {v : Value},
      m.thread.skip = 0 → IsValue operand v →
      Obeys g IsValue done (fun _ _ => y (w.token p) operand) m q ws m.thread.cursor (f v p)) :
    Evaluates g 9 (w :: ws) fun p => run (p.past [w]) >>= fun v => f v p where
  obeys {p m d} hs hk _ := by
    obtain ⟨b, hb, hws⟩ := hs.bump
    have operand := (h.obeys hws hk (by omega)).job (x := fun fuel _ => (jobs fuel).unary)
      fun _ _ => rfl
    have whole := operand.bind_nil (y := fun operand _ _ => unlessSkipping (y (w.token p) operand))
      (l := done) (f := fun v => f v p) (S := IsValue) fun a v m' ha reaches => .unless reaches.cursor
        fun hm => reaches.cursor ▸ hy hm ha
    exact (whole.prepend [w]).congr (.congr fun fuel n => hrun hs.kind hb)

theorem evaluates_not (h : Evaluates g 9 ws run) :
    Evaluates g 9 (.not :: ws)
      fun p => run (p.past [.not]) >>= fun v => pure (.bool !v.counts) := by
  refine evaluates_unary (y := fun _ operand => do
    let b ← truthy operand
    return .fresh (.bool !b)) h ?_ ?_
  · intro m m' j n p hk hb
    simp only [unaryExpr, Bind.bind, EStateM.bind, kind, hk, Word.not, Word.kind]
    simp only [Quiet.run_lift, hb]
  · rintro m p q ws operand v - ⟨rfl, hv⟩
    refine .value (a := .fresh (.bool !operand.value.counts)) ⟨rfl, rfl⟩ rfl (.congr fun _ _ => ?_)
    simp only [truthy, Bind.bind, EStateM.bind, ask, truthy_of_scalar _ hv]
    rfl

theorem evaluates_negative (h : Evaluates g 9 ws run) :
    Evaluates g 9 (.minus :: ws)
      fun p => run (p.past [.minus]) >>= fun v => Course.settle p (opposite v) := by
  refine evaluates_unary (y := fun op operand => do
    let v ← orComplain op operand.value.negate
    return .fresh v) h ?_ ?_
  · intro m m' j n p hk hb
    simp only [unaryExpr, Bind.bind, EStateM.bind, kind, hk, Word.minus, Word.kind]
    simp only [Quiet.run_lift, hb]
    rfl
  · rintro m p q ws operand v hm ⟨rfl, -⟩
    exact .settled (Word.minus.token p) (negate_eq operand.value)
      (fun v hv => Expr.scalar_opposite hv) hm rfl

/-! ### Conditionals -/

/-- Behind its `if` a conditional is passed over. -/
theorem passSides_skips (hv : Evaluates g 2 vs second) (hw : Evaluates g 1 ws third)
    (hm : m.thread.skip ≠ 0) (hk : d.kind.joins < 1) (hd : Ends p.line d)
    (hs : Before (vs ++ .else :: ws) p m d) :
    Settles (fun fuel n => passSides (jobs fuel) n) m (.ok () (m.moved d)) := by
  obtain ⟨b, hvs, -, hrest⟩ := hs.split vs
  obtain ⟨c, hc, hws⟩ := (hrest (m.moved b) rfl).advance
  have helse : b.kind = .kwElse := (hrest (m.moved b) rfl).kind
  obtain ⟨_, _, -, right⟩ := (hv.obeys hvs (by rw [helse]; decide) (by omega)).passed hm
  obtain ⟨_, _, -, last⟩ := (hw.obeys hws hk fun _ => by simpa using hd).passed hm
  exact right.bind (k := fun _ fuel n => (do
      let _ ← advance .kwElse
      let _ ← (jobs fuel).expression : Eval Unit))
    ((Settles.step (lift_of_ok hc) (last.expression.bind (.of_eq fun _ _ => rfl))))

/-- A conditional is passed over. -/
theorem skipConditional_skips (hu : Evaluates g 2 us first) (hv : Evaluates g 2 vs second)
    (hw : Evaluates g 1 ws third) (hm : m.thread.skip ≠ 0) (hk : d.kind.joins < 1)
    (hd : Ends p.line d) (hs : Before (Word.choice us vs ws) p m d) :
    Settles (fun fuel n => skipConditional (jobs fuel) n) m (.ok () (m.moved d)) := by
  obtain ⟨b, hus, -, hrest⟩ := hs.split us
  have hif : b.kind = .kwIf := (hrest (m.moved b) rfl).kind
  obtain ⟨c, hc, hsides⟩ := (hrest (m.moved b) rfl).skipOver
  obtain ⟨_, _, -, left⟩ := (hu.obeys hus (by rw [hif]; decide) (by omega)).passed hm
  have sides := passSides_skips hv hw (m := (m.moved b).moved c) hm hk (by simpa using hd) hsides
  refine left.bind (k := fun _ fuel n => (do
    if ← skipOver .kwIf then passSides (jobs fuel) n : Eval Unit)) ?_
  exact .step (lift_of_ok hc) sides

/-- Where the condition holds, evaluation goes back to the first side and passes over the rest. -/
theorem obeys_first_side {m₀ : Machine} (hu : Evaluates g 2 (w :: us) first)
    (hv : Evaluates g 2 vs second) (hw : Evaluates g 1 ws third) (hk : d.kind.joins < 1)
    (hd : Ends p.line d) (hs : Before (Word.choice (w :: us) vs ws) p m₀ d)
    (hc : m.thread.cursor.source = m₀.thread.cursor.source) :
    Obeys g IsValue done (fun fuel n => do
      rewind m₀.thread.cursor.capture
      let v ← orExpr (jobs fuel) n
      skipping do
        let _ ← advance .kwIf
        passSides (jobs fuel) n
      return v) m p (Word.choice (w :: us) vs ws) d (first p) := by
  obtain ⟨b₀, hb₀, hback⟩ := hs.back (by simp [Word.choice]) hc
  obtain ⟨b₁, hus, hb₁, hrest⟩ := hback.split (w :: us)
  have hif : b₁.kind = .kwIf := (hrest (m.moved b₁) rfl).kind
  have side := (hu.obeys hus (by rw [hif]; decide) (by omega)).andThen fun v fuel n => do
    skipping do
      let _ ← advance .kwIf
      passSides (jobs fuel) n
    return v
  have whole := side.map (φ := id) (l := done) (S := IsValue) hb₁ fun v u m' hv' hr => ?_
  · refine (whole.of_run (bind_pure _)).congr (.congr fun fuel n => ?_)
    exact bind_of_ok (lift_of_ok hb₀)
  · refine ⟨v, hv', .of_settles ?_⟩
    obtain ⟨c, hc, hsides⟩ := (hrest m'.skipping hr.cursor).advance
    have sides := passSides_skips (m := m'.skipping.moved c) hv hw (Nat.succ_ne_zero _) hk
      (by simpa using hd) hsides
    have skipped : Settles (fun fuel n => (skipping do
        let _ ← advance .kwIf
        passSides (jobs fuel) n : Eval Unit)) m' (.ok () (m'.moved d)) :=
      Settles.skipping (Settles.step (lift_of_ok hc) sides)
    exact skipped.bind (k := fun _ _ _ => pure v) (.of_eq fun _ _ => rfl)

/-- The condition is evaluated first and decides which of the sides is. -/
theorem evaluates_conditional (hu : Evaluates g 2 (w :: us) first)
    (hub : Balanced 0 (w :: us)) (hv : Evaluates g 2 vs second) (hw : Evaluates g 1 ws third) :
    Evaluates g 1 (Word.choice (w :: us) vs ws) fun p =>
      second ((p.past (w :: us)).past [.if]) >>= fun v =>
        if v.counts then first p
        else third ((((p.past (w :: us)).past [.if]).past vs).past [.else]) where
  obeys {p m d} hs hk hd := by
    have hd := hd rfl
    by_cases hm : m.thread.skip = 0
    -- while nothing has an effect, all three parts are passed over
    swap
    · refine ⟨fun _ => ⟨.null, .null, ⟨rfl, rfl⟩, .of_settles ?_⟩, fun h => absurd h hm⟩
      have skips := skipConditional_skips hu hv hw hm hk hd hs
      refine (skips.bind (k := fun _ _ _ => pure Held.null) (.of_eq fun _ _ => rfl)).congr
        fun fuel n => ?_
      exact conditional_skips hm
    -- the side in front is passed over first, and the condition decides which one is evaluated
    obtain ⟨b₁, hus, hb₁, hrest⟩ := hs.split (w :: us)
    have hif : b₁.kind = .kwIf := (hrest (m.moved b₁) rfl).kind
    obtain ⟨b₂, hb₂, hsides⟩ := (hrest (m.moved b₁) rfl).advance
    obtain ⟨_, _, -, left⟩ := (hu.obeys (m := m.skipping) (hus.at_ rfl) (by rw [hif]; decide)
      (by omega)).skipping
    obtain ⟨b₃, hvs, hb₃, hrest'⟩ := hsides.split vs
    have helse : b₃.kind = .kwElse := (hrest' (m.moved b₃) rfl).kind
    -- what follows the condition: the cursor goes back to the side in front, or on to the one
    -- behind
    let rest (taken : Held) : Supplied Interrupt Held := fun fuel n => do
      let taken ← truthy taken
      let _ ← advance .kwElse
      if !taken then return ← (jobs fuel).expression
      rewind m.thread.cursor.capture
      let v ← orExpr (jobs fuel) n
      skipping do
        let _ ← advance .kwIf
        passSides (jobs fuel) n
      return v
    have condition := (hv.obeys hvs (by rw [helse]; decide) (by omega)).andThen rest
    let behind : Supplied Interrupt Held := fun fuel n => do
      let _ ← advance .kwIf
      let taken ← orExpr (jobs fuel) n
      rest taken fuel n
    have start : Goes (level 1) m behind (m.moved b₁) := by
      have skipped := Goes.bind (k := fun _ => behind) left
      exact .trans (.congr fun fuel n =>
        (conditional_run hm (conditionalAhead_choice hs.crosses hub)).trans (bind_of_ok rfl)) skipped
    have place (c : Cursor) (hc : Within ((p.past (w :: us)).past [.if]) vs c b₃) :
        Within p (Word.choice (w :: us) vs ws) c d :=
      ((hc.append hb₃).prepend [.if]).prepend (w :: us)
    refine Obeys.congr (y := behind) (b := b₁) ?_ start
    refine Obeys.congr (b := b₂) (condition.sequence place fun taken u m' ht hr => ?_)
      (.congr fun fuel n => bind_of_ok (lift_of_ok hb₂))
    obtain ⟨rfl, hu'⟩ := ht
    have counts : (truthy taken : Eval _) m' = .ok taken.value.counts m' := by
      simp only [truthy, ask, truthy_of_scalar _ hu']
    obtain ⟨c, hc, hws⟩ := (hrest' m' hr.cursor).advance
    have source : c.source = m.thread.cursor.source := hws.source_eq.symm.trans hs.source_eq
    have step (fuel n : Nat) : rest taken fuel n m' = _ :=
      (bind_of_ok counts).trans (bind_of_ok (lift_of_ok hc))
    refine Obeys.congr (b := c) ?_ (.congr step)
    cases taken.value.counts with
    | false =>
      have third := (hw.obeys hws hk fun _ => by simpa using hd).job
        (x := fun fuel _ => (jobs fuel).expression) fun _ _ => rfl
      exact ((((third.prepend [.else]).prepend vs).prepend [.if]).prepend (w :: us)).congr_here
        (.congr fun _ _ => rfl)
    | true => exact obeys_first_side hu hv hw hk hd hs source

/-! ### Operands -/

/-- An operand that begins with a word, and that nothing is read or called behind. -/
theorem evaluates_operand
    (h : ∀ {p : Position} {m : Machine} {d : Cursor}, Before ws (p.past [w]) m d →
      d.kind.joins < 11 → Obeys g IsValue done (fun fuel n => primaryOf (jobs fuel) n (w.token p)) m
        (p.past [w]) ws d (run p)) :
    Evaluates g 11 (w :: ws) run where
  obeys {p m d} hs hk _ := by
    obtain ⟨b, hb, hs'⟩ := hs.bump
    have operand := (h hs' hk).andThen fun v fuel n => chain (jobs fuel) n v
    refine (((operand.prepend [w]).congr (.congr fun fuel n => ?_))).close fun a m' hr => ?_
    · simp only [level, atLevel, primary_eq, bind_assoc]
      exact bind_of_ok (lift_of_ok hb)
    · refine .round (y := done a) (.of_eq fun _ _ => rfl) fun _ _ => chain_stops ?_
      rwa [hr.cursor]

theorem evaluates_literal (l : Literal) : Evaluates g 11 [l.word] fun _ => pure l.value := by
  refine evaluates_operand fun {p m d} hs _ => ?_
  have hc := hs.moved_eq
  cases l with
  | int ds h =>
    refine .value (a := .fresh (.int (natOfDigits ds.chars))) ⟨rfl, rfl⟩ hc (.congr fun _ _ => ?_)
    show EStateM.Result.ok (Held.fresh (.int (natOfDigits (String.ofList ds.chars).toList))) m = _
    rw [String.toList_ofList]
    rfl
  | float whole fraction =>
    refine .value (a := .fresh (.float _)) ⟨rfl, rfl⟩ hc (.congr fun _ _ => ?_)
    show EStateM.Result.ok (Held.fresh (.float (floatOfLiteral
      (String.ofList (whole.chars ++ '.' :: fraction.chars))))) m = _
    rw [float_literal]
    rfl
  | bool b => cases b <;> exact .value (a := .fresh _) ⟨rfl, rfl⟩ hc (.congr fun _ _ => rfl)
  | null => exact .value (a := .null) ⟨rfl, rfl⟩ hc (.congr fun _ _ => rfl)
  | text cs h =>
    refine Obeys.unless (x := fun fuel _ => do
      return .fresh (.str (← interpolate (jobs fuel) ((Literal.text cs h).word.token p)))) hc
      fun _ => .value (a := .fresh (.str (String.ofList cs))) ⟨rfl, rfl⟩ hc (.congr fun _ _ => ?_)
    simp only [interpolate, Literal.word, Word.token, Word.spelling, String.toList_ofList,
      ofChars_of_findHole h, fill]
    rfl

/-- A name that stands for no built-in function is looked up. -/
theorem name_run {t : Token} {found : Option Value} (hl : (lookup t.text : Eval _) m = .ok found m)
    (hb : m.thread.cursor.kind ≠ .lparen ∨ Native.builtin? t.text = none) :
    (name t : Eval _) m = match found with
      | some v => .ok (.view v) m
      | none => .error (.raised ⟨.str (Complaint.undefinedVariable t.text).message, t.line,
        t.column⟩) m := by
  by_cases call : m.thread.cursor.kind = .lparen
  · have builtin := hb.resolve_left (not_not_intro call)
    simp only [name, Bind.bind, EStateM.bind, kind, if_pos call, builtin, hl]
    cases found <;> rfl
  · simp only [name, Bind.bind, EStateM.bind, kind, if_neg call, hl]
    cases found <;> rfl

theorem evaluates_name (apply : Apply) (x : Identifier) :
    Evaluates g 11 [.name x] ((Term.name x).eval apply) := by
  refine evaluates_operand fun {p m d} hs hk => ?_
  have hc := hs.moved_eq
  refine Obeys.unless (x := fun _ _ => name ((Word.name x).token p)) hc fun hm => ?_
  subst hc
  refine ⟨fun h => absurd hm h, fun _ σ σ' o hmirrors hrun => ?_⟩
  -- a name that is called is looked for among the built-in functions first
  have call : m.thread.cursor.kind ≠ .lparen := by
    intro hc
    rw [hc] at hk
    exact absurd hk (by decide)
  obtain ⟨found, hl, ha⟩ := hmirrors.lookup x.text
  have run := name_run (t := (Word.name x).token p) hl (.inl call)
  rw [Term.eval, Course.run_get] at hrun
  cases hf : σ.find x.text with
  | none =>
    rw [hf] at hrun ha
    obtain rfl := ha.none_iff
    obtain ⟨rfl, rfl⟩ := Prod.mk.inj (Option.some.inj hrun)
    exact .raised _ m rfl (.of_eq fun _ _ => run) hmirrors (.refl g m _) (.behind _ _ _)
  | some b =>
    rw [hf] at hrun ha
    cases b with
    | function f start => contradiction
    | scalar v =>
      obtain ⟨u, rfl, rfl, hv⟩ := ha.some_iff
      obtain ⟨rfl, rfl⟩ := Prod.mk.inj (Option.some.inj hrun)
      exact .value (.view u) m ⟨rfl, hv⟩ (.congr fun _ _ => run) hmirrors (.refl g m _)

theorem evaluates_paren {signed : Bool} (h : Evaluates g 1 ws run) (hb : Begins signed ws) :
    Evaluates g 11 (enclosed true ws) fun p => run (inside true p) := by
  refine evaluates_operand fun {p m d} hs _ => ?_
  obtain ⟨b, hws, hb', hs'⟩ := hs.split ws
  have hkind : b.kind = .rparen := (hs' (m.moved b) rfl).kind
  obtain ⟨w, vs, rfl, hw⟩ := hb
  -- there is an expression, so this is no empty tuple
  have hopen : m.thread.cursor.kind ≠ .rparen := by
    intro hc
    rw [hws.kind] at hc
    rw [hc] at hw
    contradiction
  have inner := (h.obeys hws (by rw [hkind]; decide)
    fun _ => .inr (.inl (by rw [hkind]; rfl))).job
      (x := fun fuel _ => (jobs fuel).expression) fun _ _ => rfl
  -- what follows the first expression: a comma would make it a tuple
  let rest (first : Held) : Supplied Interrupt Held := fun fuel n => do
    if (← kind) ≠ .comma then
      let _ ← advance .rparen
      return first
    let values ← tupleItems (jobs fuel) n [← own first]
    let _ ← advance .rparen
    unlessSkipping (return .fresh (← onHeap (Heap.newTuple values.toArray)))
  have whole := (inner.andThen rest).map (φ := id) (l := done) (S := IsValue) hb'
    fun a v m' ha hr => ⟨a, ha, ?_⟩
  · refine (whole.of_run (bind_pure _)).congr_here (.congr fun fuel n => ?_)
    show parenthesized (jobs fuel) n m = _
    simp only [parenthesized, Bind.bind, EStateM.bind, Quiet.run_lift, skipOver_of_ne hopen,
      Bool.false_eq_true, if_false]
    rfl
  · -- there is no comma behind it
    obtain ⟨c, hc, hend⟩ := (hs' m' hr.cursor).advance
    obtain rfl := hend.moved_eq
    have hcomma : m'.thread.cursor.kind ≠ .comma := by
      rw [hr.cursor, hkind]
      decide
    refine .congr fun fuel n => ?_
    rw [show Word.rparen.kind = .rparen from rfl] at hc
    simp only [rest, Bind.bind, EStateM.bind, kind, if_pos hcomma, Quiet.run_lift, hc]
    rfl

end Parts

/-! ### Arguments -/

/-- None of the words is the `=` behind the name of an argument. -/
def Unassigned (ws : List Word) : Prop := ∀ w ∈ ws, w.kind ≠ .assign

namespace Unassigned

theorem nil : Unassigned [] := fun _ h => nomatch h

theorem cons (hw : w.kind ≠ .assign) (h : Unassigned ws) : Unassigned (w :: ws) :=
  List.forall_mem_cons.2 ⟨hw, h⟩

theorem append (h : Unassigned us) (h' : Unassigned ws) : Unassigned (us ++ ws) :=
  List.forall_mem_append.2 ⟨h, h'⟩

theorem paren (h : Unassigned ws) : Unassigned (.lparen :: (ws ++ [.rparen])) :=
  .cons (by decide) (h.append (.cons (by decide) nil))

theorem enclosed (b : Bool) (h : Unassigned ws) : Unassigned (enclosed b ws) := by
  cases b with
  | false => exact h
  | true => exact h.paren

end Unassigned

mutual

theorem Term.unassigned (t : Term) : Unassigned t.words := by
  cases t with
  | literal l =>
    cases l with
    | bool b => cases b <;> exact .cons nofun .nil
    | _ => exact .cons nofun .nil
  | name x => exact .cons nofun .nil
  | paren t => exact t.unassigned.paren
  | not t => exact .cons nofun (t.unassigned.enclosed _)
  | negative t => exact .cons nofun (t.unassigned.enclosed _)
  | binary op a b =>
    have operator : Unassigned op.words := by
      cases op <;> (unfold Unassigned; decide)
    exact (a.unassigned.enclosed _).append (operator.append (b.unassigned.enclosed _))
  | conditional a c b =>
    exact (a.unassigned.enclosed _).append
      (.cons nofun ((c.unassigned.enclosed _).append (.cons nofun b.unassigned)))
  | call f args => exact .cons nofun args.unassigned.paren

theorem Terms.unassigned (ts : Terms) : Unassigned ts.words := by
  cases ts with
  | nil => exact .nil
  | cons t rest => exact t.unassigned.append rest.unassigned_more

theorem Terms.unassigned_more (ts : Terms) : Unassigned ts.more := by
  cases ts with
  | nil => exact .nil
  | cons t rest => exact .cons nofun (t.unassigned.append rest.unassigned_more)

end

/-- An argument is not taken for one with a name. -/
theorem isNamed_run {u : Word} (hs : Before (w :: u :: ws) p m d) (hu : u.kind ≠ .assign) :
    (arguments.isNamed : Run _) m = .ok false m := by
  obtain ⟨b, hb, hs'⟩ := hs.steps
  have next : m.thread.cursor.peek = .ok (u.token (p.past [w])) := by
    have current : b.current = u.token (p.past [w]) := hs'.current
    unfold Cursor.bump at hb
    unfold Cursor.peek
    split at hb
    · contradiction
    · rename_i t behind hscan
      obtain rfl := Except.ok.inj hb
      exact congrArg _ current
  by_cases hk : m.thread.cursor.kind ≠ .ident
  · simp only [arguments.isNamed, Bind.bind, EStateM.bind, kind, if_pos hk]
    rfl
  · have apart : (u.kind == .assign) = false := beq_false_of_ne hu
    simp only [arguments.isNamed, Bind.bind, EStateM.bind, kind, if_neg hk]
    simp only [get_run, next]
    exact congrArg (EStateM.Result.ok · m) apart

/-- The arguments that have been read are those before, and scalars behind them. -/
def IsArguments (before : List Value) (args : CallArgs) (vs : List Value) : Prop :=
  args = { positional := before ++ vs } ∧ ∀ v ∈ vs, v.scalar = true

/-- To keep a scalar copies nothing. -/
theorem own_run {ε : Type} {h : Held} (hv : h.value.scalar = true) :
    (own h : EStateM ε Machine Value) m = .ok h.value m := by
  obtain v | v := h
  · rfl
  · cases v <;> first | rfl | contradiction

variable {apply : Apply} {t : Term} {ts : Terms}

/-- An expression is evaluated at every level that asks for no parentheses around it. -/
def Term.Evaluable (g : Scene) (apply : Apply) (t : Term) : Prop :=
  ∀ ℓ, 1 ≤ ℓ → ℓ ≤ t.level → Sits g ℓ t.words (t.eval apply)

/-- Arguments and the parenthesis behind them are read, behind others that have been. -/
def Terms.Readable (g : Scene) (apply : Apply) (ts : Terms) : Prop :=
  ∀ before {p : Position} {m : Machine} {d : Cursor}, Before (ts.words ++ [.rparen]) p m d →
    Obeys g (IsArguments before) done
      (fun fuel n => arguments (jobs fuel) n { positional := before }) m p (ts.words ++ [.rparen]) d
      (ts.eval apply p)

/-- What stands inside of brackets, as a whole. -/
theorem Term.Evaluable.expression (h : t.Evaluable g apply) (hs : Before t.words p m d)
    (hk : d.kind.joins < 1) (hd : Ends p.line d) :
    Obeys g IsValue done (fun fuel _ => (jobs fuel).expression) m p t.words d (t.eval apply p) :=
  ((h 1 (Nat.le_refl 1) t.level_bounds.1).evaluates.obeys hs hk fun _ => hd).job fun _ _ => rfl

/-- What is done behind the value of an argument. -/
def nextArgument (before : List Value) (h : Held) : Supplied Interrupt CallArgs := fun fuel n => do
  let v ← own h
  if ← skipOver .comma then arguments (jobs fuel) n { positional := before ++ [v] }
  else arguments.finish { positional := before ++ [v] }

theorem Terms.readable_nil : Terms.nil.Readable g apply := by
  intro before p m d hs
  obtain ⟨b, hb, hend⟩ := hs.advance
  obtain rfl := hend.moved_eq
  have value : Obeys g (IsArguments before) done (done { positional := before ++ [] }) (m.moved b)
      p ([] ++ [.rparen]) b (pure []) := .value ⟨rfl, nofun⟩ rfl (.refl _ _)
  refine value.round fun fuel n => ?_
  have close : m.thread.cursor.kind = .rparen := hs.kind
  rw [show Word.rparen.kind = .rparen from rfl] at hb
  rw [List.append_nil]
  simp only [arguments, Bind.bind, EStateM.bind, kind, if_pos close, arguments.finish,
    Quiet.run_lift, hb]
  rfl

/-- What is behind an argument. -/
theorem obeys_nextArgument {before : List Value} (hv : IsValue h v) (hr : ts.Readable g apply)
    (hs : Before (ts.more ++ [.rparen]) q m d) :
    Obeys g (IsArguments before) done (nextArgument before h) m q (ts.more ++ [.rparen]) d
      (ts.eval apply (q.past [.comma]) >>= fun vs => pure (v :: vs)) := by
  obtain ⟨rfl, hv⟩ := hv
  have kept : (own h : Eval Value) m = .ok h.value m := own_run hv
  cases ts with
  | nil =>
    obtain ⟨b, hb, hend⟩ := hs.advance
    obtain rfl := hend.moved_eq
    have apart : m.thread.cursor.kind ≠ .comma := by
      rw [hs.kind]
      decide
    refine (Obeys.value (a := { positional := before ++ [h.value] })
      ⟨rfl, List.forall_mem_singleton.2 hv⟩ rfl (.refl _ _)).congr (b := b)
      (.congr fun fuel n => ?_)
    rw [show Word.rparen.kind = .rparen from rfl] at hb
    refine (bind_of_ok kept).trans ((bind_of_ok (lift_of_ok (skipOver_of_ne apart))).trans ?_)
    simp only [Bool.false_eq_true, if_false, arguments.finish, Quiet.run_lift, Bind.bind,
      EStateM.bind, hb]
    rfl
  | cons t rest =>
    obtain ⟨b, hb, hs'⟩ := hs.skipOver
    have others := hr (before ++ [h.value]) hs'
    have whole := others.map_nil (φ := (h.value :: ·)) (S := IsArguments before) (l := done)
      fun a vs m' ha reaches => ⟨a, ?_, ?_⟩
    · refine (whole.prepend [.comma]).congr (.congr fun fuel n => ?_)
      exact (bind_of_ok kept).trans (bind_of_ok (lift_of_ok hb))
    · obtain ⟨rfl, hvs⟩ := ha
      exact ⟨by rw [List.append_assoc]; rfl, List.forall_mem_cons.2 ⟨hv, hvs⟩⟩
    · rw [← reaches.cursor]
      exact .refl _ _

theorem Terms.readable_cons (ht : t.Evaluable g apply) (hr : ts.Readable g apply) :
    (Terms.cons t ts).Readable g apply := by
  intro before p m d hs
  rw [Terms.words, List.append_assoc] at hs ⊢
  obtain ⟨b, hb, hcross, hrest⟩ := hs.split t.words
  have follows : ∃ u us, ts.more ++ [.rparen] = u :: us ∧ (u.kind = .comma ∨ u.kind = .rparen) := by
    cases ts with
    | nil => exact ⟨_, _, rfl, .inr rfl⟩
    | cons t rest => exact ⟨_, _, rfl, .inl rfl⟩
  obtain ⟨u, us, hu, huk⟩ := follows
  have kind : b.kind = u.kind := by
    have := hrest (m.moved b) rfl
    rw [hu] at this
    exact this.kind
  have value := ht.expression (m := holder m (.values before)) (hb.at_ rfl)
    (by rw [kind]; obtain h | h := huk <;> (rw [h]; decide))
    (by
      obtain h | h := huk
      · exact .inr (.inr (.inl (by rw [kind, h]; rfl)))
      · exact .inr (.inl (by rw [kind, h]; rfl)))
  have whole := (value.holding.andThen (nextArgument before)).trans hcross fun a v m' ha reaches =>
    obeys_nextArgument ha hr (hrest m' reaches.cursor)
  -- the first two words tell an argument from one with a name
  obtain ⟨w, vs, hw, hwk⟩ := t.begins_words
  have plain : Unassigned (t.words ++ (ts.more ++ [.rparen])) :=
    t.unassigned.append (ts.unassigned_more.append (.cons nofun .nil))
  obtain ⟨x, xs, hx⟩ : ∃ x xs, t.words ++ (ts.more ++ [.rparen]) = w :: x :: xs := by
    rw [hw, hu]
    cases vs with
    | nil => exact ⟨_, _, rfl⟩
    | cons x xs => exact ⟨_, _, rfl⟩
  rw [hx] at hs plain
  have named := isNamed_run hs (plain x (by simp))
  have open_ : m.thread.cursor.kind ≠ .rparen := by
    rw [hs.kind]
    intro hk
    rw [hk] at hwk
    contradiction
  refine whole.round (b := m.thread.cursor) fun fuel n => ?_
  simp only [arguments, Bind.bind, EStateM.bind, Eval.kind, if_neg open_, Quiet.run_lift, named,
    Bool.false_eq_true, if_false]
  rw [show CallArgs.values { positional := before } = before from List.append_nil before]
  rfl

/-! ### Calls -/

section Calls

variable {o : Except Halt Value} {callee : Value} {args : CallArgs} {site : Token}

theorem invokeValue_of_sync {j : Jobs} {n : Nat} (hm : m.thread.mode.inAsync = false) :
    invokeValue j n callee args site m =
      match (do own (← dispatch j n callee args site) : Eval Value) m with
      | .ok v m' => settle (.ok v) m'
      | .error (.raised r) m' => settle (.error r) m'
      | .error .suspended m' => .error .suspended m'
      | .error (.fault f) m' => .error (.fault f) m' :=
  invokeValue_of_not_replays n callee args site (by simp [Thread.replays, hm])

theorem settle_of_sync (hm : m.thread.mode.inAsync = false) (outcome : Outcome) :
    settle outcome m = resume outcome m := by
  refine (bind_of_ok (get_run m)).trans ?_
  simp only [hm, Bool.false_and, Bool.false_eq_true, if_false]

/-- Outside of coroutines no call goes on the tape. -/
theorem Lands.invoked (hm : m.thread.mode.inAsync = false)
    (h : Lands g IsValue done (fun fuel n => dispatch (jobs fuel) n callee args site) m p ws d o σ) :
    Lands g IsValue done (fun fuel n => invokeValue (jobs fuel) n callee args site) m p ws d o σ := by
  cases h with
  | value a m' hv hx mirrors reaches =>
    obtain ⟨rfl, hv⟩ := hv
    obtain ⟨enough, called⟩ := hx _ (.of_eq fun _ _ => rfl)
    refine .value (.fresh a.value) m' ⟨rfl, hv⟩ (.of_settles ⟨enough, fun fuel n hf hn => ?_⟩)
      mirrors reaches
    have kept : (do own (← dispatch (jobs fuel) n callee args site) : Eval Value) m =
        .ok a.value m' := (bind_of_ok (called fuel n hf hn)).trans (own_run hv)
    refine (invokeValue_of_sync hm).trans ?_
    rw [kept]
    exact settle_of_sync mirrors.sync _
  | raised c m' hr hx mirrors reaches within =>
    obtain ⟨enough, called⟩ := hx.stop (k := fun h _ _ => (own h : Eval Value))
    refine .raised c m' hr ⟨enough, fun fuel n hf hn => (invokeValue_of_sync hm).trans ?_⟩ mirrors
      reaches within
    rw [show (do own (← dispatch (jobs fuel) n callee args site) : Eval Value) m = _ from
      called fuel n hf hn]
    exact settle_of_sync mirrors.sync _
  | failed m' hx rooted =>
    obtain ⟨enough, called⟩ := hx.stop (k := fun h _ _ => (own h : Eval Value))
    refine .failed m' ⟨enough, fun fuel n hf hn => (invokeValue_of_sync hm).trans ?_⟩ rooted
    rw [show (do own (← dispatch (jobs fuel) n callee args site) : Eval Value) m = _ from
      called fuel n hf hn]

theorem Lands.dispatched {r : Ref .function} {f : Function} {args : CallArgs} {site : Token}
    (hf : m.world.functions.get? r = some f)
    (h : Lands g IsValue done (fun fuel n => match f.body with
      | .native native => callNative (jobs fuel) n native none args site
      | .script body =>
        if body.isAsync then spawn r none none args site
        else callScript (jobs fuel) r none none args site)
      (holder m (.values [.function r])) p ws d o σ) :
    Lands g IsValue done (fun fuel n => dispatch (jobs fuel) n (.function r) args site) m p ws d o σ := by
  have body : (m.world.functions.get r).body = f.body := by rw [Arena.get, hf]; rfl
  refine h.holding.congr (.congr fun fuel n => ?_) id
  refine pinning_congr rfl ?_
  show callFunction (jobs fuel) n r none none args site _ = _
  unfold callFunction
  rw [ask_bind]
  show (match (m.world.functions.get r).body with
    | .native native => callNative (jobs fuel) n native none args site
    | .script body =>
      if body.isAsync then spawn r none none args site
      else callScript (jobs fuel) r none none args site : Eval Held) _ = _
  rw [body]

theorem render_all {j : Jobs} {vs : List Value} (hv : ∀ v ∈ vs, v.scalar = true) (site : Token)
    (m : Machine) : (vs.mapM fun v => render j v site : Eval _) m = .ok (vs.map Value.written) m := by
  induction vs with
  | nil => rfl
  | cons v vs ih =>
    obtain ⟨hv, hvs⟩ := List.forall_mem_cons.1 hv
    rw [List.mapM_cons]
    exact (bind_of_ok (render_of_scalar hv)).trans (bind_of_ok (ih hvs))

/-- Scalars are printed as in the tree. -/
theorem showValues_run {j : Jobs} {vs : List Value} (hv : ∀ v ∈ vs, v.scalar = true) (site : Token)
    (m : Machine) : showValues j vs site m =
      .ok .null (printed m (" ".intercalate (vs.map Value.written) ++ "\n")) := by
  have parts : (holding vs (vs.mapM fun v => render j v site) : Eval _) m =
      .ok (vs.map Value.written) m := by
    simp only [holding, pinning, render_all hv]
  exact bind_of_ok parts

/-- What stands behind a name that is called: `show`, or what the name is bound to. -/
def Callable (g : Scene) (w : World) (callee : Value) : Option Binding → Prop
  | none => ∃ r, callee = .function r ∧ w.functions.get? r = some ⟨"show", .native .show⟩
  | some b => Answers g w (some callee) (some b)

/-- Calls of functions with scalars are carried out as in the tree. -/
structure Honours (g : Scene) (apply : Apply) : Prop where
  lands {m : Machine} {σ σ' : Store} {r : Ref .function} {f : Function} {d : Definition}
    {start : Position} {vs : List Value} {site : Token} {o : Except Halt Value} : Mirrors g σ m →
    m.thread.skip = 0 → m.world.functions.get? r = some f → Embodies g d start f →
    (∀ v ∈ vs, v.scalar = true) → apply d start vs site.start σ = some (o, σ') → ∀ p,
    Lands g IsValue done (fun fuel _ => callScript (jobs fuel) r none none { positional := vs } site)
      m p [] m.thread.cursor o σ'

variable {apply : Apply} {vs : List Value} {b : Option Binding}

theorem lands_call (site : Token) (hh : Honours g apply) (hc : Callable g m.world callee b)
    (hm : m.thread.skip = 0) (hmirrors : Mirrors g σ m) (hvs : ∀ v ∈ vs, v.scalar = true)
    (hrun : apply.call vs site.start b σ = some (o, σ')) :
    Lands g IsValue done
      (fun fuel n => invokeValue (jobs fuel) n callee { positional := vs } site) m p [] m.thread.cursor
      o σ' := by
  refine Lands.invoked hmirrors.sync ?_
  match b with
  | none =>
    obtain ⟨r, rfl, hf⟩ := hc
    obtain ⟨rfl, rfl⟩ := Prod.mk.inj (Option.some.inj hrun)
    refine .dispatched hf ?_
    refine .value .null _ ⟨rfl, rfl⟩ (.congr fun fuel n => showValues_run hvs site _)
      ((hmirrors.holder _).printed _) (reaches_printed g _ _)
  | some (.scalar v) =>
    obtain ⟨rfl, hv⟩ := hc
    obtain ⟨rfl, rfl⟩ := Prod.mk.inj (Option.some.inj hrun)
    have stop (j : Jobs) (n : Nat) : dispatch j n callee { positional := vs } site m =
        .error (.raised ⟨.str (Complaint.notCallable callee.kind).message, site.line, site.column⟩)
          m := by
      cases callee <;> first | rfl | contradiction
    exact .raised _ m rfl (.of_eq fun _ _ => stop _ _) hmirrors (.refl g m _) (.behind _ _ _)
  | some (.function f start) =>
    obtain ⟨r, rfl⟩ : ∃ r, callee = .function r := by
      cases callee <;> first | exact ⟨_, rfl⟩ | exact hc.elim
    obtain ⟨F, hF, he⟩ := hc
    refine .dispatched hF ?_
    rw [he.body]
    exact hh.lands (hmirrors.holder _) hm hF he hvs hrun p

/-- Behind a name that is called: the arguments, and the call. -/
theorem obeys_chain {ts : Terms} (held : Held) (hh : Honours g apply) (hr : ts.Readable g apply)
    (hskip : m.thread.skip ≠ 0 → held.value.scalar = true)
    (hc : m.thread.skip = 0 → Callable g m.world held.value b) (hk : d.kind.joins < 11)
    (hs : Before (.lparen :: (ts.words ++ [.rparen])) q m d) :
    Obeys g IsValue done (fun fuel n => chain (jobs fuel) n held) m q
      (.lparen :: (ts.words ++ [.rparen])) d
      (ts.eval apply (q.past [.lparen]) >>= fun vs => apply.call vs q b) := by
  obtain ⟨c, hc', hs'⟩ := hs.bump
  have args := (hr [] (m := holder (m.moved c) (.values [held.value])) (hs'.at_ rfl)).holding
  -- what follows the arguments: the call, and what stands behind it in the chain
  let rest (args : CallArgs) : Supplied Interrupt Held := fun fuel n => do
    if ← isSkipping then chain (jobs fuel) n held
    else chain (jobs fuel) n (← (jobs fuel).invoke held.value args (Word.lparen.token q))
  -- behind the bracket no link of the chain follows
  have stops {held : Held} {m' : Machine} (hm : m'.thread.cursor = d) :
      Settles (fun fuel n => chain (jobs fuel) n held) m' (.ok held m') := by
    refine .round (y := done held) (.of_eq fun _ _ => rfl) fun _ _ => chain_stops ?_
    rwa [hm]
  have whole := (args.andThen rest).trans_nil (S := IsValue) (l := done)
    (f := fun vs => apply.call vs q b) fun a vs m' ha reaches => ?_
  · refine (whole.prepend [.lparen]).round fun fuel n => ?_
    have open_ : m.thread.cursor.kind = .lparen := hs.kind
    simp only [chain, Bind.bind, EStateM.bind, kind, open_]
    simp only [Quiet.run_lift, hc']
    rfl
  · obtain ⟨rfl, hvs⟩ := ha
    rw [List.nil_append]
    by_cases hm : m'.thread.skip = 0
    · refine ⟨fun h => absurd hm h, fun _ σ₁ σ₂ o hmirrors hrun => ?_⟩
      -- what was callable before the arguments is callable behind them
      have callable : Callable g m'.world held.value b := by
        have here := hc (reaches.skip.symm.trans hm)
        cases b with
        | none =>
          obtain ⟨r, hv, hf⟩ := here
          exact ⟨r, hv, reaches.functions r _ hf⟩
        | some _ => exact here.keeps reaches.functions
      have called := lands_call (Word.lparen.token q) hh callable hm hmirrors hvs hrun
        (p := (q.past [.lparen]).past (ts.words ++ [.rparen]))
      have job := called.congr (x := fun fuel _ =>
        (jobs fuel).invoke held.value { positional := vs } (Word.lparen.token q))
        (fun _ hr => hr.job fun _ _ => rfl) id
      rw [reaches.cursor] at job
      refine ((job.andThen fun h fuel n => chain (jobs fuel) n h).close fun _ _ hr =>
        stops hr.cursor).congr (.congr fun fuel n => ?_) id
      show (if m'.thread.skip != 0 then _ else _ : Eval Held) m' = _
      rw [hm]
      rfl
    · -- while nothing has an effect the arguments are passed over and nothing is called
      refine ⟨fun _ => ⟨held, _, ⟨rfl, hskip fun h => hm (reaches.skip.trans h)⟩, ?_⟩,
        fun h => absurd h hm⟩
      rw [← reaches.cursor]
      refine .trans (.congr fun fuel n => ?_) (.of_settles (stops reaches.cursor))
      show (if m'.thread.skip != 0 then chain (jobs fuel) n held else _ : Eval Held) m' = _
      rw [show (m'.thread.skip != 0) = true from bne_iff_ne.2 hm]
      rfl

/-- What is called is found where the name stands, before the arguments are evaluated. -/
theorem lands_callee {f : Callee} {k : Held → Supplied Interrupt Held} {x : Supplied Interrupt Held}
    {rest : Option Binding → Course Value} {m : Machine} (hk : m.thread.cursor.kind = .lparen)
    (hx : ∀ fuel n, x fuel n m = (do k (← name ((Word.name f.name).token p)) fuel n : Eval Held) m)
    (hmirrors : Mirrors g σ m) (hrun : (f.find p >>= rest) σ = some (o, σ'))
    (hw : m.thread.cursor.Crosses (row q ws) d)
    (hl : ∀ held b m', Mirrors g σ m' → Reaches g m m.thread.cursor m' →
      Callable g m'.world held.value b → rest b σ = some (o, σ') →
      Lands g IsValue done (k held) m' q ws d o σ') :
    Lands g IsValue done x m q ws d o σ' := by
  rw [Course.run_bind] at hrun
  cases f with
  | display =>
    -- each mention of a built-in function makes one of its own
    have made : (name ((Word.name showing).token p) : Eval _) m =
        .ok (.fresh (.function m.world.functions.next)) (enlarged m ⟨"show", .native .show⟩) := by
      have builtin : Native.builtin? ((Word.name showing).token p).text = some .show :=
        (by decide : Native.builtin? (Word.name showing).spelling = some .show)
      simp only [name, Bind.bind, EStateM.bind, kind, if_pos hk, builtin]
      rfl
    refine (hl _ none (enlarged m ⟨"show", .native .show⟩) (hmirrors.enlarged _)
      (reaches_enlarged g m _) ⟨_, rfl, Arena.get?_push_next _ _⟩ hrun).congr
      (.congr fun fuel n => (hx fuel n).trans (bind_of_ok made)) (reaches_enlarged g m _).trans
  | function y hy =>
    obtain ⟨found, hl', ha⟩ := hmirrors.lookup y.text
    have looked := name_run (t := (Word.name y).token p) hl' (.inr hy)
    rw [Callee.find, Course.run_get] at hrun
    cases hf : σ.find y.text with
    | none =>
      rw [hf] at hrun ha
      obtain rfl := ha.none_iff
      obtain ⟨rfl, rfl⟩ := Prod.mk.inj (Option.some.inj hrun)
      exact .raised m.thread.cursor m rfl ((Settles.stop_of_eq looked).congr hx) hmirrors
        (.refl g m _) (.here hw)
    | some b =>
      rw [hf] at hrun ha
      obtain ⟨v, rfl, hv⟩ := ha.some_iff
      exact (hl (.view v) (some b) m hmirrors (.refl g m _) hv hrun).congr
        (.congr fun fuel n => (hx fuel n).trans (bind_of_ok looked)) id

/-- A call: what is called, the arguments, and the call itself. -/
theorem evaluates_call {ts : Terms} (f : Callee) (hh : Honours g apply) (hr : ts.Readable g apply) :
    Evaluates g 11 (Term.call f ts).words ((Term.call f ts).eval apply) where
  obeys {p m d} hs hk _ := by
    obtain ⟨b, hb, hs'⟩ := hs.bump
    have open_ : (m.moved b).thread.cursor.kind = .lparen := hs'.kind
    let onward (held : Held) : Supplied Interrupt Held := fun fuel n => chain (jobs fuel) n held
    have step (fuel n : Nat) : level 11 fuel n m = (do
        onward (← unlessSkipping (name ((Word.name f.name).token p))) fuel n : Eval Held)
          (m.moved b) := by
      show atLevel 11 (jobs fuel) n m = _
      simp only [atLevel, primary_eq, bind_assoc]
      exact bind_of_ok (lift_of_ok hb)
    refine Obeys.prepend [.name f.name] (Obeys.congr (b := b) ?_ (.congr step))
    refine ⟨fun hm => ?_, fun hm σ σ' o hmirrors hrun => ?_⟩
    · obtain ⟨a, v, hv, hx⟩ := (obeys_chain .null (b := none) hh hr (fun _ => rfl)
        (fun h => absurd h hm) hk hs').passes hm
      refine ⟨a, v, hv, .trans (.congr fun fuel n => bind_of_ok ?_) hx⟩
      show (if (m.moved b).thread.skip != 0 then pure Held.null else _ : Eval Held) _ = _
      rw [show ((m.moved b).thread.skip != 0) = true from bne_iff_ne.2 hm]
      rfl
    · refine lands_callee open_ (k := onward) (fun fuel n => ?_) hmirrors hrun hs'.crosses
        fun held b' m' hm' hreach hc hrun' => ?_
      · show EStateM.bind (unlessSkipping (name _)) _ _ = EStateM.bind (name _) _ _
        have awake : (unlessSkipping (name ((Word.name f.name).token p)) : Eval _) (m.moved b) =
            name ((Word.name f.name).token p) (m.moved b) := by
          show (if (m.moved b).thread.skip != 0 then _ else _ : Eval Held) _ = _
          rw [show (m.moved b).thread.skip = 0 from hm]
          rfl
        simp only [EStateM.bind, awake]
      · exact (obeys_chain held hh hr (fun h => absurd (hreach.skip.trans hm) h) (fun _ => hc) hk
          (hs'.at_ hreach.cursor)).lands (hreach.skip.trans hm) hm' hrun'

end Calls

/-! ### Every expression -/

namespace Term

variable {apply : Apply} {t a c b : Term}

/-- The right operand of `is` does not begin with `not`. -/
theorem begins_behind_is (b : Term) :
    ∃ w vs, Rewind.enclosed (Operator.is.encloses b.level b.words) b.words = w :: vs ∧
      w.kind ≠ .kwNot := by
  cases hb : Operator.is.encloses b.level b.words with
  | true => exact ⟨.lparen, _, rfl, by decide⟩
  | false =>
    obtain ⟨w, vs, hw, -⟩ := b.begins_words
    have := (Bool.or_eq_false_iff.1 hb).2
    exact ⟨w, vs, hw, by simpa [hw] using this⟩

theorem evaluable_of_level (h : Sits g t.level t.words (t.eval apply)) : t.Evaluable g apply :=
  fun ℓ h₁ hℓ => h.looser t.level_bounds.2 t.words_ne_nil (fun ht => by
    have := t.begins_words
    rwa [show decide (t.level < 10) = false from decide_eq_false (by omega)] at this)
    t.balanced_words.2 h₁ hℓ

/-- With the parentheses that a place asks for an expression is evaluated there. -/
theorem Evaluable.enclosed (h : t.Evaluable g apply) {b : Bool} (h₁ : 1 ≤ ℓ) (h₁₁ : ℓ ≤ 11)
    (hb : b = false → ℓ ≤ t.level) :
    Sits g ℓ (enclosed b t.words) fun p => t.eval apply (inside b p) := by
  cases b with
  | false => exact h ℓ h₁ (hb rfl)
  | true =>
    have paren := evaluates_paren (h 1 (Nat.le_refl 1) t.level_bounds.1).evaluates t.begins_words
    exact (paren.sits (by decide)).looser (by decide) (by simp [Rewind.enclosed])
      (fun _ => begins_enclosed nofun) (fun _ => balanced_enclosed (t.balanced_words.1 0) nofun)
      h₁ h₁₁

theorem le_of_not_enclosed {ℓ : Nat} (h : decide (t.level < ℓ) = false) : ℓ ≤ t.level :=
  Nat.le_of_not_lt (decide_eq_false_iff_not.1 h)

theorem evaluable_binary {op : Operator} (hop : op ≠ .caret) (ha : a.Evaluable g apply)
    (hb : b.Evaluable g apply) : (binary op a b).Evaluable g apply := by
  obtain ⟨h₁, h₂⟩ : 2 ≤ op.level ∧ op.level ≤ 8 := by
    cases op <;> first | decide | contradiction
  have hleft : op.left = op.level := by cases op <;> first | rfl | contradiction
  have hright : op.right = op.level + 1 := by cases op <;> first | rfl | contradiction
  have first := ha.enclosed (b := decide (a.level < op.left)) (ℓ := op.level) (by omega) (by omega)
    fun h => by
      rw [decide_eq_false_iff_not] at h
      omega
  have second := hb.enclosed (b := op.encloses b.level b.words) (ℓ := op.level + 1) (by omega)
    (by omega) fun h => by
      have := (Bool.or_eq_false_iff.1 h).1
      rw [decide_eq_false_iff_not] at this
      omega
  have opens : Opens g op.level (binary op a b).words ((binary op a b).eval apply) :=
    opens_operator hop (first.opens h₁ h₂) second.evaluates fun his => by
      subst his
      exact b.begins_behind_is
  exact evaluable_of_level ⟨opens.works h₁ h₂, fun _ _ => opens⟩

theorem evaluable_caret (ha : a.Evaluable g apply) (hb : b.Evaluable g apply) :
    (binary .caret a b).Evaluable g apply := by
  have first := (ha.enclosed (ℓ := 11) (by decide) (by decide) le_of_not_enclosed).evaluates
  have second := (hb.enclosed (b := Operator.caret.encloses b.level b.words) (ℓ := 9) (by decide)
    (by decide) fun h => le_of_not_enclosed (Bool.or_eq_false_iff.1 h).1).evaluates
  exact evaluable_of_level ((evaluates_power first second).sits (show 9 ≤ 10 by decide))

theorem evaluable_conditional (ha : a.Evaluable g apply) (hc : c.Evaluable g apply)
    (hb : b.Evaluable g apply) : (conditional a c b).Evaluable g apply := by
  have first := (ha.enclosed (ℓ := 2) (by decide) (by decide) le_of_not_enclosed).evaluates
  have second := (hc.enclosed (ℓ := 2) (by decide) (by decide) le_of_not_enclosed).evaluates
  have third := (hb 1 (Nat.le_refl 1) b.level_bounds.1).evaluates
  have balanced : Balanced 0 (Rewind.enclosed (a.level < 2) a.words) :=
    balanced_enclosed (a.balanced_words.1 0) fun h => a.balanced_words.2 (le_of_not_enclosed h)
  have begins : Begins true (Rewind.enclosed (a.level < 2) a.words) :=
    begins_enclosed fun _ => a.begins_words.signed
  obtain ⟨w, us, hus, -⟩ := begins
  refine evaluable_of_level ⟨?_, fun h₂ => absurd h₂ (by decide : ¬ 2 ≤ 1)⟩
  rw [hus] at first balanced
  have := evaluates_conditional first balanced second third
  rw [← hus] at this
  exact this

end Term

mutual

/-- Every expression is evaluated as its tree, at every level that asks for no parentheses. -/
theorem Term.evaluable {apply : Apply} (hh : Honours g apply) (t : Term) : t.Evaluable g apply := by
  cases t with
  | literal l => exact Term.evaluable_of_level ((evaluates_literal l).sits (by decide))
  | name x => exact Term.evaluable_of_level ((evaluates_name apply x).sits (by decide))
  | paren t =>
    refine Term.evaluable_of_level (Evaluates.sits ?_ (by simp [Term.level]))
    exact evaluates_paren (t.evaluable hh 1 (Nat.le_refl 1) t.level_bounds.1).evaluates t.begins_words
  | not t =>
    refine Term.evaluable_of_level (Evaluates.sits ?_ (by simp [Term.level]))
    exact evaluates_not
      ((t.evaluable hh).enclosed (by decide) (by decide) Term.le_of_not_enclosed).evaluates
  | negative t =>
    refine Term.evaluable_of_level (Evaluates.sits ?_ (by simp [Term.level]))
    exact evaluates_negative
      ((t.evaluable hh).enclosed (by decide) (by decide) Term.le_of_not_enclosed).evaluates
  | binary op a b =>
    by_cases hop : op = .caret
    · exact hop ▸ Term.evaluable_caret (a.evaluable hh) (b.evaluable hh)
    · exact Term.evaluable_binary hop (a.evaluable hh) (b.evaluable hh)
  | conditional a c b =>
    exact Term.evaluable_conditional (a.evaluable hh) (c.evaluable hh) (b.evaluable hh)
  | call f args =>
    exact Term.evaluable_of_level ((evaluates_call f hh (args.readable hh)).sits (by decide))

theorem Terms.readable {apply : Apply} (hh : Honours g apply) (ts : Terms) :
    ts.Readable g apply := by
  cases ts with
  | nil => exact Terms.readable_nil
  | cons t rest => exact Terms.readable_cons (t.evaluable hh) (rest.readable hh)

end

end Rewind.Tree
