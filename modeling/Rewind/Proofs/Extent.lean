/-
How far an expression goes.

An expression that is skipped looks up nothing and calls nothing, but it is to pass the tokens that
its evaluation passes.  Level by level it does: wherever evaluation ends, a skipping run from the same
token ends as well.  Only the conditional is told by different signs.  Evaluation looks for its `if`
no farther than the end of the line, and a skipping run takes any `if` for it that stands behind the
first part.  So the two part exactly where an expression is evaluated up to an `if`.

* `Shadows`, `Follows` — a skipping machine stands where another does, and goes where it goes;
* `follows_primary`, …, `follows_conditional` — the levels of an expression;
* `skipped_iff` — it ends where evaluation does exactly if that is not on an `if`.
-/
import Rewind.Proofs.Walk
import Rewind.Proofs.Resumption

namespace Rewind

open Eval

/-- The skipping machine `s` stands where `m` does, and may wait if `m` may. -/
structure Shadows (m s : Machine) : Prop where
  skips : s.thread.skip ≠ 0
  sound : m.thread.cursor.Sound
  place : m.thread.cursor.Meets s.thread.cursor
  async : s.thread.mode.inAsync = m.thread.mode.inAsync

theorem Shadows.unmoved {m m' s : Machine} (hs : Shadows m s) (h : Unmoved true m m') :
    Shadows m' s :=
  ⟨hs.skips, h.cursor ▸ hs.sound, h.cursor ▸ hs.place,
    hs.async.trans (congrArg Mode.inAsync h.mode).symm⟩

/-- Wherever `x` gets to, if it is a place as `E` says, there `y` gets to in a skipping machine, which
stays as it is but for its cursor; and what they give are as `R` says. -/
def Follows (E : Cursor → Prop) {α β : Type} (R : α → β → Prop) (x : Eval α) (y : Eval β) : Prop :=
  ∀ (m s m' : Machine) (a : α), Shadows m s → x m = .ok a m' → E m'.thread.cursor →
    ∃ b c, y s = .ok b (s.moved c) ∧ Shadows m' (s.moved c) ∧ R a b

/-- The cursor may stand anywhere. -/
def Anywhere : Cursor → Prop := fun _ => True

/-- The cursor does not stand on an `if`. -/
def OffIf : Cursor → Prop := fun c => c.kind ≠ .kwIf

/-- The values do not matter. -/
def Whatever {α β : Type} : α → β → Prop := fun _ _ => True

variable {α β γ δ : Type} {E : Cursor → Prop} {R : α → β → Prop} {S : γ → δ → Prop}

namespace Follows

theorem pure {a : α} {b : β} (h : R a b) :
    Follows E R (Pure.pure a : Eval α) (Pure.pure b : Eval β) := by
  intro m s m' a' hs hr _
  obtain ⟨rfl, rfl⟩ := EStateM.Result.ok.inj hr
  exact ⟨b, s.thread.cursor, rfl, hs, h⟩

theorem anywhere {x : Eval α} {y : Eval β} (h : Follows Anywhere R x y) : Follows E R x y :=
  fun m s m' a hs hr _ => h m s m' a hs hr trivial

theorem mono {R' : α → β → Prop} {x : Eval α} {y : Eval β} (h : Follows E R x y)
    (hR : ∀ a b, R a b → R' a b) : Follows E R' x y := by
  intro m s m' a hs hr hE
  obtain ⟨b, c, hy, hs', hab⟩ := h m s m' a hs hr hE
  exact ⟨b, c, hy, hs', hR a b hab⟩

/-- One step after another; where the first one ends may be known from the second one. -/
theorem bind_of {E' : Cursor → Prop} {x : Eval α} {y : Eval β} {f : α → Eval γ} {g : β → Eval δ}
    (hx : Follows E' R x y) (hf : ∀ a b, R a b → Follows E S (f a) (g b))
    (hE : ∀ {a m v m'}, f a m = .ok v m' → E m'.thread.cursor → E' m.thread.cursor) :
    Follows E S (x >>= f) (y >>= g) := by
  intro m s m' v hs hr hE'
  obtain ⟨a, m₁, hxm, hfm⟩ := ok_of_bind hr
  obtain ⟨b, c, hy, hs₁, hab⟩ := hx _ _ _ _ hs hxm (hE hfm hE')
  obtain ⟨w, d, hg, hs', hvw⟩ := hf a b hab _ _ _ _ hs₁ hfm hE'
  exact ⟨w, d, (bind_of_ok hy).trans hg, hs', hvw⟩

theorem bind {x : Eval α} {y : Eval β} {f : α → Eval γ} {g : β → Eval δ}
    (hx : Follows Anywhere R x y) (hf : ∀ a b, R a b → Follows E S (f a) (g b)) :
    Follows E S (x >>= f) (y >>= g) :=
  hx.bind_of hf fun _ _ => trivial

/-- What leaves the cursor in place need not be done while skipping. -/
theorem still_bind {x : Eval α} {f : α → Eval γ} {y : Eval δ} (hx : Still true x)
    (hf : ∀ a, Follows E S (f a) y) : Follows E S (x >>= f) y := by
  intro m s m' v hs hr hE
  obtain ⟨a, m₁, hxm, hfm⟩ := ok_of_bind hr
  have h := hx m
  rw [hxm] at h
  exact hf a _ _ _ _ (hs.unmoved h) hfm hE

/-- The same at the end. -/
theorem still {x : Eval α} (hx : Still true x) {b : β} (hR : ∀ a, R a b) :
    Follows E R x (Pure.pure b : Eval β) := by
  intro m s m' a hs hr hE
  have h := hx m
  rw [hr] at h
  exact ⟨b, s.thread.cursor, rfl, hs.unmoved h, hR a⟩

/-- A look at the machine while skipping. -/
theorem ask_bind {x : Eval γ} {f : World → α} {g : α → Eval δ}
    (h : ∀ a, Follows E S x (g a)) : Follows E S x (ask f >>= g) :=
  fun m s m' v hs hr hE => h (f s.world) m s m' v hs hr hE

/-- A skipping machine knows that it is. -/
theorem isSkipping_bind {x : Eval γ} {g : Bool → Eval δ} (h : Follows E S x (g true)) :
    Follows E S x (isSkipping >>= g) := by
  intro m s m' v hs hr hE
  have hg : (isSkipping : Eval Bool) s = .ok true s := by
    simp [isSkipping, hs.skips]
  rw [bind_of_ok hg]
  exact h m s m' v hs hr hE

theorem ite_left {p : Prop} [Decidable p] {x x' : Eval α} {y : Eval β} (h : p → Follows E R x y)
    (h' : ¬ p → Follows E R x' y) : Follows E R (if p then x else x') y := by
  split
  · exact h ‹_›
  · exact h' ‹_›

theorem pure_behind {x : Eval γ} {y : Eval δ} (h : Follows E Whatever x y) {a : α} :
    Follows E Whatever (x >>= fun _ => Pure.pure a) y := by
  intro m s m' v hs hr hE
  obtain ⟨w, m₁, hx, hv⟩ := ok_of_bind hr
  obtain ⟨rfl, rfl⟩ := EStateM.Result.ok.inj hv
  obtain ⟨b, c, hy, hs', -⟩ := h m s _ w hs hx hE
  exact ⟨b, c, hy, hs', trivial⟩

/-- Whatever `m` does, `s` does what is done while skipping. -/
theorem ifSkipping {x x' : Eval γ} {y y' : Eval δ} (h : Follows E S x y) (h' : Follows E S x' y) :
    Follows E S (do if ← isSkipping then x else x') (do if ← isSkipping then y else y') := by
  refine .isSkipping_bind (.still_bind still_isSkipping fun b => ?_)
  cases b with
  | true => exact h
  | false => exact h'

/-- A skipping machine may wait if the machine it follows may. -/
theorem mode_bind {f : Mode → Eval γ} {g : Mode → Eval δ}
    (h : ∀ a b : Mode, b.inAsync = a.inAsync → Follows E S (f a) (g b)) :
    Follows E S (mode >>= f) (mode >>= g) :=
  fun m s m' v hs hr hE => h m.thread.mode s.thread.mode hs.async m s m' v hs hr hE

/-- What is given at last may be something else. -/
theorem then_pure {R' : α → γ → Prop} {x : Eval α} {y : Eval β} (h : Follows E R x y) {c : γ}
    (hc : ∀ a, R' a c) : Follows E R' x (y >>= fun _ => Pure.pure c) := by
  intro m s m' a hs hr hE
  obtain ⟨b, d, hy, hs', -⟩ := h m s m' a hs hr hE
  exact ⟨c, d, bind_of_ok hy, hs', hc a⟩

theorem ite {p : Prop} [Decidable p] {x x' : Eval α} {y y' : Eval β} (h : p → Follows E R x y)
    (h' : ¬ p → Follows E R x' y') : Follows E R (if p then x else x') (if p then y else y') := by
  split
  · exact h ‹_›
  · exact h' ‹_›

/-- An evaluation that does not come to its end. -/
theorem of_error {x : Eval α} {y : Eval β} (h : ∀ m a m', x m ≠ .ok a m') : Follows E R x y :=
  fun _ _ _ _ _ hr _ => absurd hr (h _ _ _)

theorem lift {x : Run α} {y : Run β}
    (h : ∀ (m s m' : Machine) (a : α), Shadows m s → x m = .ok a m' → E m'.thread.cursor →
      ∃ b c, y s = .ok b (s.moved c) ∧ Shadows m' (s.moved c) ∧ R a b) :
    Follows E R (liftM x : Eval α) (liftM y : Eval β) := by
  intro m s m' a hs hr hE
  rw [Quiet.run_lift] at hr
  cases hx : x m with
  | error f m₁ => rw [hx] at hr; contradiction
  | ok a₁ m₁ =>
    rw [hx] at hr
    obtain ⟨rfl, rfl⟩ := EStateM.Result.ok.inj hr
    obtain ⟨b, c, hy, h⟩ := h m s _ _ hs hx hE
    exact ⟨b, c, by rw [Quiet.run_lift, hy], h⟩

end Follows

namespace Eval

/-! ### Moves -/

/-- A move that depends on nothing but the token stood on, and gives that token. -/
theorem follows_passing {f : Cursor → Except Failure Cursor}
    (hf : ∀ {c d}, Cursor.Meets c d → f d = f c)
    (hs : ∀ {c d : Cursor}, c.Sound → f c = .ok d → d.Sound) :
    Follows E (· = ·) (liftM (do let passed ← current; move f; return passed : Run Token))
      (liftM (do let passed ← current; move f; return passed : Run Token)) := by
  refine Follows.lift fun m s m' a h hr _ => ?_
  simp only [bind, EStateM.bind, current, move] at hr ⊢
  rw [hf h.place]
  cases hc : f m.thread.cursor with
  | error failure => rw [hc] at hr; contradiction
  | ok c =>
    rw [hc] at hr
    obtain ⟨rfl, rfl⟩ := EStateM.Result.ok.inj hr
    exact ⟨_, c, rfl, ⟨h.skips, hs h.sound hc, .refl c, h.async⟩, h.place.current.symm⟩

theorem follows_bump : Follows E (· = ·) (liftM bump : Eval Token) (liftM bump : Eval Token) :=
  follows_passing Cursor.Meets.bump fun hc h => (Cursor.sound_bump hc h).1

theorem follows_advance (k : TokenKind) :
    Follows E (· = ·) (liftM (advance k) : Eval Token) (liftM (advance k) : Eval Token) :=
  follows_passing (fun h => h.advance k) fun hc h => (Cursor.sound_advance hc h).1

theorem follows_kind :
    Follows E (· = ·) (kind : Eval TokenKind) (kind : Eval TokenKind) := by
  intro m s m' a hs hr _
  obtain ⟨rfl, rfl⟩ := EStateM.Result.ok.inj hr
  exact ⟨_, s.thread.cursor, rfl, hs, hs.place.kind.symm⟩

theorem follows_current : Follows E (· = ·) (current : Eval Token) (current : Eval Token) := by
  intro m s m' a hs hr _
  obtain ⟨rfl, rfl⟩ := EStateM.Result.ok.inj hr
  exact ⟨_, s.thread.cursor, rfl, hs, hs.place.current.symm⟩

/-- What follows a look at the kind of the token. -/
theorem follows_kind_bind {f : TokenKind → Eval γ} {g : TokenKind → Eval δ}
    (h : ∀ k, Follows E S (f k) (g k)) : Follows E S (kind >>= f) (kind >>= g) :=
  .bind follows_kind fun a _ hab => hab ▸ h a

theorem follows_bump_bind {f : Token → Eval γ} {g : Token → Eval δ}
    (h : ∀ t, Follows E S (f t) (g t)) :
    Follows E S ((liftM bump : Eval Token) >>= f) ((liftM bump : Eval Token) >>= g) :=
  .bind follows_bump fun a _ hab => hab ▸ h a

theorem follows_advance_bind (k : TokenKind) {f : Token → Eval γ} {g : Token → Eval δ}
    (h : ∀ t, Follows E S (f t) (g t)) :
    Follows E S ((liftM (advance k) : Eval Token) >>= f) ((liftM (advance k) : Eval Token) >>= g) :=
  .bind (follows_advance k) fun a _ hab => hab ▸ h a

theorem skipOver_run (k : TokenKind) (m : Machine) :
    skipOver k m = if m.thread.cursor.kind = k then
      match m.thread.cursor.bump with
      | .ok c => .ok true (m.moved c)
      | .error failure => .error (.failure failure) m
    else .ok false m := by
  show (if m.thread.cursor.kind = k then (do let _ ← bump; return true) else return false
    : Run Bool) m = _
  split
  · simp only [bump, bind, EStateM.bind, current, move]
    cases m.thread.cursor.bump <;> rfl
  · rfl

/-- What is not passed over is not of the kind. -/
theorem stays_of_skipOver {k : TokenKind} {m m' : Machine}
    (h : (liftM (skipOver k) : Eval Bool) m = .ok false m') :
    m.thread.cursor.kind ≠ k ∧ m' = m := by
  rw [Quiet.run_lift, skipOver_run] at h
  by_cases hk : m.thread.cursor.kind = k
  · rw [if_pos hk] at h
    cases hb : m.thread.cursor.bump <;> rw [hb] at h <;> nomatch h
  · rw [if_neg hk] at h
    exact ⟨hk, (EStateM.Result.ok.inj h).2.symm⟩

theorem follows_skipOver (k : TokenKind) :
    Follows E (· = ·) (liftM (skipOver k) : Eval Bool) (liftM (skipOver k) : Eval Bool) := by
  refine Follows.lift fun m s m' a hs hr _ => ?_
  rw [skipOver_run] at hr ⊢
  rw [hs.place.kind, hs.place.bump]
  split at hr
  · rename_i hk
    rw [if_pos hk]
    cases hc : m.thread.cursor.bump with
    | error failure => rw [hc] at hr; contradiction
    | ok c =>
      rw [hc] at hr
      obtain ⟨rfl, rfl⟩ := EStateM.Result.ok.inj hr
      exact ⟨true, c, rfl, ⟨hs.skips, (Cursor.sound_bump hs.sound hc).1, .refl c, hs.async⟩, rfl⟩
  · rename_i hk
    rw [if_neg hk]
    obtain ⟨rfl, rfl⟩ := EStateM.Result.ok.inj hr
    exact ⟨false, s.thread.cursor, rfl, hs, rfl⟩

theorem follows_skipOver_bind (k : TokenKind) {f : Bool → Eval γ} {g : Bool → Eval δ}
    (h : ∀ b, Follows E S (f b) (g b)) :
    Follows E S ((liftM (skipOver k) : Eval Bool) >>= f) ((liftM (skipOver k) : Eval Bool) >>= g) :=
  .bind (follows_skipOver k) fun a _ hab => hab ▸ h a

theorem kind_of_advance {k : TokenKind} {m m' : Machine} {t : Token}
    (h : (liftM (advance k) : Eval Token) m = .ok t m') : m.thread.cursor.kind = k := by
  rw [Quiet.run_lift] at h
  simp only [advance, bind, EStateM.bind, current, move, Cursor.advance] at h
  by_contra hk
  rw [if_neg hk] at h
  contradiction

theorem token_of_bump {m m' : Machine} {t : Token}
    (h : (liftM bump : Eval Token) m = .ok t m') : t = m.thread.cursor.current := by
  rw [Quiet.run_lift] at h
  simp only [bump, bind, EStateM.bind, current, move] at h
  cases hc : m.thread.cursor.bump with
  | error failure =>
    rw [hc] at h
    cases h
  | ok c =>
    rw [hc] at h
    exact (EStateM.Result.ok.inj h).1.symm

theorem follows_holding (vs ws : List Value) {x : Eval α} {y : Eval β} (h : Follows E R x y) :
    Follows E R (holding vs x) (holding ws y) := by
  intro m s m' a hs hr hE
  simp only [holding, pinning] at hr ⊢
  cases hx : x { m with pinned := .values vs :: m.pinned } with
  | error e m₁ => rw [hx] at hr; contradiction
  | ok a₁ m₁ =>
    rw [hx] at hr
    obtain ⟨rfl, rfl⟩ := EStateM.Result.ok.inj hr
    have within : Shadows { m with pinned := .values vs :: m.pinned }
        { s with pinned := .values ws :: s.pinned } := ⟨hs.skips, hs.sound, hs.place, hs.async⟩
    obtain ⟨b, c, hy, hs', hab⟩ := h _ _ _ _ within hx hE
    exact ⟨b, c, by rw [hy]; rfl, ⟨hs'.skips, hs'.sound, hs'.place, hs'.async⟩, hab⟩

theorem follows_skipping {x : Eval α} {y : Eval β} (h : Follows E R x y) :
    Follows E R (skipping x) (skipping y) := by
  intro m s m' a hs hr hE
  simp only [skipping] at hr ⊢
  cases hx : x { m with thread := { m.thread with skip := m.thread.skip + 1 } } with
  | error e m₁ => rw [hx] at hr; contradiction
  | ok a₁ m₁ =>
    rw [hx] at hr
    obtain ⟨rfl, rfl⟩ := EStateM.Result.ok.inj hr
    have within : Shadows { m with thread := { m.thread with skip := m.thread.skip + 1 } }
        { s with thread := { s.thread with skip := s.thread.skip + 1 } } :=
      ⟨Nat.succ_ne_zero _, hs.sound, hs.place, hs.async⟩
    obtain ⟨b, c, hy, hs', hab⟩ := h _ _ _ _ within hx hE
    exact ⟨b, c, by rw [hy]; rfl, ⟨hs.skips, hs'.sound, hs'.place, hs'.async⟩, hab⟩

/-- What evaluation passes over may be passed as it is. -/
theorem follows_of_skipping {x : Eval α} {y : Eval β} (h : Follows E R x y) :
    Follows E R (skipping x) y := by
  intro m s m' a hs hr hE
  simp only [skipping] at hr
  cases hx : x { m with thread := { m.thread with skip := m.thread.skip + 1 } } with
  | error e m₁ => rw [hx] at hr; contradiction
  | ok a₁ m₁ =>
    rw [hx] at hr
    obtain ⟨rfl, rfl⟩ := EStateM.Result.ok.inj hr
    have within : Shadows { m with thread := { m.thread with skip := m.thread.skip + 1 } } s :=
      ⟨hs.skips, hs.sound, hs.place, hs.async⟩
    obtain ⟨b, c, hy, hs', hab⟩ := h _ _ _ _ within hx hE
    exact ⟨b, c, hy, ⟨hs'.skips, hs'.sound, hs'.place, hs'.async⟩, hab⟩

/-- A value is not made while skipping. -/
theorem follows_unlessSkipping {x : Eval Held} (hx : Still true x) (y : Eval Held) :
    Follows E Whatever (unlessSkipping x) (unlessSkipping y) :=
  .isSkipping_bind (.still (.bind still_isSkipping fun _ => .ite (.pure _) hx) fun _ => trivial)

/-- What is evaluated may be passed over. -/
theorem follows_into_skipping {x : Eval α} {y : Eval β} (h : Follows E R x y) :
    Follows E R x (skipping y) := by
  intro m s m' a hs hr hE
  have within : Shadows m { s with thread := { s.thread with skip := s.thread.skip + 1 } } :=
    ⟨Nat.succ_ne_zero _, hs.sound, hs.place, hs.async⟩
  obtain ⟨b, c, hy, hs', hab⟩ := h _ _ _ _ within hr hE
  exact ⟨b, c, by simp only [skipping, hy]; rfl, ⟨hs.skips, hs'.sound, hs'.place, hs'.async⟩, hab⟩

theorem follows_of_holding (vs : List Value) {x : Eval α} {y : Eval β} (h : Follows E R x y) :
    Follows E R (holding vs x) y := by
  intro m s m' a hs hr hE
  simp only [holding, pinning] at hr
  cases hx : x { m with pinned := .values vs :: m.pinned } with
  | error e m₁ => rw [hx] at hr; contradiction
  | ok a₁ m₁ =>
    rw [hx] at hr
    obtain ⟨rfl, rfl⟩ := EStateM.Result.ok.inj hr
    have within : Shadows { m with pinned := .values vs :: m.pinned } s :=
      ⟨hs.skips, hs.sound, hs.place, hs.async⟩
    obtain ⟨b, c, hy, hs', hab⟩ := h _ _ _ _ within hx hE
    exact ⟨b, c, hy, ⟨hs'.skips, hs'.sound, hs'.place, hs'.async⟩, hab⟩

theorem isNamed_run (m : Machine) : arguments.isNamed m =
    if m.thread.cursor.kind ≠ .ident then .ok false m else
      match m.thread.cursor.peek with
      | .ok next => .ok (next.kind == .assign) m
      | .error failure => .error (.failure failure) m := by
  show (if m.thread.cursor.kind ≠ .ident then Pure.pure false else _ : Run Bool) m = _
  split
  · rfl
  · show (match m.thread.cursor.peek with
      | .ok next => Pure.pure (next.kind == .assign)
      | .error failure => fail failure : Run Bool) m = _
    cases m.thread.cursor.peek <;> rfl

theorem follows_isNamed :
    Follows E (· = ·) (liftM arguments.isNamed : Eval Bool) (liftM arguments.isNamed) := by
  refine Follows.lift fun m s m' a hs hr _ => ?_
  rw [isNamed_run] at hr ⊢
  rw [hs.place.kind, hs.place.peek]
  split at hr
  · rename_i hk
    rw [if_pos hk]
    obtain ⟨rfl, rfl⟩ := EStateM.Result.ok.inj hr
    exact ⟨false, s.thread.cursor, rfl, hs, rfl⟩
  · rename_i hk
    rw [if_neg hk]
    cases hp : m.thread.cursor.peek with
    | error failure => rw [hp] at hr; contradiction
    | ok next =>
      rw [hp] at hr
      obtain ⟨rfl, rfl⟩ := EStateM.Result.ok.inj hr
      exact ⟨_, s.thread.cursor, rfl, hs, rfl⟩

theorem lift_bind (x : Run α) (f : α → Run β) :
    (liftM (x >>= f) : Eval β) = (liftM x : Eval α) >>= fun a => liftM (f a) := by
  funext m
  simp only [bind, EStateM.bind, Quiet.run_lift]
  cases x m <;> rfl

theorem finish_eq (args : CallArgs) : (liftM (arguments.finish args) : Eval CallArgs) =
    (liftM (advance .rparen) : Eval Token) >>= fun _ => Pure.pure args :=
  lift_bind _ _

/-! ### Items and arguments -/

/-- What the levels of an expression ask of the jobs. -/
structure Shadowed (j : Jobs) : Prop where
  expression : Follows OffIf (fun _ b => b = Held.null) j.expression j.expression
  unary : Follows Anywhere Whatever j.unary j.unary
  strolls : ∀ {A : Cursor → Prop}, Cursor.Forward A → Strolls A j

/-- Some property that is handed on from token to token. -/
theorem Shadowed.still {j : Jobs} (hj : Shadowed j) : ∃ A, Strolls A j :=
  ⟨_, hj.strolls (Cursor.forward_source default)⟩

/-- A null of one's own is kept as it is. -/
theorem follows_own_bind {f : Value → Eval γ} {g : Value → Eval δ}
    {a : Held} {b : Held} (hb : b = Held.null) (h : ∀ v, Follows E S (f v) (g .null)) :
    Follows E S (own a >>= f) (own b >>= g) := by
  subst hb
  exact .still_bind (still_own a) h

/-- Behind an item stands a comma, or what stands behind all items. -/
theorem off_of_skipOver {k : TokenKind} (hk : k ≠ .kwIf) {f : Bool → Eval γ}
    (hf : ∀ {m w m'}, f false m = .ok w m' → E m'.thread.cursor → OffIf m.thread.cursor)
    {m m' : Machine} {w : γ} (hr : ((liftM (skipOver k) : Eval Bool) >>= f) m = .ok w m')
    (hE : E m'.thread.cursor) : OffIf m.thread.cursor := by
  obtain ⟨b, m₁, hb, hr⟩ := ok_of_bind hr
  rw [Quiet.run_lift, skipOver_run] at hb
  by_cases hm : m.thread.cursor.kind = k
  · exact fun h => hk (hm.symm.trans h)
  · rw [if_neg hm] at hb
    obtain ⟨rfl, rfl⟩ := EStateM.Result.ok.inj hb
    exact hf hr hE

/-- Before a token that is wanted there stands no `if`. -/
theorem off_of_advance {k : TokenKind} (hk : k ≠ .kwIf) {f : Token → Eval γ} {m m' : Machine}
    {w : γ} (hr : ((liftM (advance k) : Eval Token) >>= f) m = .ok w m') :
    OffIf m.thread.cursor := by
  obtain ⟨t, m₁, ht, -⟩ := ok_of_bind hr
  exact fun h => hk ((kind_of_advance ht).symm.trans h)

section Levels

variable {j : Jobs} (hj : Shadowed j)
include hj

/-- An expression whose value is kept, behind which no `if` can stand. -/
theorem follows_kept {vs ws : List Value} {f : Value → Eval γ} {g : Value → Eval δ}
    (h : ∀ v, Follows E S (f v) (g .null))
    (hE : ∀ {v m w m'}, f v m = .ok w m' → E m'.thread.cursor → OffIf m.thread.cursor) :
    Follows E S (holding vs j.expression >>= fun a => own a >>= f)
      (holding ws j.expression >>= fun b => own b >>= g) := by
  refine (follows_holding vs ws hj.expression).bind_of (fun a b hb => follows_own_bind hb h) ?_
  intro a m w m' hr hE'
  obtain ⟨v, m₁, hv, hr⟩ := ok_of_bind hr
  have still : Stays true m (own a m : EStateM.Result Interrupt Machine Value) := still_own a m
  rw [hv] at still
  have := hE hr hE'
  rwa [still.cursor] at this

theorem follows_items (close : TokenKind) (n : Nat) (read skipped : List Value) :
    Follows OffIf Whatever (items j close n read) (items j close n skipped) := by
  induction n generalizing read skipped with
  | zero => exact .of_error fun _ _ _ => nofun
  | succ n ih =>
    refine follows_kind_bind fun k => .ite (fun _ => .pure trivial) fun _ => ?_
    refine follows_kept hj (fun v => ?_) fun hr hE => ?_
    · exact follows_skipOver_bind .comma fun b => .ite (fun _ => ih _ _) fun _ => .pure trivial
    · refine off_of_skipOver (E := OffIf) (k := .comma) nofun (fun hr hE => ?_) hr hE
      obtain ⟨-, rfl⟩ := EStateM.Result.ok.inj hr
      exact hE

omit hj in
theorem follows_finish (args skipped : CallArgs) :
    Follows E Whatever (liftM (arguments.finish args) : Eval CallArgs)
      (liftM (arguments.finish skipped) : Eval CallArgs) := by
  rw [finish_eq, finish_eq]
  exact follows_advance_bind _ fun _ => .pure trivial

theorem follows_arguments (n : Nat) (args skipped : CallArgs)
    (h : args.named = [] ↔ skipped.named = []) :
    Follows E Whatever (arguments j n args) (arguments j n skipped) := by
  induction n generalizing args skipped with
  | zero => exact .of_error fun _ _ _ => nofun
  | succ n ih =>
    refine follows_kind_bind fun k => .ite (fun _ => follows_finish _ _) fun _ => ?_
    let more (args : CallArgs) : Eval CallArgs := do
      if ← skipOver .comma then arguments j n args else arguments.finish args
    -- whether a name has come already is the same for both lists, so they agree on what is
    -- malformed
    have goesOn {args skipped : CallArgs} (h : args.named = [] ↔ skipped.named = []) :
        Follows E Whatever (more args) (more skipped) :=
      follows_skipOver_bind .comma fun _ => .ite (fun _ => ih _ _ h) fun _ => follows_finish _ _
    have off {args : CallArgs} {m m' : Machine} {w : CallArgs} (hr : more args m = .ok w m')
        (hE : E m'.thread.cursor) : OffIf m.thread.cursor := by
      refine off_of_skipOver (E := E) (k := .comma) nofun (fun hr _ => ?_) hr hE
      rw [if_neg nofun, finish_eq] at hr
      exact off_of_advance (k := .rparen) nofun hr
    refine .bind follows_isNamed fun named _ hn => hn ▸ .ite (fun _ => ?_) fun _ => ?_
    · refine follows_bump_bind fun name => follows_bump_bind fun _ => ?_
      exact follows_kept hj (fun v => goesOn (by simp)) off
    · cases hl : args.named with
      | cons first rest => exact .of_error fun _ _ _ => nofun
      | nil =>
        rw [h.mp hl]
        exact follows_kept hj (fun v => goesOn .rfl) off

theorem follows_tupleItems (n : Nat) (read skipped : List Value) :
    Follows OffIf Whatever (tupleItems j n read) (tupleItems j n skipped) := by
  induction n generalizing read skipped with
  | zero => exact .of_error fun _ _ _ => nofun
  | succ n ih =>
    refine follows_skipOver_bind .comma fun b => .ite (fun _ => .pure trivial) fun _ => ?_
    refine follows_kind_bind fun k => .ite (fun _ => .pure trivial) fun _ => ?_
    refine follows_kept hj (fun v => ih _ _) fun hr hE => ?_
    -- what follows an item is again a list of items
    cases n with
    | zero => cases hr
    | succ n =>
      refine off_of_skipOver (E := OffIf) (k := .comma) nofun (fun hr hE => ?_) hr hE
      obtain ⟨-, rfl⟩ := EStateM.Result.ok.inj hr
      exact hE

theorem follows_parenthesized (n : Nat) :
    Follows E Whatever (parenthesized j n) (parenthesized j n) := by
  have made (values : List Value) : Still true (do
      return .fresh (← onHeap (Heap.newTuple values.toArray)) : Eval Held) :=
    .bind (still_onHeap _) fun _ => .pure _
  refine follows_skipOver_bind .rparen fun b => .ite (fun _ => ?_) fun _ => ?_
  · exact follows_unlessSkipping (made []) _
  refine hj.expression.bind_of (fun first _ hb => follows_kind_bind fun k => ?_) fun hr _ => ?_
  · refine .ite (fun _ => follows_advance_bind _ fun _ => .pure trivial) fun _ => ?_
    refine follows_own_bind hb fun v => (follows_tupleItems hj _ _ _).bind_of (fun _ _ _ => ?_)
      fun hr _ => off_of_advance (k := .rparen) nofun hr
    exact follows_advance_bind _ fun _ => follows_unlessSkipping (made _) _
  · obtain ⟨k, m₁, hk, hr⟩ := ok_of_bind hr
    obtain ⟨rfl, rfl⟩ := EStateM.Result.ok.inj hk
    split at hr
    · exact off_of_advance (k := .rparen) nofun hr
    · rename_i hc
      exact fun h => absurd ((not_ne_iff.mp hc).symm.trans h) nofun

theorem follows_arrayLiteral (n : Nat) :
    Follows E Whatever (arrayLiteral j n) (arrayLiteral j n) := by
  refine (follows_items hj _ n _ _).bind_of (fun _ _ _ => ?_) fun hr _ =>
    off_of_advance (k := .rbracket) nofun hr
  exact follows_advance_bind _ fun _ => follows_unlessSkipping
    (.bind (still_onHeap _) fun _ => .pure _) _

theorem follows_dictEntries (n : Nat) (d skipped : Dict Value) :
    Follows OffIf Whatever (dictEntries j n d) (dictEntries j n skipped) := by
  induction n generalizing d skipped with
  | zero => exact .of_error fun _ _ _ => nofun
  | succ n ih =>
    refine follows_kind_bind fun k => .ite (fun _ => .pure trivial) fun _ => ?_
    refine .bind follows_current fun site _ _ => ?_
    refine (follows_holding _ _ hj.expression).bind_of (fun key _ _ => ?_) fun hr _ =>
      off_of_advance (k := .colon) nofun hr
    let more (d : Dict Value) : Eval (Dict Value) := do
      if ← skipOver .comma then dictEntries j n d else return d
    have goesOn (d skipped : Dict Value) : Follows OffIf Whatever (more d) (more skipped) :=
      follows_skipOver_bind .comma fun _ => .ite (fun _ => ih _ _) fun _ => .pure trivial
    -- what reads the end of the line ends there too, a comma or none
    have off {d w : Dict Value} {m m' : Machine} (hr : more d m = .ok w m')
        (hE : OffIf m'.thread.cursor) : OffIf m.thread.cursor := by
      refine off_of_skipOver (E := OffIf) (k := .comma) nofun (fun hr hE => ?_) hr hE
      obtain ⟨-, rfl⟩ := EStateM.Result.ok.inj hr
      exact hE
    refine follows_advance_bind _ fun _ => follows_kept hj (fun v => ?_) fun hr hE => ?_
    · show Follows OffIf Whatever (isSkipping >>= fun b => if b = true then more d else _)
        (isSkipping >>= fun b => if b = true then more skipped else _)
      refine .ifSkipping (goesOn _ _) ?_
      cases key.value with
      | str k => exact goesOn _ _
      | _ => exact .of_error fun _ _ _ => nofun
    · obtain ⟨b, m₁, hb, hr⟩ := ok_of_bind hr
      obtain ⟨rfl, rfl⟩ := EStateM.Result.ok.inj hb
      split at hr
      · exact off hr hE
      · cases hv : key.value with
        | str k =>
          rw [hv] at hr
          exact off hr hE
        | _ =>
          rw [hv] at hr
          nomatch hr

theorem follows_dictLiteral (n : Nat) :
    Follows E Whatever (dictLiteral j n) (dictLiteral j n) := by
  refine (follows_dictEntries hj n _ _).bind_of (fun _ _ _ => ?_) fun hr _ =>
    off_of_advance (k := .rbrace) nofun hr
  exact follows_advance_bind _ fun _ => follows_unlessSkipping
    (.bind (still_onHeap _) fun _ => .pure _) _

/-! ### Operands -/

theorem follows_primary (n : Nat) : Follows E Whatever (primary j n) (primary j n) := by
  obtain ⟨A, strolls⟩ := hj.still
  refine follows_bump_bind fun token => ?_
  split
  · exact .pure trivial
  · exact .pure trivial
  · exact follows_unlessSkipping (.bind (still_interpolate strolls _) fun _ => .pure _) _
  · exact .pure trivial
  · exact .pure trivial
  · exact .pure trivial
  · exact follows_parenthesized hj _
  · exact follows_arrayLiteral hj _
  · exact follows_dictLiteral hj _
  · exact follows_unlessSkipping (still_name _) _
  · exact follows_unlessSkipping (still_superProxy _) _
  · exact .of_error fun _ _ _ => nofun

theorem follows_chain (n : Nat) (v w : Held) :
    Follows E Whatever (chain j n v) (chain j n w) := by
  obtain ⟨A, strolls⟩ := hj.still
  induction n generalizing v w with
  | zero => exact .of_error fun _ _ _ => nofun
  | succ n ih =>
    refine follows_kind_bind fun k => ?_
    split
    · have member (t : Token) : Follows E Whatever
          (do if ← isSkipping then chain j n v else chain j n (← readAttribute v t.text t))
          (do if ← isSkipping then chain j n w else chain j n (← readAttribute w t.text t)) :=
        .ifSkipping (ih _ _) (.still_bind (still_readAttribute _ _ _) fun _ => ih _ _)
      refine follows_bump_bind fun _ => follows_kind_bind fun k => .ite (fun _ => ?_) fun _ => ?_
      · exact follows_bump_bind member
      · exact follows_advance_bind _ member
    · refine follows_bump_bind fun site => (follows_holding _ _ hj.expression).bind_of
        (fun index _ _ => ?_) fun hr _ => off_of_advance (k := .rbracket) nofun hr
      refine follows_advance_bind _ fun _ => .ifSkipping (ih _ _) ?_
      exact .still_bind (still_own _) fun _ => .still_bind (still_readItem _ _ _) fun _ => ih _ _
    · refine follows_bump_bind fun site => ?_
      refine .bind (follows_holding _ _ (follows_arguments hj n _ _ .rfl)) fun args _ _ => ?_
      exact .ifSkipping (ih _ _) (.still_bind (strolls.invoke _ _ _) fun _ => ih _ _)
    · exact .pure trivial

theorem follows_power (n : Nat) : Follows E Whatever (power j n) (power j n) := by
  refine .bind (follows_primary hj n) fun _ _ _ => .bind (follows_chain hj n _ _) fun _ _ _ => ?_
  refine follows_kind_bind fun k => .ite (fun _ => .pure trivial) fun _ => ?_
  refine follows_bump_bind fun op => .bind (follows_holding _ _ hj.unary) fun _ _ _ => ?_
  exact follows_unlessSkipping (.bind (still_orComplain _ _) fun _ => .pure _) _

/-- An operand that is skipped is not waited for. -/
theorem follows_awaitExpr : Follows E Whatever (awaitExpr j) (awaitExpr j) := by
  refine follows_advance_bind _ fun keyword => .mode_bind fun a b hab => ?_
  rw [hab]
  refine .ite (fun _ => .of_error fun _ _ _ => nofun) fun _ => ?_
  refine .bind hj.unary.anywhere fun operand _ _ => .ifSkipping (.pure trivial) ?_
  refine .still (.bind still_replayed fun outcome => ?_) fun _ => trivial
  cases outcome with
  | some outcome => exact still_resume _
  | none => exact still_waitFor _ _

theorem follows_unaryExpr (n : Nat) : Follows E Whatever (unaryExpr j n) (unaryExpr j n) := by
  refine follows_kind_bind fun k => ?_
  split
  · refine follows_bump_bind fun _ => .bind hj.unary.anywhere fun _ _ _ => ?_
    exact follows_unlessSkipping (.bind (still_truthy _) fun _ => .pure _) _
  · refine follows_bump_bind fun _ => .bind hj.unary.anywhere fun _ _ _ => ?_
    exact follows_unlessSkipping (.bind (still_orComplain _ _) fun _ => .pure _) _
  · exact follows_awaitExpr hj
  · exact follows_power hj n

/-! ### Binary operators -/

theorem follows_multiplicativeTail (n : Nat) (left skipped : Held) :
    Follows E Whatever (multiplicativeTail j n left) (multiplicativeTail j n skipped) := by
  induction n generalizing left skipped with
  | zero => exact .of_error fun _ _ _ => nofun
  | succ n ih =>
    refine follows_kind_bind fun k => ?_
    split
    case _ | _ | _ =>
      refine follows_bump_bind fun op => .bind (follows_holding _ _ hj.unary) fun _ _ _ => ?_
      exact .ifSkipping (ih _ _) (.still_bind (still_multiply _ _ _) fun _ => ih _ _)
    · exact .pure trivial

theorem follows_multiplicative (n : Nat) :
    Follows E Whatever (multiplicative j n) (multiplicative j n) :=
  .bind hj.unary fun _ _ _ => follows_multiplicativeTail hj n _ _

theorem follows_additiveTail (n : Nat) (left skipped : Held) :
    Follows E Whatever (additiveTail j n left) (additiveTail j n skipped) := by
  obtain ⟨A, strolls⟩ := hj.still
  induction n generalizing left skipped with
  | zero => exact .of_error fun _ _ _ => nofun
  | succ n ih =>
    have operand := follows_holding (E := Anywhere) [left.value] [skipped.value]
      (follows_multiplicative hj n)
    refine follows_kind_bind fun k => ?_
    split
    · refine follows_bump_bind fun op => .bind operand fun _ _ _ => ?_
      exact .ifSkipping (ih _ _) (.still_bind (still_add strolls _ _ _) fun _ => ih _ _)
    · refine follows_bump_bind fun op => .bind operand fun _ _ _ => ?_
      exact .ifSkipping (ih _ _) (.still_bind (still_orComplain _ _) fun _ => ih _ _)
    · exact .pure trivial

theorem follows_additive (n : Nat) : Follows E Whatever (additive j n) (additive j n) :=
  .bind (follows_multiplicative hj n) fun _ _ _ => follows_additiveTail hj n _ _

theorem follows_comparisonTail (n : Nat) (left skipped : Held) :
    Follows E Whatever (comparisonTail j n left) (comparisonTail j n skipped) := by
  induction n generalizing left skipped with
  | zero => exact .of_error fun _ _ _ => nofun
  | succ n ih =>
    refine follows_kind_bind fun k => ?_
    split
    case _ | _ | _ | _ =>
      refine follows_bump_bind fun op => ?_
      refine .bind (follows_holding _ _ (follows_additive hj n)) fun _ _ _ => ?_
      exact .ifSkipping (ih _ _) (.still_bind (still_orComplain _ _) fun _ => ih _ _)
    · exact .pure trivial

theorem follows_comparison (n : Nat) : Follows E Whatever (comparison j n) (comparison j n) :=
  .bind (follows_additive hj n) fun _ _ _ => follows_comparisonTail hj n _ _

theorem follows_identityTail (n : Nat) (left skipped : Held) :
    Follows E Whatever (identityTail j n left) (identityTail j n skipped) := by
  induction n generalizing left skipped with
  | zero => exact .of_error fun _ _ _ => nofun
  | succ n ih =>
    refine follows_skipOver_bind .kwIs fun b => .ite (fun _ => .pure trivial) fun _ => ?_
    refine follows_skipOver_bind .kwNot fun negated => ?_
    refine .bind (follows_holding _ _ (follows_comparison hj n)) fun _ _ _ => ?_
    exact .ifSkipping (ih _ _) (ih _ _)

theorem follows_identity (n : Nat) : Follows E Whatever (identity j n) (identity j n) :=
  .bind (follows_comparison hj n) fun _ _ _ => follows_identityTail hj n _ _

theorem follows_equalityTail (n : Nat) (left skipped : Held) :
    Follows E Whatever (equalityTail j n left) (equalityTail j n skipped) := by
  induction n generalizing left skipped with
  | zero => exact .of_error fun _ _ _ => nofun
  | succ n ih =>
    refine follows_kind_bind fun k => ?_
    split
    case _ | _ =>
      refine follows_bump_bind fun op => ?_
      refine .bind (follows_holding _ _ (follows_identity hj n)) fun _ _ _ => ?_
      exact .ifSkipping (ih _ _) (ih _ _)
    · exact .pure trivial

theorem follows_equality (n : Nat) : Follows E Whatever (equality j n) (equality j n) :=
  .bind (follows_identity hj n) fun _ _ _ => follows_equalityTail hj n _ _

/-- Whether the second operand of `and` is evaluated or not, it is passed. -/
theorem follows_andTail (n : Nat) (left skipped : Held) :
    Follows E Whatever (andTail j n left) (andTail j n skipped) := by
  induction n generalizing left skipped with
  | zero => exact .of_error fun _ _ _ => nofun
  | succ n ih =>
    have operand := follows_equality (E := Anywhere) hj n
    refine follows_skipOver_bind .kwAnd fun b => .ite (fun _ => .pure trivial) fun _ => ?_
    refine .isSkipping_bind (.ask_bind fun _ => .still_bind still_isSkipping fun _ =>
      .still_bind (still_truthy _) fun _ => .ite_left (fun _ => ?_) fun _ => ?_)
    · exact .bind (follows_skipping operand) fun _ _ _ => ih _ _
    · exact .bind (follows_of_holding _ (follows_into_skipping operand)) fun _ _ _ => ih _ _

theorem follows_andExpr (n : Nat) : Follows E Whatever (andExpr j n) (andExpr j n) :=
  .bind (follows_equality hj n) fun _ _ _ => follows_andTail hj n _ _

/-- Whether the second operand of `or` is evaluated or not, it is passed. -/
theorem follows_orTail (n : Nat) (left skipped : Held) :
    Follows E Whatever (orTail j n left) (orTail j n skipped) := by
  induction n generalizing left skipped with
  | zero => exact .of_error fun _ _ _ => nofun
  | succ n ih =>
    have operand := follows_andExpr (E := Anywhere) hj n
    refine follows_skipOver_bind .kwOr fun b => .ite (fun _ => .pure trivial) fun _ => ?_
    refine .isSkipping_bind (.ask_bind fun _ => .still_bind still_isSkipping fun _ =>
      .still_bind (still_truthy _) fun _ => .ite_left (fun _ => ?_) fun _ => ?_)
    · exact .bind (follows_skipping operand) fun _ _ _ => ih _ _
    · exact .bind (follows_of_holding _ (follows_into_skipping operand)) fun _ _ _ => ih _ _

theorem follows_orExpr (n : Nat) : Follows E Whatever (orExpr j n) (orExpr j n) :=
  .bind (follows_andExpr hj n) fun _ _ _ => follows_orTail hj n _ _

/-! ### Conditional expressions -/

omit hj in
/-- Past an `if` that has to stand there, by looking whether it does. -/
theorem follows_wanted :
    Follows E (fun _ b => b = true) (liftM (advance .kwIf) : Eval Token)
      (liftM (skipOver .kwIf) : Eval Bool) := by
  intro m s m' t hs hr hE
  have hk := kind_of_advance hr
  obtain ⟨u, c, hy, hs', -⟩ := follows_advance .kwIf m s m' t hs hr hE
  refine ⟨true, c, ?_, hs', rfl⟩
  have hsk : s.thread.cursor.kind = .kwIf := hs.place.kind.trans hk
  rw [Quiet.run_lift] at hy ⊢
  rw [skipOver_run, if_pos hsk]
  simp only [advance, bind, EStateM.bind, current, move, Cursor.advance, if_pos hsk] at hy
  cases hc : s.thread.cursor.bump with
  | error failure => rw [hc] at hy; contradiction
  | ok d =>
    rw [hc] at hy
    obtain ⟨-, hd⟩ := EStateM.Result.ok.inj hy
    exact congrArg (EStateM.Result.ok true) hd

/-- A skipped conditional from its `if` on. -/
theorem follows_rest (n : Nat) :
    Follows OffIf Whatever
      (do let _ ← orExpr j n; let _ ← advance .kwElse; let _ ← j.expression : Eval Unit)
      (do let _ ← orExpr j n; let _ ← advance .kwElse; let _ ← j.expression : Eval Unit) :=
  .bind (follows_orExpr hj n) fun _ _ _ => follows_advance_bind _ fun _ =>
    hj.expression.bind_of (fun _ _ _ => .pure trivial) fun hr hE => by
      obtain ⟨-, rfl⟩ := EStateM.Result.ok.inj hr
      exact hE

theorem follows_skipConditional (n : Nat) :
    Follows OffIf Whatever (skipConditional j n) (skipConditional j n) :=
  .bind (follows_orExpr hj n) fun _ _ _ => follows_skipOver_bind .kwIf fun _ =>
    .ite (fun _ => follows_rest hj n) fun _ => .pure trivial

/-- No conditional, as no `if` stands behind it. -/
theorem follows_plain (n : Nat) :
    Follows OffIf Whatever (orExpr j n) (skipConditional j n) := by
  intro m s m' v hs hr hE
  obtain ⟨w, c, hy, hs', -⟩ := follows_orExpr (E := OffIf) hj n m s m' v hs hr hE
  have hoff : (s.moved c).thread.cursor.kind ≠ .kwIf := hs'.place.kind ▸ hE
  have hif : (liftM (skipOver .kwIf) : Eval Bool) (s.moved c) = .ok false (s.moved c) := by
    rw [Quiet.run_lift, skipOver_run, if_neg hoff]
  exact ⟨(), c, (bind_of_ok hy).trans (bind_of_ok hif), hs', trivial⟩

/-- The first side, passed over, and the condition behind it up to the second side. -/
def decision (j : Jobs) (n : Nat) : Eval Bool := do
  let _ ← skipping (orExpr j n)
  let _ ← advance .kwIf
  let taken ← truthy (← orExpr j n)
  let _ ← advance .kwElse
  return taken

/-- The first side, and the rest, passed over. -/
def firstSide (j : Jobs) (n : Nat) : Eval Held := do
  let v ← orExpr j n
  skipping do
    let _ ← advance .kwIf
    let _ ← orExpr j n
    let _ ← advance .kwElse
    let _ ← j.expression
  return v

omit hj in
theorem isSkipping_of_skipping {m : Machine} (hm : m.thread.skip ≠ 0) :
    (isSkipping : Eval Bool) m = .ok true m := by
  simp [isSkipping, hm]

omit hj in
theorem conditional_of_skipping {m : Machine} (n : Nat) (hm : m.thread.skip ≠ 0) :
    conditional j n m = (do skipConditional j n; return Held.null : Eval Held) m :=
  bind_of_ok (isSkipping_of_skipping hm)

omit hj in
/-- What is evaluated: no conditional, the second side, or, from the start again, the first one. -/
theorem conditional_sides {n : Nat} {m m' : Machine} {v : Held} (hm : m.thread.skip = 0)
    (h : conditional j n m = .ok v m') :
    orExpr j n m = .ok v m' ∨ ∃ taken m₁, decision j n m = .ok taken m₁ ∧
      (j.expression m₁ = .ok v m' ∨ ∃ c, m₁.thread.cursor.rewind m.thread.cursor.capture = .ok c ∧
        firstSide j n (m₁.moved c) = .ok v m') := by
  have hg : (isSkipping : Eval Bool) m = .ok false m := by simp [isSkipping, hm]
  rw [conditional, bind_of_ok hg, if_neg nofun] at h
  obtain ⟨m₀, m₁, hget, hr⟩ := ok_of_bind h
  obtain ⟨rfl, rfl⟩ := EStateM.Result.ok.inj hget
  cases ha : m.thread.cursor.conditionalAhead with
  | error failure => rw [ha] at hr; cases hr
  | ok ahead =>
    rw [ha] at hr
    cases ahead with
    | false => exact .inl hr
    | true =>
      obtain ⟨start, m₁, hc, hr⟩ := ok_of_bind hr
      obtain ⟨rfl, rfl⟩ := EStateM.Result.ok.inj hc
      -- one step of the evaluator after another
      obtain ⟨_, m₁, h₁, hr⟩ := ok_of_bind hr
      obtain ⟨_, m₂, h₂, hr⟩ := ok_of_bind hr
      obtain ⟨_, m₃, h₃, hr⟩ := ok_of_bind hr
      obtain ⟨taken, m₄, h₄, hr⟩ := ok_of_bind hr
      obtain ⟨_, m₅, h₅, hr⟩ := ok_of_bind hr
      refine .inr ⟨taken, m₅, (bind_of_ok h₁).trans ((bind_of_ok h₂).trans ((bind_of_ok h₃).trans
        ((bind_of_ok h₄).trans (bind_of_ok h₅)))), ?_⟩
      cases taken with
      | false => exact .inl hr
      | true =>
        obtain ⟨_, m₆, hb, hr⟩ := ok_of_bind hr
        rw [Quiet.run_lift, rewind, move] at hb
        cases hc : m₅.thread.cursor.rewind m.thread.cursor.capture with
        | error failure => rw [hc] at hb; cases hb
        | ok c =>
          rw [hc] at hb
          obtain ⟨-, rfl⟩ := EStateM.Result.ok.inj hb
          exact .inr ⟨c, rfl, hr⟩

theorem follows_decision (n : Nat) :
    Follows OffIf Whatever (decision j n >>= fun _ => j.expression) (skipConditional j n) := by
  simp only [decision, bind_assoc, pure_bind]
  refine .bind (follows_of_skipping (follows_orExpr hj n)) fun _ _ _ => ?_
  refine .bind follows_wanted fun _ b hb => ?_
  subst hb
  refine .bind (follows_orExpr hj n) fun _ _ _ => .still_bind (still_truthy _) fun _ => ?_
  exact follows_advance_bind _ fun _ => hj.expression.then_pure fun _ => trivial

omit hj in
theorem onward_decision {A : Cursor → Prop} (hA : Cursor.Forward A) (hj : Strolls A j) (n : Nat) :
    Onward A (decision j n) := by
  have side := (moves_orExpr hA hj n).onward
  refine .bind (leads_skipping side) fun _ => .bind (.lift (onward_advance hA _)) fun _ => ?_
  refine .bind side fun _ => .bind (still_truthy _).onward fun _ => ?_
  exact .bind (.lift (onward_advance hA _)) fun _ => .pure _

theorem follows_firstSide (n : Nat) :
    Follows OffIf Whatever (firstSide j n) (skipConditional j n) := by
  refine .bind (follows_orExpr hj n) fun v _ _ => .pure_behind (follows_of_skipping ?_)
  refine .bind follows_wanted fun _ b hb => ?_
  subst hb
  exact follows_rest hj n

/-- Up to where a conditional expression is evaluated, it is skipped. -/
theorem follows_conditional (n : Nat) :
    Follows OffIf (fun _ b => b = Held.null) (conditional j n) (conditional j n) := by
  intro m s m' v hs hr hE
  rw [conditional_of_skipping n hs.skips]
  have whole {α : Type} {x : Eval α} (h : Follows OffIf Whatever x (skipConditional j n)) :
      Follows OffIf (fun _ b => b = Held.null) x
        (do skipConditional j n; return Held.null : Eval Held) := h.then_pure fun _ => rfl
  by_cases hm : m.thread.skip = 0
  · obtain hr | ⟨taken, m₁, hd, hr | ⟨c, hc, hr⟩⟩ := conditional_sides hm hr
    · exact whole (follows_plain hj n) m s m' v hs hr hE
    · exact whole (follows_decision hj n) m s m' v hs ((bind_of_ok hd).trans hr) hE
    · refine whole (follows_firstSide hj n) (m₁.moved c) s m' v ?_ hr hE
      have hA := Cursor.forward_source m.thread.cursor.source
      have walks := onward_decision hA (hj.strolls hA) n m ⟨hs.sound, rfl⟩
      rw [hd] at walks
      obtain ⟨⟨-, source⟩, abides⟩ := walks
      -- the condition was read in the same source, so the place of the first side is in it
      have holds : m₁.thread.cursor.source.Holds m.thread.cursor.current m.thread.cursor.behind :=
        source.symm ▸ hs.sound
      cases (Cursor.rewind_eq holds).symm.trans hc
      exact ⟨hs.skips, holds,
        ⟨hs.place.source.trans source.symm, hs.place.current, hs.place.behind⟩,
        hs.async.trans (congrArg Mode.inAsync abides.mode).symm⟩
  · rw [conditional_of_skipping n hm] at hr
    obtain ⟨u, m₁, hsk, hr⟩ := ok_of_bind hr
    obtain ⟨rfl, rfl⟩ := EStateM.Result.ok.inj hr
    exact whole (follows_skipConditional hj n) m s m₁ u hs hsk hE

end Levels

theorem shadowed_jobs (fuel : Nat) : Shadowed (jobs fuel) := by
  induction fuel with
  | zero => exact ⟨.of_error fun _ _ _ => nofun, .of_error fun _ _ _ => nofun, strolls_jobs 0⟩
  | succ fuel ih =>
    exact ⟨follows_conditional ih fuel, follows_unaryExpr ih fuel, strolls_jobs (fuel + 1)⟩

/-! ### Where evaluation and skipping end -/

/-- A skipping machine only moves its cursor. -/
theorem kept_while_skipping {R : α → α → Prop} {x : Eval α} (h : Follows Anywhere R x x)
    {s s' : Machine} {a : α} (hs : s.thread.skip ≠ 0) (hc : s.thread.cursor.Sound)
    (hr : x s = .ok a s') : s'.thread.skip = s.thread.skip ∧ s'.thread.cursor.Sound := by
  obtain ⟨b, c, hy, hs', -⟩ := h s s s' a ⟨hs, hc, .refl _, rfl⟩ hr trivial
  obtain ⟨-, rfl⟩ := EStateM.Result.ok.inj (hr.symm.trans hy)
  exact ⟨rfl, hs'.sound⟩

/-- A skipping run takes an `if` for the one of a conditional, so it never ends on one. -/
theorem off_of_skipped (fuel : Nat) {s s' : Machine} {b : Held} (hs : s.thread.skip ≠ 0)
    (hc : s.thread.cursor.Sound) (h : (jobs fuel).expression s = .ok b s') :
    OffIf s'.thread.cursor := by
  -- behind an `else` stands an expression of the same kind, with one unit of fuel less
  induction fuel generalizing s s' b with
  | zero => nomatch h
  | succ fuel ih =>
    have hj := shadowed_jobs fuel
    change conditional (jobs fuel) fuel s = _ at h
    rw [conditional_of_skipping fuel hs] at h
    obtain ⟨u, s₀, hk, hn⟩ := ok_of_bind h
    obtain ⟨-, rfl⟩ := EStateM.Result.ok.inj hn
    obtain ⟨v, s₁, h₁, h⟩ := ok_of_bind hk
    obtain ⟨hs₁, hc₁⟩ := kept_while_skipping (follows_orExpr hj fuel) hs hc h₁
    obtain ⟨found, s₂, h₂, h⟩ := ok_of_bind h
    obtain ⟨hs₂, hc₂⟩ := kept_while_skipping (follows_skipOver .kwIf) (hs₁ ▸ hs) hc₁ h₂
    cases found with
    | false =>
      obtain ⟨-, rfl⟩ := EStateM.Result.ok.inj h
      obtain ⟨off, rfl⟩ := stays_of_skipOver h₂
      exact off
    | true =>
      obtain ⟨w, s₃, h₃, h⟩ := ok_of_bind h
      obtain ⟨hs₃, hc₃⟩ := kept_while_skipping (follows_orExpr hj fuel) (hs₂ ▸ hs₁ ▸ hs) hc₂ h₃
      obtain ⟨t, s₄, h₄, h⟩ := ok_of_bind h
      obtain ⟨hs₄, hc₄⟩ := kept_while_skipping (follows_advance .kwElse) (hs₃ ▸ hs₂ ▸ hs₁ ▸ hs) hc₃ h₄
      obtain ⟨x, s₅, h₅, h⟩ := ok_of_bind h
      obtain ⟨-, rfl⟩ := EStateM.Result.ok.inj h
      exact ih (hs₄ ▸ hs₃ ▸ hs₂ ▸ hs₁ ▸ hs) hc₄ h₅

end Eval

open Eval

/-- An expression that is evaluated successfully is skipped over the same tokens, its value aside,
exactly if it does not end before an `if`. -/
theorem skipped_iff (fuel : Nat) {m m' : Machine} {v : Held} (hc : m.thread.cursor.Sound)
    (h : (jobs fuel).expression m = .ok v m') :
    (∃ c, skipping (jobs fuel).expression m = .ok Held.null (m.moved c) ∧
        m'.thread.cursor.Meets c) ↔
      m'.thread.cursor.kind ≠ .kwIf := by
  let s : Machine := { m with thread := { m.thread with skip := m.thread.skip + 1 } }
  have hs : s.thread.skip ≠ 0 := Nat.succ_ne_zero _
  constructor
  · rintro ⟨c, hk, hm⟩
    simp only [skipping] at hk
    cases hx : (jobs fuel).expression s with
    | error e m₁ => rw [hx] at hk; cases hk
    | ok b m₁ =>
      rw [hx] at hk
      have off := off_of_skipped fuel hs hc hx
      have place : m₁.thread.cursor = c :=
        congrArg (fun m => m.thread.cursor) (EStateM.Result.ok.inj hk).2
      rwa [OffIf, place, hm.kind] at off
  · intro hE
    obtain ⟨b, c, hy, hs', rfl⟩ :=
      (shadowed_jobs fuel).expression m s m' v ⟨hs, hc, .refl _, rfl⟩ h hE
    exact ⟨c, by simp only [skipping]; rw [hy]; rfl, hs'.place⟩

/-! ### An expression at the end of a line -/

/-- The token an evaluation ends on. -/
def endsOn : EStateM.Result Interrupt Machine Held → Option TokenKind
  | .ok _ m => some m.thread.cursor.kind
  | .error _ _ => none

theorem ok_of_endsOn {r : EStateM.Result Interrupt Machine Held} {k : TokenKind}
    (h : endsOn r = some k) : ∃ v m, r = .ok v m ∧ m.thread.cursor.kind = k := by
  cases r with
  | ok v m => exact ⟨v, m, rfl, Option.some.inj h⟩
  | error e m => nomatch h

/-- The line behind the number starts with an `if`, which a skipping run takes for its own. -/
theorem skipped_beyond_line :
    (onText "2\nif: true:\n    skip\n").thread.cursor.Sound ∧ ∃ v m',
      (jobs 4).expression (onText "2\nif: true:\n    skip\n") = .ok v m' ∧
      ¬ ∃ c, skipping (jobs 4).expression (onText "2\nif: true:\n    skip\n") =
        .ok Held.null ((onText "2\nif: true:\n    skip\n").moved c) ∧
        m'.thread.cursor.Meets c := by
  have hc : (onText "2\nif: true:\n    skip\n").thread.cursor.Sound :=
    sound_onText (by decide +kernel)
  obtain ⟨v, m', h, hk⟩ := ok_of_endsOn (k := .kwIf)
    (r := (jobs 4).expression (onText "2\nif: true:\n    skip\n")) (by decide +kernel)
  exact ⟨hc, v, m', h, fun skipped => (skipped_iff 4 hc h).1 skipped hk⟩

/-- What is not taken of a conditional at the end of a line is passed together with the `if` that
the next line starts with. -/
theorem statement_lost_behind_conditional :
    account ((Machine.new {}).runSource ("let: x = 1 if true else 2\n" ++
      "if: x == 1:\n    show(\"one\")\n") 12) =
    ("", some "Unexpected ':' in expression") := by
  decide +kernel

end Rewind
