/-
What an evaluation with effects comes to.

The evaluator reads an expression off its text, and a call in it may print, bind names, fail and raise.
On the words of a tree it moves exactly over them and comes to the value of the tree, with the machine
in the state of the store that the tree has come to; an exception stops it on one of the words.  While
skipping it moves over the words without effect.

* `Before` — a machine before the words of a line; `Within` — a cursor on one of them or behind;
* `Lands`, `Obeys` — a computation comes to what the tree does;
* `Obeys.sequence`, `Obeys.trans`, `Obeys.bind_nil` — one part after the other;
* `Obeys.holding`, `Obeys.skipping` — what stands around a part.
-/
import Rewind.Proofs.Settling
import Rewind.Proofs.Stores

namespace Rewind.Tree

open Eval

/-! ### Before the words of a line -/

/-- The machine stands on the first of the words `ws`, which begin at `p`; behind them is `d`. -/
structure Before (ws : List Word) (p : Position) (m : Machine) (d : Cursor) : Prop where
  crosses : m.thread.cursor.Crosses (row p ws) d
  sound : m.thread.cursor.Sound

variable {g : Scene} {σ σ' : Store} {m m' m₁ : Machine} {b c d : Cursor} {p q : Position}
  {us vs ws : List Word} {w : Word}

namespace Before

/-- It is the cursor alone that matters. -/
theorem at_ (h : Before ws p m d) (hc : m'.thread.cursor = m.thread.cursor) : Before ws p m' d :=
  ⟨hc ▸ h.crosses, hc ▸ h.sound⟩

theorem source_eq (h : Before ws p m d) : d.source = m.thread.cursor.source :=
  (h.crosses.sound h.sound).2

/-- Some words of a line, and those behind them. -/
theorem split (us : List Word) (h : Before (us ++ ws) p m d) :
    ∃ b, Before us p m b ∧ b.Crosses (row (p.past us) ws) d ∧
      ∀ m' : Machine, m'.thread.cursor = b → Before ws (p.past us) m' d := by
  have hc := h.crosses
  rw [row_append] at hc
  obtain ⟨b, hb, hd⟩ := hc.append_inv
  refine ⟨b, ⟨hb, h.sound⟩, hd, fun m' hm => ?_⟩
  subst hm
  exact ⟨hd, (hb.sound h.sound).1⟩

theorem current (h : Before (w :: ws) p m d) : m.thread.cursor.current = w.token p :=
  h.crosses.cons_inv.1

theorem kind (h : Before (w :: ws) p m d) : m.thread.cursor.kind = w.kind := by
  rw [Cursor.kind, h.current]
  rfl

theorem moved_eq (h : Before [] p m d) : m.thread.cursor = d := by
  cases h.crosses
  rfl

theorem steps (h : Before (w :: ws) p m d) :
    ∃ b, m.thread.cursor.bump = .ok b ∧ Before ws (p.past [w]) (m.moved b) d := by
  obtain ⟨b, hb, -, hd⟩ := split [w] h
  obtain ⟨-, c, hc, hs⟩ := hb.crosses.cons_inv
  cases hs
  exact ⟨_, hc, hd _ rfl⟩

/-- On to the next word. -/
theorem bump (h : Before (w :: ws) p m d) :
    ∃ b, (Eval.bump : Run _) m = .ok (w.token p) (m.moved b) ∧
      Before ws (p.past [w]) (m.moved b) d := by
  obtain ⟨b, hb, hs⟩ := h.steps
  refine ⟨b, ?_, hs⟩
  simp only [Eval.bump, Eval.current, Eval.move, Bind.bind, EStateM.bind, hb, h.current]
  rfl

/-- On to the next word, where this one is wanted. -/
theorem advance (h : Before (w :: ws) p m d) :
    ∃ b, (Eval.advance w.kind : Run _) m = .ok (w.token p) (m.moved b) ∧
      Before ws (p.past [w]) (m.moved b) d := by
  obtain ⟨b, hb, hs⟩ := h.steps
  refine ⟨b, ?_, hs⟩
  have hm : m.thread.cursor.advance w.kind = .ok b := by
    rw [Cursor.advance, if_pos h.kind, hb]
  simp only [Eval.advance, Eval.current, Eval.move, Bind.bind, EStateM.bind, hm, h.current]
  rfl

theorem skipOver (h : Before (w :: ws) p m d) :
    ∃ b, (Eval.skipOver w.kind : Run _) m = .ok true (m.moved b) ∧
      Before ws (p.past [w]) (m.moved b) d := by
  obtain ⟨b, hb, hs⟩ := h.bump
  refine ⟨b, ?_, hs⟩
  simp only [Eval.skipOver, Bind.bind, EStateM.bind, Eval.kind, if_pos h.kind, hb]
  rfl

/-- Back at the first of the words, from any place of the same text. -/
theorem back (h : Before ws p m d) (hw : ws ≠ [])
    (hc : m'.thread.cursor.source = m.thread.cursor.source) :
    ∃ b, (rewind m.thread.cursor.capture : Run _) m' = .ok () (m'.moved b) ∧
      Before ws p (m'.moved b) d := by
  obtain ⟨w, ws, rfl⟩ := List.exists_cons_of_ne_nil hw
  have holds : m'.thread.cursor.source.Holds m.thread.cursor.current m.thread.cursor.behind :=
    hc ▸ h.sound
  -- a rewound cursor counts as at the start of a line, on which nothing inside of a line depends
  let b : Cursor :=
    ⟨m'.thread.cursor.source, m.thread.cursor.current, m.thread.cursor.behind, 0⟩
  refine ⟨b, ?_, h.crosses.congr (by simp [row]) ⟨hc, rfl, rfl⟩, holds⟩
  have hb : m'.thread.cursor.rewind m.thread.cursor.capture = .ok b := Cursor.rewind_eq holds
  simp only [rewind, move, hb]
  rfl

end Before

/-! ### Somewhere on a line -/

namespace Within

theorem here (h : c.Crosses (row p ws) d) : Within p ws c d := ⟨[], ws, rfl, h⟩

theorem behind (p : Position) (ws : List Word) (d : Cursor) : Within p ws d d :=
  ⟨ws, [], (List.append_nil ws).symm, .done d⟩

theorem append (h : Within p us c b) (hb : b.Crosses (row (p.past us) ws) d) :
    Within p (us ++ ws) c d := by
  obtain ⟨as, bs, rfl, hc⟩ := h
  refine ⟨as, bs ++ ws, List.append_assoc _ _ _, ?_⟩
  rw [row_append, ← Position.past_append]
  exact hc.append hb

theorem prepend (us : List Word) (h : Within (p.past us) ws c d) : Within p (us ++ ws) c d := by
  obtain ⟨as, bs, rfl, hc⟩ := h
  exact ⟨us ++ as, bs, (List.append_assoc _ _ _).symm, by rwa [Position.past_append]⟩

/-- On the words between some others. -/
theorem between (us : List Word) (h : Within (p.past us) ws c b)
    (hb : b.Crosses (row ((p.past us).past ws) vs) d) : Within p (us ++ ws ++ vs) c d := by
  rw [List.append_assoc]
  exact (h.append hb).prepend us

end Within

/-! ### What evaluation comes to -/

section Lands

variable {α β γ α' β' γ' : Type} {R : α → β → Prop} {S : α' → β' → Prop}
  {k : α → Supplied Interrupt γ} {x y : Supplied Interrupt γ}

/-- The value at hand, as a computation. -/
def done : α → Supplied Interrupt α := fun a _ _ => pure a

/-- Begun in `m`, before the words `ws` at `p`, the computation `x` comes to what the tree has come to:
with a value it goes on behind the words as `k` does, an exception stops it on one of them, and a
failure ends it. -/
inductive Lands (g : Scene) (R : α → β → Prop) (k : α → Supplied Interrupt γ)
    (x : Supplied Interrupt γ) (m : Machine) (p : Position) (ws : List Word) (d : Cursor) :
    Except Halt β → Store → Prop
  | value {σ : Store} {v : β} (a : α) (m' : Machine) (hv : R a v) (hx : Goes x m (k a) m')
      (mirrors : Mirrors g σ m') (reaches : Reaches g m d m') : Lands g R k x m p ws d (.ok v) σ
  | raised {σ : Store} {r : Raised} (c : Cursor) (m' : Machine) (hr : r.value.scalar = true)
      (hx : Settles x m (.error (.raised r) m')) (mirrors : Mirrors g σ m')
      (reaches : Reaches g m c m') (within : Within p ws c d) :
      Lands g R k x m p ws d (.error (.raised r)) σ
  | failed {σ : Store} {f : Failure} (m' : Machine)
      (hx : Settles x m (.error (.fault (.failure f)) m')) (rooted : Rooted g σ m') :
      Lands g R k x m p ws d (.error (.failed f)) σ

/-- While skipping the computation passes the words without effect; otherwise it comes to what the
tree does. -/
structure Obeys (g : Scene) (R : α → β → Prop) (k : α → Supplied Interrupt γ)
    (x : Supplied Interrupt γ) (m : Machine) (p : Position) (ws : List Word) (d : Cursor)
    (run : Course β) : Prop where
  passes : m.thread.skip ≠ 0 → ∃ a v, R a v ∧ Goes x m (k a) (m.moved d)
  lands : m.thread.skip = 0 → ∀ {σ σ' : Store} {o : Except Halt β}, Mirrors g σ m →
    run σ = some (o, σ') → Lands g R k x m p ws d o σ'

variable {run : Course β} {f : β → Course β'}

/-- A computation that begins as another one does. -/
theorem Lands.congr {o : Except Halt β} (h : Lands g R k y m₁ p ws d o σ) (hx : Goes x m y m₁)
    (hm : ∀ {c m'}, Reaches g m₁ c m' → Reaches g m c m') : Lands g R k x m p ws d o σ := by
  cases h with
  | value a m' hv hy mirrors reaches => exact .value a m' hv (hx.trans hy) mirrors (hm reaches)
  | raised c m' hr hy mirrors reaches within =>
    exact .raised c m' hr (hx _ hy) mirrors (hm reaches) within
  | failed m' hy rooted => exact .failed m' (hx _ hy) rooted

/-- More words before those that are evaluated. -/
theorem Lands.prepend {o : Except Halt β} (us : List Word)
    (h : Lands g R k x m (p.past us) ws d o σ) : Lands g R k x m p (us ++ ws) d o σ := by
  cases h with
  | value a m' hv hx mirrors reaches => exact .value a m' hv hx mirrors reaches
  | raised c m' hr hx mirrors reaches within =>
    exact .raised c m' hr hx mirrors reaches (within.prepend us)
  | failed m' hx rooted => exact .failed m' hx rooted

/-- What a computation comes to is handed on. -/
theorem Lands.andThen {x : Supplied Interrupt α} {o : Except Halt β}
    (h : Lands g R done x m p ws d o σ) (f : α → Supplied Interrupt γ) :
    Lands g R f (fun fuel n => x fuel n >>= fun a => f a fuel n) m p ws d o σ := by
  cases h with
  | value a m' hv hx mirrors reaches =>
    exact .value a m' hv (.bind (hx _ (.of_eq fun _ _ => rfl))) mirrors reaches
  | raised c m' hr hx mirrors reaches within =>
    exact .raised c m' hr hx.stop mirrors reaches within
  | failed m' hx rooted => exact .failed m' hx.stop rooted

/-- Nothing is left to be done behind the words. -/
theorem Lands.close {k : α → Supplied Interrupt α} {x : Supplied Interrupt α} {o : Except Halt β}
    (h : Lands g R k x m p ws d o σ)
    (hk : ∀ a m', Reaches g m d m' → Settles (k a) m' (.ok a m')) :
    Lands g R done x m p ws d o σ := by
  cases h with
  | value a m' hv hx mirrors reaches =>
    exact .value a m' hv (.of_settles (hx _ (hk a m' reaches))) mirrors reaches
  | raised c m' hr hx mirrors reaches within =>
    exact .raised c m' hr hx mirrors reaches within
  | failed m' hx rooted => exact .failed m' hx rooted

namespace Obeys

theorem congr (h : Obeys g R k y (m.moved b) p ws d run) (hx : Goes x m y (m.moved b)) :
    Obeys g R k x m p ws d run where
  passes hm := by
    obtain ⟨a, v, hv, hy⟩ := h.passes hm
    exact ⟨a, v, hv, hx.trans hy⟩
  lands hm _ _ _ hmirrors hrun :=
    (h.lands hm (hmirrors.moved b) hrun).congr hx fun hr => (Reaches.refl g m b).trans hr

/-- The same place in the same state. -/
theorem congr_here (h : Obeys g R k y m p ws d run) (hx : Goes x m y m) :
    Obeys g R k x m p ws d run where
  passes hm := by
    obtain ⟨a, v, hv, hy⟩ := h.passes hm
    exact ⟨a, v, hv, hx.trans hy⟩
  lands hm _ _ _ hmirrors hrun := (h.lands hm hmirrors hrun).congr hx id

theorem of_run {run' : Course β} (h : Obeys g R k x m p ws d run) (hr : run = run') :
    Obeys g R k x m p ws d run' := hr ▸ h

/-- More words before those that are evaluated. -/
theorem prepend (us : List Word) (h : Obeys g R k x m (p.past us) ws d run) :
    Obeys g R k x m p (us ++ ws) d run where
  passes := h.passes
  lands hm _ _ _ hmirrors hrun := (h.lands hm hmirrors hrun).prepend us

/-- One part after the other, where the second part begins as the first one goes on.  Both are on the
words `ws`. -/
theorem sequence {l : α' → Supplied Interrupt γ} (h : Obeys g R k x m q us b run)
    (hw : ∀ c, Within q us c b → Within p ws c d)
    (hk : ∀ a v m', R a v → Reaches g m b m' → Obeys g S l (k a) m' p ws d (f v)) :
    Obeys g S l x m p ws d (run >>= f) where
  passes hm := by
    obtain ⟨a, v, hv, hx⟩ := h.passes hm
    obtain ⟨a', v', hv', hx'⟩ := (hk a v _ hv (.refl g m b)).passes hm
    exact ⟨a', v', hv', hx.trans hx'⟩
  lands hm σ σ' o hmirrors hrun := by
    rw [Course.run_bind] at hrun
    cases hr : run σ with
    | none =>
      rw [hr] at hrun
      contradiction
    | some r =>
      obtain ⟨r, σ₁⟩ := r
      rw [hr] at hrun
      cases h.lands hm hmirrors hr with
      | value a m' hv hx mirrors reaches =>
        have second := (hk a _ m' hv reaches).lands (reaches.skip.trans hm) mirrors hrun
        exact second.congr hx fun hr => reaches.trans hr
      | raised c m' hs hx mirrors reaches within =>
        -- an exception of the first part is raised on one of the words of both
        obtain ⟨rfl, rfl⟩ := Prod.mk.inj (Option.some.inj hrun)
        exact .raised c m' hs hx mirrors reaches (hw c within)
      | failed m' hx rooted =>
        obtain ⟨rfl, rfl⟩ := Prod.mk.inj (Option.some.inj hrun)
        exact .failed m' hx rooted

/-- One part behind the other. -/
theorem trans {l : α' → Supplied Interrupt γ} (h : Obeys g R k x m p us b run)
    (hb : b.Crosses (row (p.past us) ws) d)
    (hk : ∀ a v m', R a v → Reaches g m b m' →
      Obeys g S l (k a) m' (p.past us) ws d (f v)) :
    Obeys g S l x m p (us ++ ws) d (run >>= f) :=
  h.sequence (fun _ hc => hc.append hb) fun a v m' hv hr => (hk a v m' hv hr).prepend us

theorem andThen {x : Supplied Interrupt α} (h : Obeys g R done x m p ws d run)
    (f : α → Supplied Interrupt γ) :
    Obeys g R f (fun fuel n => x fuel n >>= fun a => f a fuel n) m p ws d run where
  passes hm := by
    obtain ⟨a, v, hv, hx⟩ := h.passes hm
    exact ⟨a, v, hv, .bind (hx _ (.of_eq fun _ _ => rfl))⟩
  lands hm _ _ _ hmirrors hrun := (h.lands hm hmirrors hrun).andThen f

/-- The second part is behind all the words. -/
theorem trans_nil {l : α' → Supplied Interrupt γ} (h : Obeys g R k x m p ws d run)
    (hk : ∀ a v m', R a v → Reaches g m d m' → Obeys g S l (k a) m' (p.past ws) [] d (f v)) :
    Obeys g S l x m p ws d (run >>= f) := by
  have ends : d.Crosses (row (p.past ws) []) d := .done d
  have whole := h.trans ends hk
  rwa [List.append_nil] at whole

theorem bind_nil {x : Supplied Interrupt α} {l : α' → Supplied Interrupt γ}
    {y : α → Supplied Interrupt γ} (h : Obeys g R done x m p ws d run)
    (hk : ∀ a v m', R a v → Reaches g m d m' → Obeys g S l (y a) m' (p.past ws) [] d (f v)) :
    Obeys g S l (fun fuel n => x fuel n >>= fun a => y a fuel n) m p ws d (run >>= f) :=
  (h.andThen y).trans_nil hk

/-- Behind the words a few more are passed, whatever the value is. -/
theorem map {l : α' → Supplied Interrupt γ} {φ : β → β'} (h : Obeys g R k x m p us b run)
    (hb : b.Crosses (row (p.past us) ws) d)
    (hk : ∀ a v m', R a v → Reaches g m b m' →
      ∃ a', S a' (φ v) ∧ Goes (k a) m' (l a') (m'.moved d)) :
    Obeys g S l x m p (us ++ ws) d (run >>= fun v => pure (φ v)) := by
  refine h.trans hb fun a v m' hv hr => ?_
  obtain ⟨a', hv', hx⟩ := hk a v m' hv hr
  refine ⟨fun _ => ⟨a', _, hv', hx⟩, fun _ σ σ' o hmirrors hrun => ?_⟩
  obtain ⟨rfl, rfl⟩ := Prod.mk.inj (Option.some.inj hrun)
  exact .value a' _ hv' hx (hmirrors.moved d) (.refl g m' d)

theorem map_nil {l : α' → Supplied Interrupt γ} {φ : β → β'} (h : Obeys g R k x m p ws d run)
    (hk : ∀ a v m', R a v → Reaches g m d m' →
      ∃ a', S a' (φ v) ∧ Goes (k a) m' (l a') (m'.moved d)) :
    Obeys g S l x m p ws d (run >>= fun v => pure (φ v)) := by
  have ends : d.Crosses (row (p.past ws) []) d := .done d
  have whole := h.map ends hk
  rwa [List.append_nil] at whole

theorem close {k : α → Supplied Interrupt α} {x : Supplied Interrupt α}
    (h : Obeys g R k x m p ws d run)
    (hk : ∀ a m', Reaches g m d m' → Settles (k a) m' (.ok a m')) :
    Obeys g R done x m p ws d run where
  passes hm := by
    obtain ⟨a, v, hv, hx⟩ := h.passes hm
    exact ⟨a, v, hv, .of_settles (hx _ (hk a _ (.refl g m d)))⟩
  lands hm _ _ _ hmirrors hrun := (h.lands hm hmirrors hrun).close hk

/-- The value is at hand already. -/
theorem value {a : α} {v : β} (hv : R a v) (hc : m.thread.cursor = d)
    (hx : Goes x m (k a) m) : Obeys g R k x m p ws d (pure v) := by
  subst hc
  refine ⟨fun _ => ⟨a, v, hv, hx⟩, fun _ σ σ' o hmirrors hrun => ?_⟩
  obtain ⟨rfl, rfl⟩ := Prod.mk.inj (Option.some.inj hrun)
  exact .value a m hv hx hmirrors (.refl g m _)

/-- A part that the jobs of a computation give the fuel of its rounds to. -/
theorem job (h : Obeys g R k y m p ws d run) (hx : ∀ fuel n, x (fuel + 1) n m = y fuel fuel m) :
    Obeys g R k x m p ws d run :=
  h.congr_here fun _ hr => hr.job hx

/-- One round more. -/
theorem round (h : Obeys g R k y (m.moved b) p ws d run)
    (hx : ∀ fuel n, x fuel (n + 1) m = y fuel n (m.moved b)) : Obeys g R k x m p ws d run :=
  h.congr (.round hx)

end Obeys

/-! ### Around a part -/

/-- The machine while it holds something. -/
def holder (m : Machine) (pin : Pin) : Machine := { m with pinned := pin :: m.pinned }

theorem Reaches.release {pin : Pin} (h : Reaches g (holder m pin) c m') :
    Reaches g m c { m' with pinned := m.pinned } := by
  refine ⟨?_, h.size, h.scopes, h.parents, h.functions⟩
  rw [h.rest]
  rfl

theorem Mirrors.holder (h : Mirrors g σ m) (pin : Pin) : Mirrors g σ (Tree.holder m pin) :=
  h.pinned (pin :: m.pinned)

theorem Rooted.pinned (h : Rooted g σ m) (ps : List Pin) : Rooted g σ { m with pinned := ps } :=
  { h with }

variable {x : Supplied Interrupt α} {run : Course β}

theorem Lands.holding {vs : List Value} {o : Except Halt β}
    (h : Lands g R done x (holder m (.values vs)) p ws d o σ) :
    Lands g R done (fun fuel n => Eval.holding vs (x fuel n)) m p ws d o σ := by
  cases h with
  | value a m' hv hx mirrors reaches =>
    have settles := (hx _ (.of_eq fun _ _ => rfl)).pinning
    exact .value a _ hv (.of_settles settles) (mirrors.pinned _) reaches.release
  | raised c m' hr hx mirrors reaches within =>
    exact .raised c _ hr hx.pinning_error (mirrors.pinned _) reaches.release within
  | failed m' hx rooted => exact .failed _ hx.pinning_error (rooted.pinned _)

/-- What is at hand meanwhile has no effect. -/
theorem Obeys.holding {vs : List Value}
    (h : Obeys g R done x (holder m (.values vs)) p ws d run) :
    Obeys g R done (fun fuel n => Eval.holding vs (x fuel n)) m p ws d run where
  passes hm := by
    obtain ⟨a, v, hv, hx⟩ := h.passes hm
    exact ⟨a, v, hv, .of_settles (hx _ (.of_eq fun _ _ => rfl)).pinning⟩
  lands hm _ _ _ hmirrors hrun := (h.lands hm (hmirrors.holder _) hrun).holding

/-- What is skipped is passed over without effect. -/
theorem Obeys.skipping (h : Obeys g R done x m.skipping p ws d run) :
    ∃ a v, R a v ∧ Settles (fun fuel n => Eval.skipping (x fuel n)) m (.ok a (m.moved d)) := by
  obtain ⟨a, v, hv, hx⟩ := h.passes (Nat.succ_ne_zero _)
  exact ⟨a, v, hv, (hx _ (.of_eq fun _ _ => rfl)).skipping⟩

/-- While skipping the words are passed. -/
theorem Obeys.passed (h : Obeys g R done x m p ws d run) (hm : m.thread.skip ≠ 0) :
    ∃ a v, R a v ∧ Settles x m (.ok a (m.moved d)) := by
  obtain ⟨a, v, hv, hx⟩ := h.passes hm
  exact ⟨a, v, hv, hx _ (.of_eq fun _ _ => rfl)⟩

end Lands

end Rewind.Tree
