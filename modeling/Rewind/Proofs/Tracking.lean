/-
The value of code in parentheses, and of the same code on its own.

Evaluation reads tokens by their kinds and texts and goes back to places only where it has been.  So
from two cursors side by side, one in a code in parentheses and one in the same code alone, an
expression that has a value in place has this value alone, and the cursors end side by side again:
inside of as many brackets, or where the code is over.

* `Tracks` — one computation goes along with another one, the cursors being related before and
  behind; `Alongside` — with the same result, from side by side to side by side;
* `tracks_bump`, `tracks_advance`, `along_skipOver`, … — the moves;
* `along_items`, …, `along_conditional` — the levels of an expression;
* `along_jobs` — expressions.
-/
import Rewind.Proofs.Enclosure
import Rewind.Proofs.Placeless

namespace Rewind

open Eval

variable {ε α β : Type} {P P' : Cursor → Cursor → Prop} {e : Excerpt} {n : Nat}

/-- From cursors that are as `P` says, `x'` comes to an end where `x` does, with a result and on a
cursor that are as `Q` says beside those of `x`; all else is the same. -/
def Tracks (P : Cursor → Cursor → Prop) (x x' : EStateM ε Machine α)
    (Q : α → α → Cursor → Cursor → Prop) : Prop :=
  ∀ m c a m₁, P m.thread.cursor c → x m = .ok a m₁ →
    ∃ a' c₁, x' (m.moved c) = .ok a' (m₁.moved c₁) ∧ Q a a' m₁.thread.cursor c₁

/-- The results are the same, and the cursors are as `P` says. -/
def Same (P : Cursor → Cursor → Prop) (a a' : α) (c c' : Cursor) : Prop := a' = a ∧ P c c'

namespace Tracks

variable {Q R : α → α → Cursor → Cursor → Prop} {x x' y y' : EStateM ε Machine α}

theorem of_placeless (h : Placeless x x') : Tracks P x x' (Same P) := by
  intro m c a m₁ hP hx
  obtain ⟨stays, moved⟩ := h m c a m₁ hx
  exact ⟨a, c, moved, rfl, stays ▸ hP⟩

theorem bind {S : β → β → Cursor → Cursor → Prop} {f f' : α → EStateM ε Machine β}
    (hx : Tracks P x x' Q) (hf : ∀ a a', Tracks (Q a a') (f a) (f' a') S) :
    Tracks P (x >>= f) (x' >>= f') S := by
  intro m c b m₂ hP h
  obtain ⟨a, m₁, hxm, hfm⟩ := ok_of_bind h
  obtain ⟨a', c₁, moved, hQ⟩ := hx m c a m₁ hP hxm
  obtain ⟨b', c₂, moved', hS⟩ := hf a a' m₁ c₁ b m₂ hQ hfm
  exact ⟨b', c₂, (bind_of_ok moved).trans moved', hS⟩

/-- What goes on with the same result. -/
theorem bind_same {S : β → β → Cursor → Cursor → Prop} {f f' : α → EStateM ε Machine β}
    (hx : Tracks P x x' (Same P')) (hf : ∀ a, Tracks P' (f a) (f' a) S) :
    Tracks P (x >>= f) (x' >>= f') S := by
  refine .bind hx fun a a' m c b m₁ hP => ?_
  obtain ⟨rfl, hP⟩ := hP
  exact hf _ m c b m₁ hP

theorem pure {a a' : α} (h : ∀ c c', P c c' → Q a a' c c') :
    Tracks P (Pure.pure a : EStateM ε Machine α) (Pure.pure a') Q := by
  intro m c b m₁ hP hb
  obtain ⟨rfl, rfl⟩ := EStateM.Result.ok.inj hb
  exact ⟨a', c, rfl, h _ _ hP⟩

theorem same (a : α) : Tracks P (Pure.pure a : EStateM ε Machine α) (Pure.pure a) (Same P) :=
  .pure fun _ _ h => ⟨rfl, h⟩

theorem stops (h : ∀ m a m₁, x m ≠ .ok a m₁) : Tracks P x x' Q :=
  fun m _ a m₁ _ hx => absurd hx (h m a m₁)

theorem stop_bind {x : EStateM ε Machine β} (h : ∀ m b m₁, x m ≠ .ok b m₁) {f : β → EStateM ε Machine α} :
    Tracks P (x >>= f) x' Q :=
  .stops fun _ _ _ hr =>
    have ⟨_, _, hx, _⟩ := ok_of_bind hr
    h _ _ _ hx

theorem ite {p : Prop} [Decidable p] (hx : Tracks P x x' Q) (hy : Tracks P y y' Q) :
    Tracks P (if p then x else y) (if p then x' else y') Q := by
  split
  · exact hx
  · exact hy

theorem weaken (h : Tracks P x x' Q) (hP : ∀ c c', P' c c' → P c c')
    (hQ : ∀ a a' c c', Q a a' c c' → R a a' c c') : Tracks P' x x' R := by
  intro m c a m₁ hp hx
  obtain ⟨a', c₁, moved, q⟩ := h m c a m₁ (hP _ _ hp) hx
  exact ⟨a', c₁, moved, hQ _ _ _ _ q⟩

/-- What is known of the places only. -/
theorem assuming {p : Prop} (h : p → Tracks P x x' Q) :
    Tracks (fun c c' => p ∧ P c c') x x' Q :=
  fun m c a m₁ ⟨hp, hP⟩ hx => h hp m c a m₁ hP hx

theorem lift {x x' : Run α} (hx : Tracks P x x' Q) : Tracks P (liftM x : Eval α) (liftM x') Q := by
  intro m c a m₁ hP h
  rw [Quiet.run_lift] at h
  cases hr : x m with
  | error f m₂ =>
    rw [hr] at h
    contradiction
  | ok b m₂ =>
    rw [hr] at h
    obtain ⟨rfl, rfl⟩ := EStateM.Result.ok.inj h
    obtain ⟨a', c₁, moved, q⟩ := hx m c b m₂ hP hr
    exact ⟨a', c₁, by rw [Quiet.run_lift, moved], q⟩

/-- What runs a computation on a machine made of `m`, and puts the machine right afterwards. -/
theorem around {enclosed enclosed' : EStateM ε Machine α} (enter : Machine → Machine)
    (leave : Machine → Machine → Machine)
    (hin : ∀ m c, (enter m).moved c = enter (m.moved c))
    (hout : ∀ m m' c c', (leave m m').moved c' = leave (m.moved c) (m'.moved c'))
    (hcursor : ∀ m, (enter m).thread.cursor = m.thread.cursor)
    (hcursor' : ∀ m m', (leave m m').thread.cursor = m'.thread.cursor)
    (hok : ∀ m a m', enclosed m = .ok a m' → ∃ m₁, x (enter m) = .ok a m₁ ∧ m' = leave m m₁)
    (hok' : ∀ m a m', x' (enter m) = .ok a m' → enclosed' m = .ok a (leave m m'))
    (hx : Tracks P x x' Q) : Tracks P enclosed enclosed' Q := by
  intro m c a m' hP h
  obtain ⟨m₁, run, rfl⟩ := hok m a m' h
  obtain ⟨a', c₁, run', hQ⟩ := hx _ c a m₁ (hcursor m ▸ hP) run
  rw [hin] at run'
  exact ⟨a', c₁, by rw [hok' _ _ _ run', hout], (hcursor' m m₁).symm ▸ hQ⟩

theorem holding (vs : List Value) (hx : Tracks P x x' Q) :
    Tracks P (Eval.holding vs x) (Eval.holding vs x') Q := by
  refine .around (fun m => { m with pinned := .values vs :: m.pinned })
    (fun m m' => { m' with pinned := m.pinned }) (fun _ _ => rfl) (fun _ _ _ _ => rfl)
    (fun _ => rfl) (fun _ _ => rfl) (fun m a m' h => ?_) (fun m a m' h => ?_) hx
  · simp only [Eval.holding, Eval.pinning] at h
    split at h
    · obtain ⟨rfl, rfl⟩ := EStateM.Result.ok.inj h
      exact ⟨_, ‹_›, rfl⟩
    · contradiction
  · simp only [Eval.holding, Eval.pinning, h]

theorem skipping (hx : Tracks P x x' Q) : Tracks P (Eval.skipping x) (Eval.skipping x') Q := by
  refine .around (fun m => { m with thread := { m.thread with skip := m.thread.skip + 1 } })
    (fun _ m' => { m' with thread := { m'.thread with skip := m'.thread.skip - 1 } })
    (fun _ _ => rfl) (fun _ _ _ _ => rfl) (fun _ => rfl) (fun _ _ => rfl) (fun m a m' h => ?_)
    (fun m a m' h => ?_) hx
  · simp only [Eval.skipping] at h
    split at h
    · obtain ⟨rfl, rfl⟩ := EStateM.Result.ok.inj h
      exact ⟨_, ‹_›, rfl⟩
    · contradiction
  · simp only [Eval.skipping, h]

end Tracks

/-- From side by side to side by side, with the same result. -/
def Alongside (e : Excerpt) (n n' : Nat) (x x' : EStateM ε Machine α) : Prop :=
  Tracks (Abreast e n) x x' (Same (Abreast e n'))

/-- Both cursors are on a token of the kind `k`. -/
structure OnKind (e : Excerpt) (n : Nat) (k : TokenKind) (c c' : Cursor) : Prop where
  abreast : Abreast e n c c'
  kind : c.kind = k
  kind' : c'.kind = k

/-- The code is over. -/
structure Over (e : Excerpt) (c c' : Cursor) : Prop where
  abreast : Abreast e 0 c c'
  kind : c.kind = .rparen
  kind' : c'.kind = .eof

/-- Both cursors are on a name with `=` behind it. -/
structure Named (e : Excerpt) (n : Nat) (c c' : Cursor) : Prop where
  name : OnKind e n .ident c c'
  assign : ∃ d d', c.bump = .ok d ∧ c'.bump = .ok d' ∧ OnKind e n .assign d d'

namespace Tracks

variable {Q : α → α → Cursor → Cursor → Prop} {x x' : EStateM ε Machine α} {k : TokenKind}

theorem on (h : Tracks (Abreast e n) x x' Q) : Tracks (OnKind e n k) x x' Q :=
  h.weaken (fun _ _ h => h.abreast) fun _ _ _ _ h => h

theorem ended (h : Tracks (Abreast e 0) x x' Q) : Tracks (Over e) x x' Q :=
  h.weaken (fun _ _ h => h.abreast) fun _ _ _ _ h => h

/-- The cursors are on the same kind of token, or the code is over. -/
theorem split (hk : ∀ k, k ≠ .eof → Tracks (OnKind e n k) x x' Q)
    (hover : n = 0 → Tracks (Over e) x x' Q) : Tracks (Abreast e n) x x' Q := by
  intro m c a m₁ h hx
  obtain ⟨same, token⟩ | ⟨rfl, paren, ended⟩ := h.kind
  · exact hk _ token m c a m₁ ⟨h, rfl, same⟩ hx
  · exact hover rfl m c a m₁ ⟨h, paren, ended⟩ hx

/-- Inside of a bracket the code is not over. -/
theorem split_inside (hk : ∀ k, k ≠ .eof → Tracks (OnKind e (n + 1) k) x x' Q) :
    Tracks (Abreast e (n + 1)) x x' Q := .split hk nofun

end Tracks

namespace Eval

/-! ### Moves -/

section Moves

variable {k : TokenKind} {S : β → β → Cursor → Cursor → Prop}

theorem bump_run {m : Machine} {d : Cursor} (hd : m.thread.cursor.bump = .ok d) :
    bump m = .ok m.thread.cursor.current (m.moved d) := by
  simp only [bump, current, move, bind, EStateM.bind, hd]
  rfl

theorem advance_run {m : Machine} {d : Cursor} (hd : m.thread.cursor.advance k = .ok d) :
    advance k m = .ok m.thread.cursor.current (m.moved d) := by
  simp only [advance, current, move, bind, EStateM.bind, hd]
  rfl

theorem ok_of_bump {m m₁ : Machine} {t : Token} (h : bump m = .ok t m₁) :
    ∃ d, m.thread.cursor.bump = .ok d ∧ t = m.thread.cursor.current ∧ m₁ = m.moved d := by
  cases hd : m.thread.cursor.bump with
  | ok d =>
    rw [bump_run hd] at h
    obtain ⟨rfl, rfl⟩ := EStateM.Result.ok.inj h
    exact ⟨d, rfl, rfl, rfl⟩
  | error f =>
    simp only [bump, current, move, bind, EStateM.bind, hd] at h
    contradiction

theorem ok_of_advance {m m₁ : Machine} {t : Token} (h : advance k m = .ok t m₁) :
    ∃ d, m.thread.cursor.kind = k ∧ m.thread.cursor.bump = .ok d ∧ t = m.thread.cursor.current ∧
      m₁ = m.moved d := by
  cases hd : m.thread.cursor.advance k with
  | ok d =>
    rw [advance_run hd] at h
    obtain ⟨rfl, rfl⟩ := EStateM.Result.ok.inj h
    unfold Cursor.advance at hd
    split at hd
    · exact ⟨d, ‹_›, hd, rfl, rfl⟩
    · contradiction
  | error f =>
    simp only [advance, current, move, bind, EStateM.bind, hd] at h
    contradiction

/-- The token both cursors pass is the same. -/
theorem tracks_bump (hk : k ≠ .eof) : Tracks (OnKind e n k) bump bump fun t t' c c' =>
    (t.Alike t' ∧ t.kind = k) ∧ Abreast e (k.depthBehind n) c c' := by
  intro m c t m₁ ⟨h, here, here'⟩ hb
  obtain ⟨d, hd, rfl, rfl⟩ := ok_of_bump hb
  have token : c.kind ≠ .eof := here' ▸ hk
  obtain ⟨d₁, d', hd₁, hd', -, -, next⟩ := h.bump token
  obtain rfl := Except.ok.inj (hd.symm.trans hd₁)
  subst here
  exact ⟨_, d', bump_run hd', ⟨⟨here', h.text token⟩, rfl⟩, next⟩

theorem tracks_bump_named : Tracks (Named e n) bump bump fun t t' c c' =>
    t.Alike t' ∧ OnKind e n .assign c c' := by
  intro m c t m₁ h hb
  obtain ⟨d, d', hd, hd', next⟩ := h.assign
  rw [bump_run hd] at hb
  obtain ⟨rfl, rfl⟩ := EStateM.Result.ok.inj hb
  refine ⟨_, d', bump_run hd', ⟨h.name.kind'.trans h.name.kind.symm, ?_⟩, next⟩
  exact h.name.abreast.text (h.name.kind' ▸ nofun)

theorem tracks_advance (hk : k ≠ .eof) (hn : k = .rparen → 0 < n) :
    Tracks (Abreast e n) (advance k) (advance k) fun t t' c c' =>
      t.Alike t' ∧ Abreast e (k.depthBehind n) c c' := by
  intro m c t m₁ h ha
  obtain ⟨d, here, hd, rfl, rfl⟩ := ok_of_advance ha
  obtain ⟨same, token⟩ | ⟨rfl, paren, -⟩ := h.kind
  · have token' : c.kind ≠ .eof := same ▸ token
    obtain ⟨d₁, d', hd₁, hd', -, -, next⟩ := h.bump token'
    obtain rfl := Except.ok.inj (hd.symm.trans hd₁)
    subst here
    have moved : c.advance m.thread.cursor.kind = .ok d' := by rw [Cursor.advance, if_pos same, hd']
    exact ⟨_, d', advance_run moved, ⟨same, h.text token'⟩, next⟩
  · exact absurd (hn (here.symm.trans paren)) (Nat.lt_irrefl 0)

theorem tracks_kind_on {f f' : TokenKind → EStateM ε Machine β}
    (hf : Tracks (OnKind e n k) (f k) (f' k) S) :
    Tracks (OnKind e n k) (kind >>= f) (kind >>= f') S := by
  intro m c b m₁ h hr
  obtain ⟨_, rfl, here⟩ := h
  have h : OnKind e n _ _ _ := ⟨‹_›, rfl, here⟩
  obtain ⟨b', c₁, moved, hS⟩ := hf m c b m₁ h hr
  refine ⟨b', c₁, ?_, hS⟩
  show f' c.kind (m.moved c) = _
  rw [here, moved]

theorem tracks_kind_over {f f' : TokenKind → EStateM ε Machine β}
    (hf : Tracks (Over e) (f .rparen) (f' .eof) S) :
    Tracks (Over e) (kind >>= f) (kind >>= f') S := by
  intro m c b m₁ h hr
  change f m.thread.cursor.kind m = _ at hr
  rw [h.kind] at hr
  obtain ⟨b', c₁, moved, hS⟩ := hf m c b m₁ h hr
  refine ⟨b', c₁, ?_, hS⟩
  show f' c.kind (m.moved c) = _
  rw [h.kind', moved]

/-- A token of the kind `k` is passed if it is there. -/
theorem tracks_skipOver (hk : k ≠ .eof) (hn : k = .rparen → 0 < n) :
    Tracks (Abreast e n) (skipOver k) (skipOver k) fun b b' c c' =>
      b' = b ∧ Abreast e (if b then k.depthBehind n else n) c c' := by
  refine .split (fun k' hk' => tracks_kind_on ?_) fun hz => tracks_kind_over ?_
  · by_cases here : k' = k
    · subst here
      rw [if_pos rfl]
      exact .bind (tracks_bump hk) fun t t' => .pure fun _ _ h => ⟨rfl, h.2⟩
    · rw [if_neg here]
      exact .pure fun _ _ h => ⟨rfl, h.abreast⟩
  · subst hz
    rw [if_neg fun h => absurd (hn h.symm) (Nat.lt_irrefl 0), if_neg (Ne.symm hk)]
    exact .pure fun _ _ h => ⟨rfl, h.abreast⟩

/-- No bracket is opened or closed. -/
theorem along_skipOver (hk : k ≠ .eof) (ho : k.opens = false) (hc : k.closes = false) :
    Alongside e n n (skipOver k) (skipOver k) := by
  have stays : k.depthBehind n = n := by
    rw [TokenKind.depthBehind, ho, hc]
    rfl
  refine (tracks_skipOver hk (by rintro rfl; contradiction)).weaken (fun _ _ h => h) fun b b' c c' h => ?_
  rw [stays, ite_self] at h
  exact h

theorem tracks_current : Tracks P (current : EStateM ε Machine Token) current fun _ _ => P := by
  intro m c t m₁ h hr
  obtain ⟨rfl, rfl⟩ := EStateM.Result.ok.inj hr
  exact ⟨_, c, rfl, h⟩

/-- Positions of tokens that stand side by side. -/
def Marks (e : Excerpt) (n : Nat) (p p' : Position) : Prop :=
  ∃ c c', Abreast e n c c' ∧ c.capture = p ∧ c'.capture = p'

theorem tracks_capture : Tracks (Abreast e n) (capture : EStateM ε Machine Position) capture
    fun p p' c c' => Marks e n p p' ∧ Abreast e n c c' := by
  intro m c p m₁ h hr
  obtain ⟨rfl, rfl⟩ := EStateM.Result.ok.inj hr
  exact ⟨_, c, rfl, ⟨_, _, h, rfl, rfl⟩, h⟩

/-- Back to where they were side by side. -/
theorem along_rewind {n' : Nat} {p p' : Position} (hp : Marks e n p p') :
    Alongside e n' n (rewind p) (rewind p') := by
  intro m c u m₁ h hr
  obtain ⟨b, b', marked, rfl, rfl⟩ := hp
  obtain ⟨d, d', hd, hd', back⟩ := marked.rewind h.source h.source'
  simp only [rewind, move, hd] at hr
  obtain ⟨rfl, rfl⟩ := EStateM.Result.ok.inj hr
  refine ⟨_, d', ?_, rfl, back⟩
  simp only [rewind, move]
  rw [show (m.moved c).thread.cursor = c from rfl, hd']
  rfl

end Moves

end Eval

/-- Both jobs that read expressions give in place what they give alone, and a call does not look at the
place. -/
structure Jobs.Along (e : Excerpt) (j : Jobs) : Prop where
  expression : ∀ n, Alongside e n n j.expression j.expression
  unary : ∀ n, Alongside e n n j.unary j.unary
  invoke : j.Placeless

namespace Eval

/-! ### Operands -/

theorem along_unlessSkipping {n n' : Nat} {x x' : Eval Held} (hx : Alongside e n n' x x')
    (hn : n' = n) : Alongside e n n' (unlessSkipping x) (unlessSkipping x') := by
  subst hn
  exact .bind_same (.of_placeless placeless_isSkipping) fun _ => .ite (.same _) hx

theorem along_made (f : StateM Heap Value) :
    Alongside e n n (unlessSkipping (do return .fresh (← onHeap f)))
      (unlessSkipping (do return .fresh (← onHeap f))) :=
  along_unlessSkipping (.bind_same (.of_placeless (placeless_onHeap _)) fun _ => .same _) rfl

section Jobs

variable {j : Jobs} (hj : j.Along e)

include hj

theorem along_items {close : TokenKind} (fuel : Nat) (read : List Value) :
    Alongside e (n + 1) (n + 1) (items j close fuel read) (items j close fuel read) := by
  induction fuel generalizing read with
  | zero => exact .stops exhausted_ne_ok
  | succ fuel ih =>
    refine .split_inside fun k _ => tracks_kind_on (.ite (.on (.same _)) (.on ?_))
    refine .bind_same (.holding _ (hj.expression _)) fun _ =>
      .bind_same (.of_placeless (placeless_own _)) fun _ => ?_
    exact .bind_same (.lift (along_skipOver nofun rfl rfl)) fun _ => .ite (ih _) (.same _)

theorem along_arrayLiteral (fuel : Nat) :
    Alongside e (n + 1) n (arrayLiteral j fuel) (arrayLiteral j fuel) := by
  refine .bind_same (along_items hj fuel []) fun values => ?_
  exact .bind (.lift (tracks_advance nofun nofun)) fun _ _ => .assuming fun _ => along_made _

theorem along_tupleItems (fuel : Nat) (read : List Value) :
    Alongside e (n + 1) (n + 1) (tupleItems j fuel read) (tupleItems j fuel read) := by
  induction fuel generalizing read with
  | zero => exact .stops exhausted_ne_ok
  | succ fuel ih =>
    refine .bind_same (.lift (along_skipOver nofun rfl rfl)) fun _ => .ite (.same _) ?_
    refine .split_inside fun k _ => tracks_kind_on (.ite (.on (.same _)) (.on ?_))
    exact .bind_same (.holding _ (hj.expression _)) fun _ =>
      .bind_same (.of_placeless (placeless_own _)) fun _ => ih _

theorem along_parenthesized (fuel : Nat) :
    Alongside e (n + 1) n (parenthesized j fuel) (parenthesized j fuel) := by
  refine .bind (.lift (tracks_skipOver nofun fun _ => Nat.succ_pos n)) fun b b' =>
    .assuming fun hb => ?_
  subst hb
  cases b' with
  | true => exact along_made _
  | false =>
    refine .bind_same (hj.expression _) fun first => ?_
    refine .split_inside fun k _ => tracks_kind_on (.ite (.on ?_) (.on ?_))
    · exact .bind (.lift (tracks_advance nofun fun _ => Nat.succ_pos n)) fun _ _ =>
        .assuming fun _ => .same _
    · refine .bind_same (.of_placeless (placeless_own _)) fun _ =>
        .bind_same (along_tupleItems hj _ _) fun values => ?_
      exact .bind (.lift (tracks_advance nofun fun _ => Nat.succ_pos n)) fun _ _ =>
        .assuming fun _ => along_made _

theorem along_dictEntries (fuel : Nat) (d : Dict Value) :
    Alongside e (n + 1) (n + 1) (dictEntries j fuel d) (dictEntries j fuel d) := by
  induction fuel generalizing d with
  | zero => exact .stops exhausted_ne_ok
  | succ fuel ih =>
    refine .split_inside fun k _ => tracks_kind_on (.ite (.on (.same _)) (.on ?_))
    refine .bind tracks_current fun site site' => .bind_same (.holding _ (hj.expression _)) fun key => ?_
    refine .bind (.lift (tracks_advance nofun nofun)) fun _ _ => .assuming fun _ => ?_
    refine .bind_same (.holding _ (hj.expression _)) fun _ =>
      .bind_same (.of_placeless (placeless_own _)) fun v => ?_
    have more (d : Dict Value) : Alongside e (n + 1) (n + 1)
        (do if ← skipOver .comma then dictEntries j fuel d else return d : Eval (Dict Value))
        (do if ← skipOver .comma then dictEntries j fuel d else return d) :=
      .bind_same (.lift (along_skipOver nofun rfl rfl)) fun _ => .ite (ih _) (.same _)
    refine .bind_same (.of_placeless placeless_isSkipping) fun _ => .ite ?_ ?_
    · exact .bind_same (.same _) fun _ => more _
    · cases key.value with
      | str k => exact .bind_same (.same _) fun _ => more _
      | _ => exact .bind_same (.of_placeless (placeless_complain _ _ _)) fun _ => more _

theorem along_dictLiteral (fuel : Nat) :
    Alongside e (n + 1) n (dictLiteral j fuel) (dictLiteral j fuel) := by
  refine .bind_same (along_dictEntries hj fuel {}) fun d => ?_
  exact .bind (.lift (tracks_advance nofun nofun)) fun _ _ => .assuming fun _ => along_made _

omit hj in
theorem tracks_isNamed : Tracks (Abreast e (n + 1)) arguments.isNamed arguments.isNamed
    fun b b' c c' => b' = b ∧ Abreast e (n + 1) c c' ∧ (b = true → Named e (n + 1) c c') := by
  refine .split_inside fun k hk => tracks_kind_on ?_
  by_cases here : k = .ident
  · subst here
    rw [if_neg (by simp)]
    intro m c b m₁ h hr
    obtain ⟨d, d', hd, hd', -, -, next⟩ := h.abreast.bump (h.kind' ▸ nofun)
    rw [h.kind] at next
    have peek : m.thread.cursor.peek = .ok d.current := by rw [Cursor.peek_eq, hd, Except.map]
    have peek' : c.peek = .ok d'.current := by rw [Cursor.peek_eq, hd', Except.map]
    rw [bind_of_ok (get_run m), peek] at hr
    obtain ⟨rfl, rfl⟩ := EStateM.Result.ok.inj hr
    refine ⟨d'.current.kind == .assign, c, ?_, ?_, h.abreast, fun assign => ⟨h, d, d', hd, hd', ?_⟩⟩
    · rw [bind_of_ok (get_run _), show (m.moved c).thread.cursor.peek = .ok d'.current from peek']
      rfl
    · rw [show d'.current.kind = d.current.kind from Abreast.kind_inside next]
    · have assign : d.kind = .assign := eq_of_beq assign
      exact ⟨next, assign, (Abreast.kind_inside next).trans assign⟩
  · rw [if_pos here]
    exact .pure fun _ _ h => ⟨rfl, h.abreast, nofun⟩

omit hj in
theorem tracks_finish {args args' : CallArgs} (h : args.Alike args') :
    Tracks (Abreast e (n + 1)) (arguments.finish args) (arguments.finish args') fun args args' c c' =>
      args.Alike args' ∧ Abreast e n c c' := by
  refine .bind (tracks_advance nofun fun _ => Nat.succ_pos n) fun _ _ => .assuming fun _ => ?_
  exact .pure fun _ _ hc => ⟨h, hc⟩

theorem tracks_arguments (fuel : Nat) {args args' : CallArgs} (h : args.Alike args') :
    Tracks (Abreast e (n + 1)) (arguments j fuel args) (arguments j fuel args') fun args args' c c' =>
      args.Alike args' ∧ Abreast e n c c' := by
  induction fuel generalizing args args' with
  | zero => exact .stops exhausted_ne_ok
  | succ fuel ih =>
    refine .split_inside fun k _ => tracks_kind_on (.ite (.on (.lift (tracks_finish h))) (.on ?_))
    have more {args args' : CallArgs} (h : args.Alike args') : Tracks (Abreast e (n + 1))
        (do if ← skipOver .comma then arguments j fuel args else arguments.finish args : Eval CallArgs)
        (do if ← skipOver .comma then arguments j fuel args' else arguments.finish args')
        fun args args' c c' => args.Alike args' ∧ Abreast e n c c' :=
      .bind_same (.lift (along_skipOver nofun rfl rfl)) fun _ =>
        .ite (ih h) (.lift (tracks_finish h))
    refine .bind (.lift tracks_isNamed) fun b b' => .assuming fun hb => ?_
    subst hb
    cases b' with
    | true =>
      refine .weaken (P := Named e (n + 1)) ?_ (fun _ _ h => h.2 rfl) fun _ _ _ _ h => h
      refine .bind (.lift tracks_bump_named) fun name name' => .assuming fun alike => ?_
      refine .bind (.lift (tracks_bump nofun)) fun _ _ => .assuming fun _ => ?_
      rw [h.values, alike.text]
      exact .bind_same (.holding _ (hj.expression _)) fun _ =>
        .bind_same (.of_placeless (placeless_own _)) fun v =>
          .bind (Q := fun args args' c c' => args.Alike args' ∧ Abreast e (n + 1) c c')
            (.pure fun _ _ hc => ⟨h.addNamed _ v _ _, hc⟩) fun _ _ => .assuming more
    | false =>
      refine .weaken (P := Abreast e (n + 1)) ?_ (fun _ _ h => h.1) fun _ _ _ _ h => h
      have alike := h
      obtain ⟨positional, named⟩ := args
      obtain ⟨positional', named'⟩ := args'
      obtain ⟨rfl, rows⟩ : positional' = positional ∧ List.Forall₂ _ named named' :=
        ⟨h.positional, h.named⟩
      cases rows with
      | nil =>
        exact .bind_same (.holding _ (hj.expression _)) fun _ =>
          .bind_same (.of_placeless (placeless_own _)) fun v =>
            .bind_same (.same _) fun _ => more (.refl _)
      | cons => exact .stop_bind (fail_ne_ok _)

/-! ### Names, attributes, items and calls -/

omit hj in
/-- What a token that is a name stands for. -/
theorem along_name {token token' : Token} (h : token.Alike token') :
    Alongside e n n (name token) (name token') := by
  have looked {x x' : Option Value → Eval Held} (hn : Placeless (x none) (x' none))
      (hs : ∀ v, Placeless (x (some v)) (x' (some v))) :
      Placeless (lookup token.text >>= x) (lookup token.text >>= x') :=
    .bind (placeless_lookup _) fun found => by
      cases found with
      | none => exact hn
      | some v => exact hs v
  unfold name
  rw [h.text]
  refine .split (fun k _ => tracks_kind_on (.on ?_)) fun hn => tracks_kind_over ?_
  · refine .ite ?_ (.of_placeless (looked (placeless_complain _ _ _) fun _ => .pure _))
    split
    · exact .of_placeless (.bind (placeless_newFunction _) fun _ => .pure _)
    · exact .of_placeless (looked (placeless_complain _ _ _) fun _ => .pure _)
  · subst hn
    exact .ended (.of_placeless (looked (placeless_complain _ _ _) fun _ => .pure _))

theorem along_primary (fuel : Nat) : Alongside e n n (primary j fuel) (primary j fuel) := by
  refine .split (fun k hk => ?_) fun _ => ?_
  · refine .bind (.lift (tracks_bump hk)) fun token token' => .assuming fun ⟨alike, here⟩ => ?_
    rw [alike.kind, alike.text, here]
    cases k with
    | int | float | kwTrue | kwFalse | kwNull => exact .same _
    | str =>
      exact along_unlessSkipping (.bind_same
        (.of_placeless (placeless_interpolate hj.invoke alike.text)) fun _ => .same _) rfl
    | lparen => exact along_parenthesized hj fuel
    | lbracket => exact along_arrayLiteral hj fuel
    | lbrace => exact along_dictLiteral hj fuel
    | ident => exact along_unlessSkipping (along_name alike) rfl
    | kwSuper => exact along_unlessSkipping (.of_placeless (placeless_superProxy _ _)) rfl
    | _ => exact .stops (fail_ne_ok _)
  · -- nothing begins with the closing parenthesis
    intro m c a m₁ h hr
    obtain ⟨token, m₂, hb, hr⟩ := ok_of_bind hr
    rw [Quiet.run_lift] at hb
    split at hb
    · rename_i run
      obtain ⟨d, -, rfl, rfl⟩ := ok_of_bump run
      obtain ⟨rfl, rfl⟩ := EStateM.Result.ok.inj hb
      rw [show m.thread.cursor.current.kind = .rparen from h.kind] at hr
      exact absurd hr (fail_ne_ok _ _ _ _)
    · contradiction

theorem along_chain (fuel : Nat) (v : Held) : Alongside e n n (chain j fuel v) (chain j fuel v) := by
  induction fuel generalizing v with
  | zero => exact .stops exhausted_ne_ok
  | succ fuel ih =>
    refine .split (fun k hk => tracks_kind_on ?_) fun hn => tracks_kind_over ?_
    · cases k with
      | dot =>
        -- the two words differ in their places, and only the text is used
        have member {t t' : Token} (h : t.Alike t') : Alongside e n n
            (do
              if ← isSkipping then chain j fuel v
              else chain j fuel (← readAttribute v t.text t) : Eval Held)
            (do
              if ← isSkipping then chain j fuel v
              else chain j fuel (← readAttribute v t'.text t')) := by
          rw [h.text]
          exact .bind_same (.of_placeless placeless_isSkipping) fun _ => .ite (ih _)
            (.bind_same (.of_placeless (placeless_readAttribute _ _ _ _)) fun _ => ih _)
        refine .bind (.lift (tracks_bump hk)) fun _ _ => .assuming fun _ => ?_
        refine .split (fun k hk => tracks_kind_on ?_) fun hn => tracks_kind_over ?_
        · by_cases here : k = .kwBlueprint
          · subst here
            rw [if_pos rfl]
            exact .bind (.lift (tracks_bump hk)) fun _ _ => .assuming fun ⟨alike, _⟩ => member alike
          · rw [if_neg here]
            exact .on (.bind (.lift (tracks_advance nofun nofun)) fun _ _ => .assuming member)
        · cases hn
          exact .ended (.bind (.lift (tracks_advance nofun nofun)) fun _ _ => .assuming member)
      | lbracket =>
        refine .bind (.lift (tracks_bump hk)) fun _ _ => .assuming fun _ => ?_
        refine .bind_same (.holding _ (hj.expression _)) fun index => ?_
        refine .bind (.lift (tracks_advance nofun nofun)) fun _ _ => .assuming fun _ => ?_
        refine .bind_same (.of_placeless placeless_isSkipping) fun _ => .ite (ih _) ?_
        exact .bind_same (.of_placeless (placeless_own _)) fun _ =>
          .bind_same (.of_placeless (placeless_readItem _ _ _ _)) fun _ => ih _
      | lparen =>
        refine .bind (.lift (tracks_bump hk)) fun _ _ => .assuming fun _ => ?_
        refine .bind (.holding _ (tracks_arguments hj fuel (.refl _))) fun _ _ => .assuming fun h => ?_
        refine .bind_same (.of_placeless placeless_isSkipping) fun _ => .ite (ih _) ?_
        exact .bind_same (.of_placeless (hj.invoke _ h _ _)) fun _ => ih _
      | _ => exact .on (.same _)
    · subst hn
      exact .ended (.same _)

theorem along_power (fuel : Nat) : Alongside e n n (power j fuel) (power j fuel) := by
  refine .bind_same (along_primary hj fuel) fun _ => .bind_same (along_chain hj fuel _) fun base => ?_
  refine .split (fun k hk => tracks_kind_on ?_) fun hn => tracks_kind_over ?_
  · by_cases here : k = .caret
    · subst here
      rw [if_neg (by simp)]
      refine .bind (.lift (tracks_bump hk)) fun op op' => .assuming fun ⟨alike, _⟩ => ?_
      refine .bind_same (.holding _ (hj.unary _)) fun _ => ?_
      rw [alike.power]
      exact along_unlessSkipping (.bind_same (.of_placeless (placeless_orComplain _ _ _)) fun _ =>
        .same _) rfl
    · rw [if_pos here]
      exact .on (.same _)
  · subst hn
    exact .ended (.same _)

/-! ### Waiting and operators -/

theorem along_awaitExpr : Alongside e n n (awaitExpr j) (awaitExpr j) := by
  refine .bind (.lift (tracks_advance nofun nofun)) fun _ _ => .assuming fun _ => ?_
  refine .bind_same (.of_placeless placeless_mode) fun _ => .ite (.stop_bind (fail_ne_ok _)) ?_
  refine .bind_same (hj.unary _) fun operand => ?_
  refine .bind_same (.of_placeless placeless_isSkipping) fun _ => .ite (.same _) ?_
  refine .bind_same (.of_placeless placeless_replayed) fun outcome => ?_
  split
  · exact .of_placeless (placeless_resume _)
  · exact .of_placeless (placeless_waitFor _ _ _)

theorem along_unaryExpr (fuel : Nat) : Alongside e n n (unaryExpr j fuel) (unaryExpr j fuel) := by
  refine .split (fun k hk => tracks_kind_on ?_) fun hn => tracks_kind_over ?_
  · cases k with
    | kwNot =>
      refine .bind (.lift (tracks_bump hk)) fun _ _ => .assuming fun _ => ?_
      refine .bind_same (hj.unary _) fun _ => ?_
      exact along_unlessSkipping (.bind_same (.of_placeless (placeless_truthy _)) fun _ => .same _) rfl
    | minus =>
      refine .bind (.lift (tracks_bump hk)) fun _ _ => .assuming fun _ => ?_
      refine .bind_same (hj.unary _) fun _ => ?_
      exact along_unlessSkipping (.bind_same (.of_placeless (placeless_orComplain _ _ _)) fun _ =>
        .same _) rfl
    | kwAwait => exact .on (along_awaitExpr hj)
    | _ => exact .on (along_power hj fuel)
  · subst hn
    exact .ended (along_power hj fuel)

theorem along_multiplicativeTail (fuel : Nat) (left : Held) :
    Alongside e n n (multiplicativeTail j fuel left) (multiplicativeTail j fuel left) := by
  induction fuel generalizing left with
  | zero => exact .stops exhausted_ne_ok
  | succ fuel ih =>
    refine .split (fun k hk => tracks_kind_on ?_) fun hn => tracks_kind_over ?_
    · cases k with
      | star | slash | percent =>
        refine .bind (.lift (tracks_bump hk)) fun _ _ => .assuming fun ⟨alike, _⟩ => ?_
        refine .bind_same (.holding _ (hj.unary _)) fun _ => ?_
        refine .bind_same (.of_placeless placeless_isSkipping) fun _ => .ite (ih _) ?_
        exact .bind_same (.of_placeless (placeless_multiply alike _ _)) fun _ => ih _
      | _ => exact .on (.same _)
    · subst hn
      exact .ended (.same _)

theorem along_multiplicative (fuel : Nat) :
    Alongside e n n (multiplicative j fuel) (multiplicative j fuel) :=
  .bind_same (hj.unary _) fun _ => along_multiplicativeTail hj fuel _

theorem along_additiveTail (fuel : Nat) (left : Held) :
    Alongside e n n (additiveTail j fuel left) (additiveTail j fuel left) := by
  induction fuel generalizing left with
  | zero => exact .stops exhausted_ne_ok
  | succ fuel ih =>
    refine .split (fun k hk => tracks_kind_on ?_) fun hn => tracks_kind_over ?_
    · cases k with
      | plus =>
        refine .bind (.lift (tracks_bump hk)) fun _ _ => .assuming fun ⟨alike, _⟩ => ?_
        refine .bind_same (.holding _ (along_multiplicative hj fuel)) fun _ => ?_
        refine .bind_same (.of_placeless placeless_isSkipping) fun _ => .ite (ih _) ?_
        exact .bind_same (.of_placeless (placeless_add hj.invoke alike _ _)) fun _ => ih _
      | minus =>
        refine .bind (.lift (tracks_bump hk)) fun _ _ => .assuming fun ⟨alike, _⟩ => ?_
        refine .bind_same (.holding _ (along_multiplicative hj fuel)) fun _ => ?_
        refine .bind_same (.of_placeless placeless_isSkipping) fun _ => .ite (ih _) ?_
        rw [alike.numeric]
        exact .bind_same (.of_placeless (placeless_orComplain _ _ _)) fun _ => ih _
      | _ => exact .on (.same _)
    · subst hn
      exact .ended (.same _)

theorem along_additive (fuel : Nat) : Alongside e n n (additive j fuel) (additive j fuel) :=
  .bind_same (along_multiplicative hj fuel) fun _ => along_additiveTail hj fuel _

theorem along_comparisonTail (fuel : Nat) (left : Held) :
    Alongside e n n (comparisonTail j fuel left) (comparisonTail j fuel left) := by
  induction fuel generalizing left with
  | zero => exact .stops exhausted_ne_ok
  | succ fuel ih =>
    refine .split (fun k hk => tracks_kind_on ?_) fun hn => tracks_kind_over ?_
    · cases k with
      | lt | gt | lte | gte =>
        refine .bind (.lift (tracks_bump hk)) fun _ _ => .assuming fun ⟨alike, _⟩ => ?_
        refine .bind_same (.holding _ (along_additive hj fuel)) fun _ => ?_
        refine .bind_same (.of_placeless placeless_isSkipping) fun _ => .ite (ih _) ?_
        rw [alike.compare]
        exact .bind_same (.of_placeless (placeless_orComplain _ _ _)) fun _ => ih _
      | _ => exact .on (.same _)
    · subst hn
      exact .ended (.same _)

theorem along_comparison (fuel : Nat) : Alongside e n n (comparison j fuel) (comparison j fuel) :=
  .bind_same (along_additive hj fuel) fun _ => along_comparisonTail hj fuel _

theorem along_identityTail (fuel : Nat) (left : Held) :
    Alongside e n n (identityTail j fuel left) (identityTail j fuel left) := by
  induction fuel generalizing left with
  | zero => exact .stops exhausted_ne_ok
  | succ fuel ih =>
    refine .bind_same (.lift (along_skipOver nofun rfl rfl)) fun _ => .ite (.same _) ?_
    refine .bind_same (.lift (along_skipOver nofun rfl rfl)) fun negated => ?_
    refine .bind_same (.holding _ (along_comparison hj fuel)) fun right => ?_
    exact .bind_same (.of_placeless placeless_isSkipping) fun _ => .ite (ih _) (ih _)

theorem along_identity (fuel : Nat) : Alongside e n n (identity j fuel) (identity j fuel) :=
  .bind_same (along_comparison hj fuel) fun _ => along_identityTail hj fuel _

theorem along_equalityTail (fuel : Nat) (left : Held) :
    Alongside e n n (equalityTail j fuel left) (equalityTail j fuel left) := by
  induction fuel generalizing left with
  | zero => exact .stops exhausted_ne_ok
  | succ fuel ih =>
    refine .split (fun k hk => tracks_kind_on ?_) fun hn => tracks_kind_over ?_
    · cases k with
      | eq | neq =>
        refine .bind (.lift (tracks_bump hk)) fun _ _ => .assuming fun ⟨alike, _⟩ => ?_
        refine .bind_same (.holding _ (along_identity hj fuel)) fun right => ?_
        rw [alike.kind]
        exact .bind_same (.of_placeless placeless_isSkipping) fun _ => .ite (ih _) (ih _)
      | _ => exact .on (.same _)
    · subst hn
      exact .ended (.same _)

theorem along_equality (fuel : Nat) : Alongside e n n (equality j fuel) (equality j fuel) :=
  .bind_same (along_identity hj fuel) fun _ => along_equalityTail hj fuel _

theorem along_andTail (fuel : Nat) (left : Held) :
    Alongside e n n (andTail j fuel left) (andTail j fuel left) := by
  induction fuel generalizing left with
  | zero => exact .stops exhausted_ne_ok
  | succ fuel ih =>
    refine .bind_same (.lift (along_skipOver nofun rfl rfl)) fun _ => .ite (.same _) ?_
    refine .bind_same (.of_placeless placeless_isSkipping) fun _ =>
      .bind_same (.of_placeless (placeless_truthy _)) fun _ => .ite ?_ ?_
    · exact .bind_same (.skipping (along_equality hj fuel)) fun _ => ih _
    · exact .bind_same (.holding _ (along_equality hj fuel)) fun _ => ih _

theorem along_andExpr (fuel : Nat) : Alongside e n n (andExpr j fuel) (andExpr j fuel) :=
  .bind_same (along_equality hj fuel) fun _ => along_andTail hj fuel _

theorem along_orTail (fuel : Nat) (left : Held) :
    Alongside e n n (orTail j fuel left) (orTail j fuel left) := by
  induction fuel generalizing left with
  | zero => exact .stops exhausted_ne_ok
  | succ fuel ih =>
    refine .bind_same (.lift (along_skipOver nofun rfl rfl)) fun _ => .ite (.same _) ?_
    refine .bind_same (.of_placeless placeless_isSkipping) fun _ =>
      .bind_same (.of_placeless (placeless_truthy _)) fun _ => .ite ?_ ?_
    · exact .bind_same (.skipping (along_andExpr hj fuel)) fun _ => ih _
    · exact .bind_same (.holding _ (along_andExpr hj fuel)) fun _ => ih _

theorem along_orExpr (fuel : Nat) : Alongside e n n (orExpr j fuel) (orExpr j fuel) :=
  .bind_same (along_andExpr hj fuel) fun _ => along_orTail hj fuel _

/-! ### Conditional expressions -/

theorem along_skipConditional (fuel : Nat) :
    Alongside e n n (skipConditional j fuel) (skipConditional j fuel) := by
  refine .bind_same (along_orExpr hj fuel) fun _ =>
    .bind_same (.lift (along_skipOver nofun rfl rfl)) fun _ => .ite ?_ (.same _)
  refine .bind_same (along_orExpr hj fuel) fun _ => ?_
  refine .bind (.lift (tracks_advance nofun nofun)) fun _ _ => .assuming fun _ => ?_
  exact .bind_same (hj.expression _) fun _ => .same _

theorem along_conditional (fuel : Nat) :
    Alongside e n n (conditional j fuel) (conditional j fuel) := by
  refine .bind_same (.of_placeless placeless_isSkipping) fun _ => .ite ?_ ?_
  · exact .bind_same (along_skipConditional hj fuel) fun _ => .same _
  intro m c v m₁ h hr
  rw [bind_of_ok (get_run m)] at hr
  rw [bind_of_ok (get_run _)]
  cases ahead : m.thread.cursor.conditionalAhead with
  | error failure =>
    rw [ahead] at hr
    exact absurd hr (fail_ne_ok _ _ _ _)
  | ok b =>
    have ahead' : (m.moved c).thread.cursor.conditionalAhead = .ok b := h.conditionalAhead ahead
    rw [ahead] at hr
    rw [ahead']
    cases b with
    | false => exact along_orExpr hj fuel m c v m₁ h hr
    | true =>
      -- the first part is passed twice, and both cursors come back to its beginning
      refine Tracks.bind tracks_capture (fun start start' => .assuming fun marks => ?_) m c v m₁ h hr
      refine .bind_same (.skipping (along_orExpr hj fuel)) fun _ => ?_
      refine .bind (.lift (tracks_advance nofun nofun)) fun _ _ => .assuming fun _ => ?_
      refine .bind_same (along_orExpr hj fuel) fun _ =>
        .bind_same (.of_placeless (placeless_truthy _)) fun taken => ?_
      refine .bind (.lift (tracks_advance nofun nofun)) fun _ _ => .assuming fun _ => ?_
      refine .ite (hj.expression _) (.bind_same (.lift (along_rewind marks)) fun _ => ?_)
      refine .bind_same (along_orExpr hj fuel) fun v => .bind_same (.skipping ?_) fun _ => .same _
      refine .bind (.lift (tracks_advance nofun nofun)) fun _ _ => .assuming fun _ => ?_
      refine .bind_same (along_orExpr hj fuel) fun _ => ?_
      refine .bind (.lift (tracks_advance nofun nofun)) fun _ _ => .assuming fun _ => ?_
      exact .bind_same (hj.expression _) fun _ => .same _

end Jobs

end Eval

/-- An expression that has a value in place has it alone. -/
theorem along_jobs (e : Excerpt) (fuel : Nat) : (jobs fuel).Along e := by
  induction fuel with
  | zero => exact ⟨fun _ => .stops exhausted_ne_ok, fun _ => .stops exhausted_ne_ok, placeless_jobs 0⟩
  | succ fuel ih =>
    exact ⟨fun _ => along_conditional ih fuel, fun _ => along_unaryExpr ih fuel, placeless_jobs _⟩

end Rewind
