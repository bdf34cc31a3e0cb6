/-
Where expressions take the cursor.

An expression passes tokens one after another, and goes back only to a token it has come by.  So a
property of places that is handed on from token to token holds wherever an expression ends, and also
where it is given up; the mode and the frames to re-enter are then what they were.  An expression
passes a token before anything else, so it is no matter what the cursor had passed before it.

* `Cursor.Forward`, `Cursor.On` — the property is handed on from token to token; the token is one
  where it holds;
* `Leads`, `Onward`, `Moves` — where a computation ends, from a place, or from a token;
* `moves_primary`, …, `moves_conditional` — the levels of an expression;
* `strolls_jobs` — expressions.
-/
import Rewind.Session
import Rewind.Proofs.Stillness

namespace Rewind

/-- The cursors stand on the same token. -/
structure Cursor.Meets (c d : Cursor) : Prop where
  source : d.source = c.source
  current : d.current = c.current
  behind : d.behind = c.behind

namespace Cursor

section Meets

variable {c d : Cursor}

theorem Meets.refl (c : Cursor) : c.Meets c := ⟨rfl, rfl, rfl⟩

theorem Meets.symm (h : c.Meets d) : d.Meets c :=
  ⟨h.source.symm, h.current.symm, h.behind.symm⟩

theorem Meets.kind (h : c.Meets d) : d.kind = c.kind := congrArg Token.kind h.current

/-- What the next token is does not depend on what was passed. -/
theorem Meets.bump (h : c.Meets d) : d.bump = c.bump := by
  unfold Cursor.bump
  rw [h.source, h.current, h.behind]

theorem Meets.advance (h : c.Meets d) (k : TokenKind) : d.advance k = c.advance k := by
  unfold Cursor.advance
  rw [h.bump, h.kind, h.current]

theorem Meets.peek (h : c.Meets d) : d.peek = c.peek := by
  unfold Cursor.peek
  rw [h.current, h.behind]

end Meets

/-- The cursor stands on a token that is as `A` says, whatever it has come by. -/
def On (A : Cursor → Prop) (c : Cursor) : Prop := ∃ b, A b ∧ b.Meets c

/-- The position is the start of a token that is as `A` says. -/
def Marked (A : Cursor → Prop) (p : Position) : Prop := ∃ b, A b ∧ b.capture = p

/-- The property is one of the places of one source, and holds at the next token as well. -/
structure Forward (A : Cursor → Prop) : Prop where
  bump : ∀ {c d : Cursor}, A c → c.bump = .ok d → A d
  sound : ∀ {c : Cursor}, A c → c.Sound
  source : ∀ {c d : Cursor}, A c → A d → d.source = c.source

/-- The places of one source are handed on. -/
theorem forward_source (source : Source) : Forward fun c => c.Sound ∧ c.source = source where
  bump := fun ⟨hc, hs⟩ h =>
    have ⟨hd, hsd⟩ := Cursor.sound_bump hc h
    ⟨hd, hsd.trans hs⟩
  sound := fun h => h.1
  source := fun ⟨_, hs⟩ ⟨_, hsd⟩ => hsd.trans hs.symm

variable {A : Cursor → Prop} {c d : Cursor}

theorem On.of (h : A c) : On A c := ⟨c, h, .refl c⟩

theorem On.marked (h : On A c) : Marked A c.capture :=
  have ⟨b, hb, hm⟩ := h
  ⟨b, hb, congrArg Token.start hm.current.symm⟩

namespace Forward

variable (hA : Forward A)
include hA

theorem bump_on (h : On A c) (hd : c.bump = .ok d) : A d :=
  have ⟨_, hb, hm⟩ := h
  hA.bump hb (hm.bump.symm.trans hd)

/-- Back on the token that was come by. -/
theorem rewind_meets {b : Cursor} (hb : A b) (hc : A c) (h : c.rewind b.capture = .ok d) :
    b.Meets d := by
  have source := hA.source hb hc
  have holds : c.source.Holds b.current b.behind := source.symm ▸ hA.sound hb
  cases (Cursor.rewind_eq holds).symm.trans h
  exact ⟨source, rfl, rfl⟩

theorem rewind {p : Position} (hp : Marked A p) (hc : A c) (h : c.rewind p = .ok d) : On A d := by
  obtain ⟨b, hb, rfl⟩ := hp
  exact ⟨b, hb, hA.rewind_meets hb hc h⟩

end Forward

end Cursor

/-- The thread is in the same body, with the same frames to re-enter. -/
structure Abides (m m' : Machine) : Prop where
  mode : m'.thread.mode = m.thread.mode
  resume : m'.thread.resume = m.thread.resume

theorem Abides.refl (m : Machine) : Abides m m := ⟨rfl, rfl⟩

theorem Abides.trans {m₁ m₂ m₃ : Machine} (h : Abides m₁ m₂) (h' : Abides m₂ m₃) : Abides m₁ m₃ :=
  ⟨h'.mode.trans h.mode, h'.resume.trans h.resume⟩

/-- The machine with its cursor at another place. -/
def Machine.moved (m : Machine) (c : Cursor) : Machine :=
  { m with thread := { m.thread with cursor := c } }

/-- A machine on the first token of a text. -/
def onText (text : String) : Machine :=
  match Cursor.ofSource ⟨0, text.toList⟩ with
  | .ok c => (Machine.new {}).moved c
  | .error _ => Machine.new {}

theorem sound_onText {text : String} (h : (Cursor.ofSource ⟨0, text.toList⟩).isOk = true) :
    (onText text).thread.cursor.Sound := by
  unfold onText
  split
  · exact (Cursor.sound_ofSource ‹_›).1
  · rename_i hc
    rw [hc] at h
    nomatch h

theorem Unmoved.abides {m m' : Machine} (h : Unmoved true m m') : Abides m m' := ⟨h.mode, h.resume⟩

variable {ε α β : Type} [Stops ε] {A B : Cursor → Prop}

/-- A computation that began in the machine `m` has come to a place that is as `A` says, in the body
it was in, unless it ends the whole run. -/
def Walks (A : Cursor → Prop) (m : Machine) : EStateM.Result ε Machine α → Prop
  | .ok _ m' => A m'.thread.cursor ∧ Abides m m'
  | .error e m' =>
    match Stops.interrupt e with
    | .fault _ => True
    | _ => A m'.thread.cursor ∧ Abides m m'

/-- Begun at a place that is as `B` says, the computation ends at one that is as `A` says. -/
def Leads (B A : Cursor → Prop) (x : EStateM ε Machine α) : Prop :=
  ∀ m, B m.thread.cursor → Walks A m (x m)

/-- What holds at the beginning holds at the end. -/
abbrev Onward (A : Cursor → Prop) (x : EStateM ε Machine α) : Prop := Leads A A x

/-- The computation moves on before anything else, so what its beginning has come by is no matter. -/
abbrev Moves (A : Cursor → Prop) (x : EStateM ε Machine α) : Prop := Leads (Cursor.On A) A x

/-- The computation comes to its end, with the cursor in place. -/
def Looks (x : EStateM ε Machine α) : Prop := ∀ m, ∃ a m', x m = .ok a m' ∧ Unmoved true m m'

omit [Stops ε] in
theorem Looks.read (f : Machine → α) : Looks (fun m => .ok (f m) m : EStateM ε Machine α) :=
  fun m => ⟨f m, m, rfl, .refl m⟩

theorem Looks.lift {x : Run α} (hx : Looks x) : Looks (liftM x : Eval α) := by
  intro m
  obtain ⟨a, m', h, hu⟩ := hx m
  exact ⟨a, m', by rw [Quiet.run_lift, h], hu⟩

theorem Walks.trans {m₁ m₂ : Machine} (h : Abides m₁ m₂) {r : EStateM.Result ε Machine α}
    (hr : Walks A m₂ r) : Walks A m₁ r := by
  cases r with
  | ok a m₃ => exact ⟨hr.1, h.trans hr.2⟩
  | error e m₃ =>
    simp only [Walks] at hr ⊢
    split at hr
    · trivial
    · exact ⟨hr.1, h.trans hr.2⟩

theorem Walks.mono {m : Machine} {r : EStateM.Result ε Machine α} (h : Walks B m r)
    (hBA : ∀ {c}, B c → A c) : Walks A m r := by
  cases r with
  | ok a m' => exact ⟨hBA h.1, h.2⟩
  | error e m' =>
    simp only [Walks] at h ⊢
    split at h
    · trivial
    · exact ⟨hBA h.1, h.2⟩

theorem Moves.onward {x : EStateM ε Machine α} (h : Moves A x) : Onward A x :=
  fun m hm => h m (.of hm)

theorem Still.onward {x : EStateM ε Machine α} (h : Still true x) : Onward A x := by
  intro m hm
  have hs := h m
  cases hr : x m with
  | ok a m' =>
    rw [hr] at hs
    exact ⟨hs.cursor ▸ hm, hs.abides⟩
  | error e m' =>
    rw [hr] at hs
    simp only [Walks, Stays] at hs ⊢
    cases hi : Stops.interrupt e <;> simp only [hi] at hs ⊢
    all_goals exact ⟨hs.cursor ▸ hm, hs.abides⟩

namespace Leads

theorem pure (a : α) : Onward A (Pure.pure a : EStateM ε Machine α) := fun m hm => ⟨hm, .refl m⟩

theorem bind {x : EStateM ε Machine α} {f : α → EStateM ε Machine β} (hx : Leads B A x)
    (hf : ∀ a, Onward A (f a)) : Leads B A (x >>= f) := by
  intro m hm
  have h := hx m hm
  show Walks A m (EStateM.bind x f m)
  unfold EStateM.bind
  cases hr : x m with
  | ok a m₁ =>
    rw [hr] at h
    exact .trans h.2 (hf a m₁ h.1)
  | error e m₁ =>
    rw [hr] at h
    exact h

theorem map (f : α → β) {x : EStateM ε Machine α} (hx : Leads B A x) : Leads B A (f <$> x) := by
  intro m hm
  have h := hx m hm
  show Walks A m (EStateM.map f x m)
  unfold EStateM.map
  cases hr : x m <;> · rw [hr] at h; exact h

/-- A look before anything else. -/
theorem look {x : EStateM ε Machine α} {f : α → EStateM ε Machine β} (hx : Looks x)
    (hf : ∀ a, Leads B A (f a)) : Leads B A (x >>= f) := by
  intro m hm
  obtain ⟨a, m', hr, h⟩ := hx m
  rw [Eval.bind_of_ok hr]
  exact .trans h.abides (hf a m' (h.cursor ▸ hm))

/-- A run has no way to end early but the end of all. -/
theorem lift {x : Run α} (hx : Leads B A x) : Leads B A (liftM x : Eval α) := by
  intro m hm
  have h := hx m hm
  rw [Quiet.run_lift]
  cases hr : x m with
  | ok a m' =>
    rw [hr] at h
    exact h
  | error f m' => trivial

/-- What ends the whole run may leave the cursor anywhere. -/
theorem fault (f : Fault) : Leads B A (throw f : Run α) := fun _ _ => trivial

theorem ite {p : Prop} [Decidable p] {x y : EStateM ε Machine α} (hx : Leads B A x)
    (hy : Leads B A y) : Leads B A (if p then x else y) := by
  split
  · exact hx
  · exact hy

/-- A check before the rest of a computation. -/
theorem guard {p : Prop} [Decidable p] {x : EStateM ε Machine PUnit}
    {f : PUnit → EStateM ε Machine β} (hx : Onward A x) (hf : Onward A (f ⟨⟩)) :
    Onward A (if p then x >>= f else f ⟨⟩) :=
  .ite (.bind hx fun _ => hf) hf

/-- A computation that has all of the machine at hand. -/
theorem get_bind {f : Machine → EStateM ε Machine β}
    (hf : ∀ m, B m.thread.cursor → Walks A m (f m m)) : Leads B A (get >>= f) := hf

/-- A computation that has the place of the current token at hand. -/
theorem capture_bind {f : Position → EStateM ε Machine β} (hB : ∀ {c}, B c → Cursor.On A c)
    (hf : ∀ p, Cursor.Marked A p → Leads B A (f p)) : Leads B A (Eval.capture >>= f) :=
  fun m hm => hf _ (hB hm).marked m hm

/-- A run that comes to a place of another kind, from which the rest goes on. -/
theorem lift_bind {C : Cursor → Prop} {x : Run α} {f : α → Eval β} (hx : Leads B C x)
    (hf : ∀ a, Leads C A (f a)) : Leads B A ((liftM x : Eval α) >>= f) := by
  intro m hm
  have h := hx m hm
  show Walks A m (EStateM.bind (liftM x : Eval α) f m)
  unfold EStateM.bind
  rw [Quiet.run_lift]
  cases hr : x m with
  | ok a m' =>
    rw [hr] at h
    exact .trans h.2 (hf a m' h.1)
  | error fault m' => trivial

end Leads

namespace Eval

section Moves

variable (hA : Cursor.Forward A)
include hA

omit hA in
theorem onward_current : Onward A (current : EStateM ε Machine Token) :=
  fun m hm => ⟨hm, .refl m⟩

omit hA in
theorem leads_move {f : Cursor → Except Failure Cursor}
    (hf : ∀ {c d}, B c → f c = .ok d → A d) : Leads B A (move f) := by
  intro m hm
  simp only [move]
  cases h : f m.thread.cursor with
  | error f => trivial
  | ok c => exact ⟨hf hm h, rfl, rfl⟩

theorem moves_bump : Moves A bump :=
  .look (.read _) fun _ => .bind (leads_move hA.bump_on) fun _ => .pure _

theorem onward_bump : Onward A bump := (moves_bump hA).onward

theorem moves_advance (wanted : TokenKind) : Moves A (advance wanted) := by
  refine .look (.read _) fun _ =>
    .bind (leads_move fun {c d} hc h => ?_) fun _ => .pure _
  unfold Cursor.advance at h
  split at h
  · exact hA.bump_on hc h
  · contradiction

theorem onward_advance (wanted : TokenKind) : Onward A (advance wanted) :=
  (moves_advance hA wanted).onward

/-- Back to a token that was come by. -/
theorem leads_rewind {p : Position} (hp : Cursor.Marked A p) : Leads A (Cursor.On A) (rewind p) :=
  leads_move fun hc h => hA.rewind hp hc h

/-- The token under the cursor may be passed over or not. -/
theorem leads_skipOver (k : TokenKind) : Leads (Cursor.On A) (Cursor.On A) (skipOver k) := by
  refine .look (.read _) fun _ => .ite (.bind (fun m hm => ?_) fun _ => .pure _)
    (.pure _)
  exact (moves_bump hA m hm).mono .of

theorem onward_skipOver (k : TokenKind) : Onward A (skipOver k) :=
  .look (.read _) fun _ =>
    .ite (.bind (onward_bump hA) fun _ => .pure _) (.pure _)

end Moves

theorem onward_kind : Onward A (kind : EStateM ε Machine TokenKind) := fun m hm => ⟨hm, .refl m⟩


theorem leads_pinning (p : Pin) {x : EStateM ε Machine α} (hx : Leads B A x) :
    Leads B A (pinning p x) := by
  intro m hm
  have h := hx { m with pinned := p :: m.pinned } hm
  simp only [pinning]
  cases hr : x { m with pinned := p :: m.pinned } with
  | ok a m' =>
    rw [hr] at h
    exact ⟨h.1, h.2.mode, h.2.resume⟩
  | error e m' =>
    rw [hr] at h
    simp only [Walks] at h ⊢
    split at h
    · trivial
    · exact ⟨h.1, h.2.mode, h.2.resume⟩

theorem leads_holding (vs : List Value) {x : EStateM ε Machine α} (hx : Leads B A x) :
    Leads B A (holding vs x) := leads_pinning _ hx

theorem leads_skipping {x : EStateM ε Machine α} (hx : Leads B A x) : Leads B A (skipping x) := by
  intro m hm
  have h := hx { m with thread := { m.thread with skip := m.thread.skip + 1 } } hm
  simp only [skipping]
  cases hr : x { m with thread := { m.thread with skip := m.thread.skip + 1 } } with
  | ok a m' =>
    rw [hr] at h
    exact ⟨h.1, h.2.mode, h.2.resume⟩
  | error e m' =>
    rw [hr] at h
    simp only [Walks] at h ⊢
    split at h
    · trivial
    · exact ⟨h.1, h.2.mode, h.2.resume⟩

theorem onward_unlessSkipping {x : Eval Held} (hx : Onward A x) : Onward A (unlessSkipping x) :=
  .bind still_isSkipping.onward fun _ => .ite (.pure _) hx

/-! ### Items and arguments -/

/-- What the levels of an expression ask of the jobs. -/
structure Strolls (A : Cursor → Prop) (j : Jobs) : Prop where
  expression : ∀ {B : Cursor → Prop}, Cursor.Forward B → Moves B j.expression
  unary : Moves A j.unary
  invoke : ∀ callee args site, Still true (j.invoke callee args site)

section Levels

variable {j : Jobs} (hA : Cursor.Forward A) (hj : Strolls A j)
include hA hj

theorem onward_items (close : TokenKind) (n : Nat) (read : List Value) :
    Onward A (items j close n read) := by
  induction n generalizing read with
  | zero => exact still_exhausted.onward
  | succ n ih =>
    refine .bind onward_kind fun _ => .ite (.pure _) ?_
    refine .bind (leads_holding _ (hj.expression hA).onward) fun _ => .bind (still_own _).onward fun _ => ?_
    exact .bind (.lift (onward_skipOver hA _)) fun _ => .ite (ih _) (.pure _)

omit hA hj in
theorem onward_isNamed : Onward A arguments.isNamed := by
  refine .bind onward_kind fun _ => .ite (.pure _) (.get_bind fun m hm => ?_)
  cases m.thread.cursor.peek with
  | ok next => exact ⟨hm, .refl m⟩
  | error failure => trivial

theorem onward_arguments (n : Nat) (args : CallArgs) : Onward A (arguments j n args) := by
  have finish (args : CallArgs) : Onward A (liftM (arguments.finish args) : Eval CallArgs) :=
    .lift (.bind (onward_advance hA _) fun _ => .pure _)
  induction n generalizing args with
  | zero => exact still_exhausted.onward
  | succ n ih =>
    refine .bind onward_kind fun _ => .ite (finish _) ?_
    have more (args : CallArgs) : Onward A (do
        if ← skipOver .comma then arguments j n args else arguments.finish args : Eval CallArgs) :=
      .bind (.lift (onward_skipOver hA _)) fun _ => .ite (ih _) (finish _)
    have value (vs : List Value) : Onward A (holding vs j.expression) :=
      leads_holding _ (hj.expression hA).onward
    refine .bind (.lift onward_isNamed) fun named => .ite ?_ ?_
    · refine .bind (.lift (onward_bump hA)) fun _ => .bind (.lift (onward_bump hA)) fun _ => ?_
      exact .bind (value _) fun _ => .bind (still_own _).onward fun _ => .bind (.pure _) fun _ =>
        more _
    · split
      · exact .bind (still_malformed _ _).onward fun _ => more _
      · exact .bind (value _) fun _ => .bind (still_own _).onward fun _ => .bind (.pure _) fun _ =>
          more _

theorem onward_tupleItems (n : Nat) (read : List Value) : Onward A (tupleItems j n read) := by
  induction n generalizing read with
  | zero => exact still_exhausted.onward
  | succ n ih =>
    refine .bind (.lift (onward_skipOver hA _)) fun _ => .ite (.pure _) ?_
    refine .bind onward_kind fun _ => .ite (.pure _) ?_
    exact .bind (leads_holding _ (hj.expression hA).onward) fun _ => .bind (still_own _).onward fun _ =>
      ih _

theorem onward_parenthesized (n : Nat) : Onward A (parenthesized j n) := by
  have close : Onward A (liftM (advance .rparen) : Eval Token) := .lift (onward_advance hA _)
  refine .bind (.lift (onward_skipOver hA _)) fun _ => .ite ?_ ?_
  · exact onward_unlessSkipping (.bind (still_onHeap _).onward fun _ => .pure _)
  · refine .bind (hj.expression hA).onward fun _ => .bind onward_kind fun _ => .ite ?_ ?_
    · exact .bind close fun _ => .pure _
    · refine .bind (still_own _).onward fun _ => .bind (onward_tupleItems hA hj _ _) fun _ => ?_
      exact .bind close fun _ => onward_unlessSkipping (.bind (still_onHeap _).onward fun _ => .pure _)

theorem onward_arrayLiteral (n : Nat) : Onward A (arrayLiteral j n) :=
  .bind (onward_items hA hj _ _ _) fun _ => .bind (.lift (onward_advance hA _)) fun _ =>
    onward_unlessSkipping (.bind (still_onHeap _).onward fun _ => .pure _)

theorem onward_dictEntries (n : Nat) (d : Dict Value) : Onward A (dictEntries j n d) := by
  induction n generalizing d with
  | zero => exact still_exhausted.onward
  | succ n ih =>
    refine .bind onward_kind fun _ => .ite (.pure _) (.bind onward_current fun _ => ?_)
    refine .bind (leads_holding _ (hj.expression hA).onward) fun key => ?_
    refine .bind (.lift (onward_advance hA _)) fun _ => ?_
    refine .bind (leads_holding _ (hj.expression hA).onward) fun _ => .bind (still_own _).onward fun _ => ?_
    have more (d : Dict Value) : Onward A (do
        if ← skipOver .comma then dictEntries j n d else return d : Eval (Dict Value)) :=
      .bind (.lift (onward_skipOver hA _)) fun _ => .ite (ih _) (.pure _)
    refine .bind still_isSkipping.onward fun _ => .ite (.bind (.pure _) fun _ => more _) ?_
    cases key.value with
    | str k => exact .bind (.pure _) fun _ => more _
    | _ => exact .bind (still_complain _ _).onward fun _ => more _

theorem onward_dictLiteral (n : Nat) : Onward A (dictLiteral j n) :=
  .bind (onward_dictEntries hA hj _ _) fun _ => .bind (.lift (onward_advance hA _)) fun _ =>
    onward_unlessSkipping (.bind (still_onHeap _).onward fun _ => .pure _)

/-! ### Operands -/

omit hA hj in
/-- A computation with a cursor of its own, behind which the old one comes back. -/
theorem stays_restoring {B : Cursor → Prop} {x : Eval α} (hx : Onward B x) {cursor : Cursor}
    (hB : B cursor) (m : Machine) : Stays true m (embedded.restoring m.thread.cursor x
      { m with thread := { m.thread with cursor } }) := by
  have h := hx { m with thread := { m.thread with cursor } } hB
  unfold embedded.restoring
  cases hr : x { m with thread := { m.thread with cursor } } with
  | ok p m' =>
    rw [hr] at h
    exact ⟨rfl, h.2.mode, h.2.resume, nofun⟩
  | error e m' =>
    rw [hr] at h
    simp only [Walks, Stays] at h ⊢
    cases hi : Stops.interrupt e <;> simp only [hi] at h ⊢
    all_goals exact ⟨rfl, h.2.mode, h.2.resume, nofun⟩

omit hA in
/-- The code in a hole is read from a source of its own, and the cursor comes back behind it. -/
theorem still_embedded (code : List Char) (site : Token) : Still true (embedded j code site) := by
  refine .bind still_get fun m₀ => .bind (fun _ => ⟨rfl, rfl, rfl, nofun⟩) fun _ => ?_
  split
  · exact still_malformed _ _
  · rename_i cursor hc
    refine .get_bind fun m => ?_
    let inside : Eval (Held × TokenKind) := do
      let held ← j.expression
      return (held, ← kind)
    have walks : Onward (fun c => c.Sound ∧ c.source = cursor.source) inside :=
      .bind (hj.expression (Cursor.forward_source _)).onward fun _ => .bind onward_kind fun _ => .pure _
    have after (p : Held × TokenKind) : Still true (do
        if p.2 ≠ .eof then malformed .tokensAfterHole site
        own p.1 : Eval Value) :=
      .guard (still_malformed _ _) (still_own _)
    -- whatever happens to the cursor in the hole, the one before it is put back
    have h := stays_restoring walks ⟨(Cursor.sound_ofSource hc).1, rfl⟩ m
    show Stays true m (EStateM.bind (embedded.restoring m.thread.cursor inside) _
      { m with thread := { m.thread with cursor } })
    unfold EStateM.bind
    cases hr : embedded.restoring m.thread.cursor inside
        { m with thread := { m.thread with cursor } } with
    | ok p m' =>
      rw [hr] at h
      exact .trans h (after p m')
    | error e m' =>
      rw [hr] at h
      exact h

omit hA in
theorem still_interpolate (token : Token) : Still true (interpolate j token) := by
  suffices ∀ text done, Still true (fill j token done text) from this _ _
  intro text
  induction text with
  | plain text => exact fun _ => .pure _
  | broken => exact fun _ => still_malformed _ _
  | hole before code rest ih =>
    exact fun done => .bind (still_embedded hj _ _) fun _ =>
      .bind (still_render hj.invoke _ _) fun _ => ih _

omit hA hj in
theorem still_name (token : Token) : Still true (name token) := by
  refine .bind (fun _ => .refl _) fun _ => .ite ?_ ?_
  on_goal 1 => split
  on_goal 1 => exact .bind (still_onWorld _) fun _ => .pure _
  all_goals
    refine .bind (still_lookup _) fun v => ?_
    split
    · exact .pure _
    · exact still_complain _ _

theorem moves_primary (n : Nat) : Moves A (primary j n) := by
  refine .bind (.lift (moves_bump hA)) fun token => ?_
  split
  · exact .pure _
  · exact .pure _
  · exact onward_unlessSkipping (Still.bind (still_interpolate hj _) fun _ => .pure _).onward
  · exact .pure _
  · exact .pure _
  · exact .pure _
  · exact onward_parenthesized hA hj _
  · exact onward_arrayLiteral hA hj _
  · exact onward_dictLiteral hA hj _
  · exact onward_unlessSkipping (still_name _).onward
  · exact onward_unlessSkipping (still_superProxy _).onward
  · exact (still_malformed _ _).onward

theorem onward_chain (n : Nat) (v : Held) : Onward A (chain j n v) := by
  induction n generalizing v with
  | zero => exact still_exhausted.onward
  | succ n ih =>
    refine .bind onward_kind fun k => ?_
    split
    · refine .bind (.lift (onward_bump hA)) fun _ => .bind onward_kind fun _ => ?_
      -- the word behind a dot may be any word, which is read off and not evaluated
      have member (t : Token) : Onward A (do
          if ← isSkipping then chain j n v
          else chain j n (← readAttribute v t.text t) : Eval Held) :=
        .bind still_isSkipping.onward fun _ => .ite (ih _)
          (.bind (still_readAttribute _ _ _).onward fun _ => ih _)
      refine .ite ?_ ?_
      · exact .bind (.lift (onward_bump hA)) member
      · exact .bind (.lift (onward_advance hA _)) member
    · refine .bind (.lift (onward_bump hA)) fun site => ?_
      refine .bind (leads_holding _ (hj.expression hA).onward) fun index => ?_
      refine .bind (.lift (onward_advance hA _)) fun _ => .bind still_isSkipping.onward fun _ => ?_
      exact .ite (ih _) (.bind (still_own _).onward fun _ =>
        .bind (still_readItem _ _ _).onward fun _ => ih _)
    · refine .bind (.lift (onward_bump hA)) fun site => ?_
      refine .bind (leads_holding _ (onward_arguments hA hj _ _)) fun args => ?_
      exact .bind still_isSkipping.onward fun _ => .ite (ih _)
        (.bind (hj.invoke _ _ _).onward fun _ => ih _)
    · exact .pure _

theorem moves_power (n : Nat) : Moves A (power j n) := by
  refine .bind (moves_primary hA hj _) fun base => .bind (onward_chain hA hj _ _) fun _ => ?_
  refine .bind onward_kind fun _ => .ite (.pure _) (.bind (.lift (onward_bump hA)) fun op => ?_)
  refine .bind (leads_holding _ hj.unary.onward) fun exponent => onward_unlessSkipping ?_
  exact (Still.bind (still_orComplain _ _) fun _ => .pure _).onward

/-! ### Waiting -/

omit hA hj in
theorem still_launch (target : Ref .coroutine) : Still true (launch target) := by
  refine .bind (still_ask _) fun c => .ite ?_ (.pure _)
  exact .bind still_get fun _ => .guard (still_fail _) (still_modifyWorld _)

omit hA hj in
theorem still_waitFor (keyword : Token) (v : Value) : Still true (waitFor keyword v) := by
  refine .bind (still_ask _) fun target => ?_
  split
  · exact still_complain _ _
  · refine .bind still_get fun _ => ?_
    split
    · exact still_fail _
    · refine .guard (still_complain _ _) (.bind (still_launch _) fun _ => ?_)
      refine .bind (still_ask _) fun c => .ite ?_ ?_
      · exact .bind (still_onHeap _) fun _ => still_settle _
      · exact .bind (still_modifyWorld _) fun _ => .stop _

theorem moves_awaitExpr : Moves A (awaitExpr j) := by
  refine .bind (.lift (moves_advance hA _)) fun keyword => .bind still_mode.onward fun _ => ?_
  refine .guard (still_malformed _ _).onward (.bind hj.unary.onward fun operand => ?_)
  refine .bind still_isSkipping.onward fun _ => .ite (.pure _) ?_
  refine .bind still_replayed.onward fun outcome => ?_
  split
  · exact (still_resume _).onward
  · exact (still_waitFor _ _).onward

theorem moves_unaryExpr (n : Nat) : Moves A (unaryExpr j n) := by
  refine .look (.read _) fun k => ?_
  split
  · refine .bind (.lift (moves_bump hA)) fun _ => .bind hj.unary.onward fun _ => ?_
    exact onward_unlessSkipping (Still.bind (still_truthy _) fun _ => .pure _).onward
  · refine .bind (.lift (moves_bump hA)) fun _ => .bind hj.unary.onward fun _ => ?_
    exact onward_unlessSkipping (Still.bind (still_orComplain _ _) fun _ => .pure _).onward
  · exact moves_awaitExpr hA hj
  · exact moves_power hA hj n

/-! ### Binary operators -/

omit hA hj in
theorem still_multiply (op : Token) (a b : Value) : Still true (multiply op a b) := by
  have repeats (s : String) (count : Int) : Still true (repeated s count op) := by
    have within : Still true (do
        if maxTextBytes < s.utf8ByteSize * count.toNat then
          fail (.system (.repeatTooLong count op.line))
        return .str (repeatText s count.toNat) : Eval Value) := .guard (still_fail _) (.pure _)
    exact .ite (.bind (still_complain _ _) fun _ => within) within
  unfold multiply
  split
  · exact repeats _ _
  · exact repeats _ _
  · exact still_orComplain _ _
  · exact still_orComplain _ _
  · exact still_orComplain _ _

omit hA in
theorem still_add (op : Token) (left right : Held) : Still true (add j op left right) := by
  unfold add
  split
  · exact still_holding _ (.bind (still_render hj.invoke _ _) fun _ =>
      .bind (still_render hj.invoke _ _) fun _ => .pure _)
  · exact still_holding _ (.bind (still_render hj.invoke _ _) fun _ =>
      .bind (still_render hj.invoke _ _) fun _ => .pure _)
  · refine .bind (still_ask _) fun f => ?_
    split
    · exact still_complain _ _
    · exact .bind (still_newMethod _) fun _ => .bind (still_own _) fun _ =>
        still_holding _ (hj.invoke _ _ _)
  · exact .bind (still_orComplain _ _) fun _ => .pure _

theorem onward_multiplicativeTail (n : Nat) (left : Held) :
    Onward A (multiplicativeTail j n left) := by
  induction n generalizing left with
  | zero => exact still_exhausted.onward
  | succ n ih =>
    refine .bind onward_kind fun k => ?_
    have more : Onward A (do
        let op ← bump
        let right ← holding [left.value] j.unary
        if ← isSkipping then multiplicativeTail j n left
        else multiplicativeTail j n (.fresh (← multiply op left.value right.value)) : Eval Held) := by
      refine .bind (.lift (onward_bump hA)) fun op => .bind (leads_holding _ hj.unary.onward) fun right => ?_
      exact .bind still_isSkipping.onward fun _ => .ite (ih _)
        (.bind (still_multiply _ _ _).onward fun _ => ih _)
    split
    · exact more
    · exact more
    · exact more
    · exact .pure _

theorem moves_multiplicative (n : Nat) : Moves A (multiplicative j n) :=
  .bind hj.unary fun _ => onward_multiplicativeTail hA hj n _

theorem onward_additiveTail (n : Nat) (left : Held) : Onward A (additiveTail j n left) := by
  induction n generalizing left with
  | zero => exact still_exhausted.onward
  | succ n ih =>
    have operand : Onward A (holding [left.value] (multiplicative j n)) :=
      leads_holding _ (moves_multiplicative hA hj n).onward
    refine .bind onward_kind fun k => ?_
    split
    · refine .bind (.lift (onward_bump hA)) fun op => .bind operand fun right => ?_
      exact .bind still_isSkipping.onward fun _ => .ite (ih _)
        (.bind (still_add hj _ _ _).onward fun _ => ih _)
    · refine .bind (.lift (onward_bump hA)) fun op => .bind operand fun right => ?_
      exact .bind still_isSkipping.onward fun _ => .ite (ih _)
        (.bind (still_orComplain _ _).onward fun _ => ih _)
    · exact .pure _

theorem moves_additive (n : Nat) : Moves A (additive j n) :=
  .bind (moves_multiplicative hA hj n) fun _ => onward_additiveTail hA hj n _

theorem onward_comparisonTail (n : Nat) (left : Held) : Onward A (comparisonTail j n left) := by
  induction n generalizing left with
  | zero => exact still_exhausted.onward
  | succ n ih =>
    refine .bind onward_kind fun k => ?_
    -- one comparison and those behind it; the operators differ in nothing that matters here
    have more : Onward A (do
        let op ← bump
        let right ← holding [left.value] (additive j n)
        if ← isSkipping then comparisonTail j n left
        else
          comparisonTail j n
            (.fresh (.bool (← orComplain op (Value.compare op left.value right.value)))) :
          Eval Held) := by
      refine .bind (.lift (onward_bump hA)) fun op => ?_
      refine .bind (leads_holding _ (moves_additive hA hj n).onward) fun right => ?_
      exact .bind still_isSkipping.onward fun _ => .ite (ih _)
        (.bind (still_orComplain _ _).onward fun _ => ih _)
    split
    · exact more
    · exact more
    · exact more
    · exact more
    · exact .pure _

theorem moves_comparison (n : Nat) : Moves A (comparison j n) :=
  .bind (moves_additive hA hj n) fun _ => onward_comparisonTail hA hj n _

theorem onward_identityTail (n : Nat) (left : Held) : Onward A (identityTail j n left) := by
  induction n generalizing left with
  | zero => exact still_exhausted.onward
  | succ n ih =>
    refine .bind (.lift (onward_skipOver hA _)) fun _ => .ite (.pure _) ?_
    refine .bind (.lift (onward_skipOver hA _)) fun negated => ?_
    refine .bind (leads_holding _ (moves_comparison hA hj n).onward) fun right => ?_
    exact .bind still_isSkipping.onward fun _ => .ite (ih _) (ih _)

theorem moves_identity (n : Nat) : Moves A (identity j n) :=
  .bind (moves_comparison hA hj n) fun _ => onward_identityTail hA hj n _

theorem onward_equalityTail (n : Nat) (left : Held) : Onward A (equalityTail j n left) := by
  induction n generalizing left with
  | zero => exact still_exhausted.onward
  | succ n ih =>
    refine .bind onward_kind fun k => ?_
    have more : Onward A (do
        let op ← bump
        let right ← holding [left.value] (identity j n)
        if ← isSkipping then equalityTail j n left
        else
          equalityTail j n
            (.fresh (.bool (left.value.equals right.value != (op.kind == .neq)))) : Eval Held) := by
      refine .bind (.lift (onward_bump hA)) fun op => ?_
      refine .bind (leads_holding _ (moves_identity hA hj n).onward) fun right => ?_
      exact .bind still_isSkipping.onward fun _ => .ite (ih _) (ih _)
    split
    · exact more
    · exact more
    · exact .pure _

theorem moves_equality (n : Nat) : Moves A (equality j n) :=
  .bind (moves_identity hA hj n) fun _ => onward_equalityTail hA hj n _

theorem onward_andTail (n : Nat) (left : Held) : Onward A (andTail j n left) := by
  induction n generalizing left with
  | zero => exact still_exhausted.onward
  | succ n ih =>
    have operand := (moves_equality hA hj n).onward
    refine .bind (.lift (onward_skipOver hA _)) fun _ => .ite (.pure _) ?_
    refine .bind still_isSkipping.onward fun _ => .bind (still_truthy _).onward fun _ => .ite ?_ ?_
    · exact .bind (leads_skipping operand) fun _ => ih _
    · exact .bind (leads_holding _ operand) fun _ => ih _

theorem moves_andExpr (n : Nat) : Moves A (andExpr j n) :=
  .bind (moves_equality hA hj n) fun _ => onward_andTail hA hj n _

theorem onward_orTail (n : Nat) (left : Held) : Onward A (orTail j n left) := by
  induction n generalizing left with
  | zero => exact still_exhausted.onward
  | succ n ih =>
    have operand := (moves_andExpr hA hj n).onward
    refine .bind (.lift (onward_skipOver hA _)) fun _ => .ite (.pure _) ?_
    refine .bind still_isSkipping.onward fun _ => .bind (still_truthy _).onward fun _ => .ite ?_ ?_
    · exact .bind (leads_skipping operand) fun _ => ih _
    · exact .bind (leads_holding _ operand) fun _ => ih _

theorem moves_orExpr (n : Nat) : Moves A (orExpr j n) :=
  .bind (moves_andExpr hA hj n) fun _ => onward_orTail hA hj n _

/-! ### Conditional expressions -/

theorem moves_skipConditional (n : Nat) : Moves A (skipConditional j n) := by
  have side := moves_orExpr hA hj n
  refine .bind side fun _ => .bind (.lift (onward_skipOver hA _)) fun _ => .ite ?_ (.pure _)
  exact .bind side.onward fun _ => .bind (.lift (onward_advance hA _)) fun _ =>
    .bind (hj.expression hA).onward fun _ => .pure _

/-- The cursor goes back to where the conditional began, and on from there. -/
theorem moves_conditional (n : Nat) : Moves A (conditional j n) := by
  have side := moves_orExpr hA hj n
  have whole := (hj.expression hA).onward
  have keyword (k : TokenKind) : Onward A (liftM (advance k) : Eval Token) :=
    .lift (onward_advance hA k)
  refine .look (.read _) fun _ => .ite ?_ ?_
  · exact .bind (moves_skipConditional hA hj n) fun _ => .pure _
  refine .get_bind fun m hm => ?_
  cases m.thread.cursor.conditionalAhead with
  | error failure => trivial
  | ok ahead =>
    cases ahead with
    | false => exact side m hm
    | true =>
      -- the way back to the first side leads to a place that was left behind on the same line
      refine (Leads.capture_bind id fun start marked => ?_ : Moves A _) m hm
      refine .bind (leads_skipping side) fun _ => .bind (keyword _) fun _ => .bind side.onward fun _ => ?_
      refine .bind (still_truthy _).onward fun taken => .bind (keyword _) fun _ => .ite whole ?_
      refine .lift_bind (leads_rewind hA marked) fun _ => .bind side fun v =>
        .bind (leads_skipping ?_) fun _ => .pure _
      exact .bind (keyword _) fun _ => .bind side.onward fun _ => .bind (keyword _) fun _ =>
        .bind whole fun _ => .pure _

end Levels

theorem strolls_jobs (fuel : Nat) {A : Cursor → Prop} (hA : Cursor.Forward A) :
    Strolls A (jobs fuel) := by
  induction fuel generalizing A with
  | zero => exact ⟨fun _ _ _ => trivial, fun _ _ => trivial, still_invoke 0⟩
  | succ fuel ih =>
    exact ⟨fun hB => moves_conditional hB (ih hB) fuel, moves_unaryExpr hA (ih hA) fuel,
      still_invoke (fuel + 1)⟩

end Eval

end Rewind
