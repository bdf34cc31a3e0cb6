/-
The stack of scopes.

A block, a loop with a variable and a handler have a scope of their own, which stands inside the one
they began in.  They leave it at their end, whichever way they end.  Only a construct that yields
leaves it standing, and then the frames that it parks tell how far inside the body stopped; whoever
re-enters them, if they fit, comes out of all those scopes again.

* `FrameKind.scopes`, `scopesIn` — the scopes that constructs have of their own;
* `Scopes.Inside` — a scope is so many steps inside another one;
* `Homes` — how what began in a scope ends there;
* `Remains`, `Homing` — parts of statements that keep their scope, and such that come home;
* `BodyHomes`, `Tidy` — bodies and jobs that come home;
* `homes_finishBlock`, `homes_rangeRound`, … — constructs, given how their body ends.
-/
import Rewind.Proofs.Methods

namespace Rewind

open Eval

/-! ### Scopes inside scopes -/

namespace Scopes

/-- The scope `r` is `k` steps inside `home`. -/
def Inside (s : Scopes) : (k : Nat) → (r home : Ref .scope) → Prop
  | 0, r, home => r = home
  | k + 1, r, home => ∃ p, s.parent r = some p ∧ Inside s k p home

variable {s s' : Scopes} {k l : Nat} {r home : Ref .scope}

theorem inside_add :
    s.Inside (k + l) r home ↔ ∃ p, s.Inside k r p ∧ s.Inside l p home := by
  induction k generalizing r with
  | zero => simp [Inside]
  | succ k ih =>
    rw [Nat.succ_add]
    simp only [Inside, ih]
    constructor
    · rintro ⟨p, hp, q, hq, hl⟩
      exact ⟨q, ⟨p, hp, hq⟩, hl⟩
    · rintro ⟨q, ⟨p, hp, hq⟩, hl⟩
      exact ⟨p, hp, q, hq, hl⟩

theorem Inside.grows (h : s.Inside k r home) (hs : s.Grows s') : s'.Inside k r home := by
  induction k generalizing r with
  | zero => exact h
  | succ k ih =>
    obtain ⟨p, hp, hk⟩ := h
    exact ⟨p, hs r p hp, ih hk⟩

end Scopes

/-- How many scopes of its own a construct has while its body runs. -/
def FrameKind.scopes : FrameKind → Nat
  | .block | .rangeLoop _ | .eachLoop _ | .attempt .handler => 1
  | _ => 0

/-- How many scopes the constructs of the frames have. -/
def scopesIn : List Frame → Nat
  | [] => 0
  | f :: frames => scopesIn frames + f.kind.scopes

theorem scopesIn_cons (f : Frame) (frames : List Frame) :
    scopesIn (f :: frames) = scopesIn frames + f.kind.scopes := rfl

/-! ### Frames -/

theorem Chain.marked {s : Source} {f : Frame} {rest : List Frame} (h : Chain s (f :: rest)) :
    f.kind.Marked s := by
  cases h with
  | simple => trivial
  | construct _ _ hk => exact hk

/-- The frame of a simple statement is the last one. -/
theorem Chain.inside_simple {s : Source} {f : Frame} {rest : List Frame} (h : Chain s (f :: rest))
    (hk : f.kind = .simple) : rest = [] := by
  cases h with
  | simple => rfl
  | construct _ hn => exact absurd hk hn

/-! ### Coming home -/

/-- The machine is in the scope `home`, with no frames left. -/
structure AtHome (home : Ref .scope) (m : Machine) : Prop where
  scope : m.thread.scope = home
  resume : m.thread.resume = []

/-- The machine is so far inside `home` as the frames tell that have been parked since `m`, and the
construct that asks for one more. -/
def Away (construct : Bool) (home : Ref .scope) (m m' : Machine) : Prop :=
  m'.thread.resume = [] ∧ ∃ frames, m'.thread.parked = frames ++ m.thread.parked ∧
    m'.world.scopes.Inside
      (scopesIn frames + if construct then (m'.thread.parking.getD .simple).scopes else 0)
      m'.thread.scope home

variable {ε α β : Type} [Stops ε]

/-- How a statement or body ends that began in the machine `m`, in the scope `home`: unless it has
yielded or failed for good, it is there again. -/
def Homes (construct : Bool) (home : Ref .scope) (m : Machine) :
    EStateM.Result ε Machine Status → Prop
  | .ok .yielded m' => Away construct home m m'
  | .ok _ m' => AtHome home m'
  | .error e m' => (∀ f, Stops.interrupt e ≠ .fault f) → AtHome home m'

/-- A machine in which evaluation may go on, of a run of a program from the directory `program`. -/
structure Poised (program : Option String) (A : Source → Prop) (c : Control) (m : Machine) :
    Prop where
  ready : Ready c m
  amid : m.Amid program
  source : A m.thread.cursor.source

/-- What a part of a statement leaves as it was. -/
structure Unshifted (m m' : Machine) : Prop where
  scope : m'.thread.scope = m.thread.scope
  resume : m'.thread.resume = m.thread.resume
  parked : m'.thread.parked = m.thread.parked
  scopes : m.world.scopes.Grows m'.world.scopes

/-- Wherever evaluation may go on, it may go on behind the computation too, with the same scope. -/
def Remains (A : Source → Prop) (x : EStateM ε Machine α) : Prop :=
  ∀ program c m, Poised program A c m → match x m with
    | .ok _ m' => Poised program A c m' ∧ Unshifted m m'
    | .error e m' => (∀ f, Stops.interrupt e ≠ .fault f) → Unshifted m m'

/-- From `k` steps inside any scope the computation comes home to it. -/
def Homing (k : Nat) (A : Source → Prop) (x : EStateM ε Machine Status) : Prop :=
  ∀ program c m home, Poised program A c m → m.thread.resume = [] →
    m.world.scopes.Inside k m.thread.scope home → Homes true home m (x m)

section Parts

variable {program : Option String} {A : Source → Prop} {c : Control} {m m' : Machine}

/-- Evaluation keeps what the machine is a part of. -/
theorem Machine.Amid.kept (h : m.Amid program) (hk : Kept m m m') : m'.Amid program := by
  have grounds : Grounds ⟨program, [], m, false⟩ m' := Grounds.kept h hk
  exact grounds.amid

theorem Poised.kept (h : Poised program A c m) (hm : Ready c m') (hk : Kept m m m')
    (hs : m'.thread.cursor.source = m.thread.cursor.source) : Poised program A c m' :=
  ⟨hm, h.amid.kept hk, hs ▸ h.source⟩

theorem Poised.passed (h : Poised program A c m) (hp : Passes c m m') (hk : Kept m m m') :
    Poised program A c m' := h.kept (h.ready.passes hp) hk hp.1.source

/-- What evaluation keeps is kept from here on. -/
theorem Poised.keeps (h : Poised program A c m) {x : EStateM ε Machine α} {a : α}
    (hx : ∀ ground, Echoes {} ground x x) (hrun : x m = .ok a m') : Kept m m m' := by
  have echo := hx ⟨program, [], m, false⟩ m h.amid
  rw [hrun] at echo
  exact echo.1

theorem Unshifted.refl (m : Machine) : Unshifted m m := ⟨rfl, rfl, rfl, .refl _⟩

theorem Unshifted.trans {m₁ m₂ m₃ : Machine} (h : Unshifted m₁ m₂) (h' : Unshifted m₂ m₃) :
    Unshifted m₁ m₃ :=
  ⟨h'.scope.trans h.scope, h'.resume.trans h.resume, h'.parked.trans h.parked,
    h.scopes.trans h'.scopes⟩

namespace Homes

variable {b : Bool} {home : Ref .scope}

/-- What has not parked anything yet may as well have begun here. -/
theorem since {m₁ : Machine} (h : m₁.thread.parked = m.thread.parked)
    {r : EStateM.Result ε Machine Status} (hr : Homes b home m₁ r) : Homes b home m r := by
  cases r with
  | error e m' => exact hr
  | ok status m' =>
    cases status with
    | normal => exact hr
    | leaving signal => exact hr
    | yielded =>
      obtain ⟨hres, frames, hp, hin⟩ := hr
      exact ⟨hres, frames, h ▸ hp, hin⟩

theorem ok {status : Status} (h : AtHome home m') (hn : status ≠ .yielded) :
    Homes b home m (.ok status m' : EStateM.Result ε Machine Status) := by
  cases status with
  | yielded => contradiction
  | normal => exact h
  | leaving signal => exact h

end Homes

/-- The computation comes to a value or fails for good. -/
def Firm (x : EStateM ε Machine α) : Prop :=
  ∀ m e m', x m = .error e m' → ∃ f, Stops.interrupt e = .fault f

theorem firm_lift (x : Run α) : Firm (liftM x : Eval α) := by
  intro m e m' h
  rw [Quiet.run_lift] at h
  cases hx : x m with
  | ok a m₁ =>
    rw [hx] at h
    contradiction
  | error f m₁ =>
    rw [hx] at h
    obtain ⟨rfl, -⟩ := EStateM.Result.error.inj h
    exact ⟨f, rfl⟩

theorem firm_define (name : String) (v : Value) : Firm (define name v : EStateM ε Machine Unit) :=
  fun _ _ _ h => nomatch h

theorem firm_onHeap (f : StateM Heap α) : Firm (onHeap f : EStateM ε Machine α) :=
  fun _ _ _ h => nomatch h

namespace Remains

theorem of (hq : Quiet A (x : EStateM ε Machine α))
    (he : ∀ ground, Echoes {} ground x x) : Remains A x := by
  intro program c m hm
  have hend := hq c m hm.ready hm.source
  have hecho := he ⟨program, [], m, false⟩ m hm.amid
  -- frames, scopes and what is to be resumed are of the thread, which a settled run leaves alone
  have still {m' : Machine} (hs : Settled m m') (hk : Kept m m m') : Unshifted m m' :=
    ⟨hs.scope, hs.resume, hs.parked, hk.scopes.grows⟩
  cases hx : x m with
  | ok a m' =>
    rw [hx] at hend hecho
    exact ⟨hm.kept (hm.ready.settles hend) hecho.1 hend.1.source, still hend.1 hecho.1⟩
  | error e m' =>
    rw [hx] at hend hecho
    intro hn
    simp only [Ended] at hend
    split at hend
    · exact still hend.1 hecho.1
    · obtain ⟨r, -, -, hs, -⟩ := hend
      exact still hs hecho.1
    · exact absurd ‹_› (hn _)

/-- What changes neither the scope nor the frames, and raises nothing. -/
theorem of_passing {x : EStateM ε Machine α} (hp : Passing A x)
    (he : ∀ ground, Echoes {} ground x x) (hf : Firm x)
    (hx : ∀ m a m', x m = .ok a m' → m'.thread.scope = m.thread.scope ∧
      m'.thread.resume = m.thread.resume ∧ m'.thread.parked = m.thread.parked) : Remains A x := by
  intro program c m hm
  have passes := hp c m hm.ready hm.source
  cases hr : x m with
  | ok a m' =>
    rw [hr] at passes
    have kept := hm.keeps he hr
    obtain ⟨hscope, hresume, hparked⟩ := hx m a m' hr
    exact ⟨hm.passed passes kept, hscope, hresume, hparked, kept.scopes.grows⟩
  | error e m' =>
    obtain ⟨fault, hfault⟩ := hf m e m' hr
    exact fun hn => absurd hfault (hn fault)

theorem pure (a : α) : Remains A (Pure.pure a : EStateM ε Machine α) :=
  fun _ _ m hm => ⟨hm, .refl m⟩

theorem bind {x : EStateM ε Machine α} {f : α → EStateM ε Machine β} (hx : Remains A x)
    (hf : ∀ a, Remains A (f a)) : Remains A (x >>= f) := by
  intro program c m hm
  have h := hx program c m hm
  show match EStateM.bind x f m with | .ok _ m' => _ | .error e m' => _
  unfold EStateM.bind
  cases hr : x m with
  | error e m₁ =>
    rw [hr] at h
    exact h
  | ok a m₁ =>
    rw [hr] at h
    have h' := hf a program c m₁ h.1
    dsimp only
    cases hr' : f a m₁ with
    | ok b m₂ =>
      rw [hr'] at h'
      exact ⟨h'.1, h.2.trans h'.2⟩
    | error e m₂ =>
      rw [hr'] at h'
      exact fun hn => h.2.trans (h' hn)

end Remains

namespace Homing

variable {k : Nat}

/-- A part of a statement, and what follows; only where no scope is entered may it raise. -/
theorem bind_of {x : EStateM ε Machine α} {f : α → EStateM ε Machine Status} (hx : Remains A x)
    (hk : k = 0 ∨ Firm x) (hf : ∀ a, Homing k A (f a)) : Homing k A (x >>= f) := by
  intro program c m home hm hr hs
  have h := hx program c m hm
  show Homes true home m (EStateM.bind x f m)
  unfold EStateM.bind
  cases hx' : x m with
  | ok a m₁ =>
    rw [hx'] at h
    obtain ⟨hm₁, still⟩ := h
    refine .since still.parked (hf a _ _ _ _ hm₁ (still.resume.trans hr) ?_)
    rw [still.scope]
    exact hs.grows still.scopes
  | error e m₁ =>
    rw [hx'] at h
    intro hn
    -- a computation that stands within scopes stops with a fault at most, and then nothing is
    -- asked of it
    obtain rfl | firm := hk
    · exact ⟨(h hn).scope.trans hs, (h hn).resume.trans hr⟩
    · obtain ⟨fault, hfault⟩ := firm m e m₁ hx'
      exact absurd hfault (hn fault)

theorem bind {x : EStateM ε Machine α} {f : α → EStateM ε Machine Status} (hx : Remains A x)
    (hf : ∀ a, Homing 0 A (f a)) : Homing 0 A (x >>= f) := bind_of hx (.inl rfl) hf

theorem within {x : EStateM ε Machine α} {f : α → EStateM ε Machine Status} (hx : Remains A x)
    (firm : Firm x) (hf : ∀ a, Homing k A (f a)) : Homing k A (x >>= f) := bind_of hx (.inr firm) hf

/-- What comes home from inside a new scope. -/
theorem push_bind {f : Unit → Eval Status} (hf : ∀ a, Homing (k + 1) A (f a)) :
    Homing k A (pushScope >>= f) := by
  intro program c m home hm hr hs
  have passes := passing_pushScope (A := A) c m hm.ready hm.source
  obtain ⟨inner, hrun, hscope, hparent, hrest⟩ : ∃ inner, (pushScope : Eval Unit) m = .ok () inner ∧
      inner.thread.scope = m.world.scopes.next ∧
      inner.world.scopes.parent m.world.scopes.next = some m.thread.scope ∧
      inner.thread.resume = m.thread.resume ∧ inner.thread.parked = m.thread.parked := by
    refine ⟨_, rfl, rfl, ?_, rfl, rfl⟩
    simp [Scopes.parent, Arena.get, Arena.get?_push_next]
  rw [hrun] at passes
  have kept := hm.keeps (fun _ => echoes_pushScope) hrun
  rw [bind_of_ok hrun]
  refine .since hrest.2 (hf () _ _ _ _ (hm.passed passes kept) (hrest.1.trans hr) ?_)
  rw [hscope]
  exact ⟨_, hparent, hs.grows kept.scopes.grows⟩

/-- The innermost scope is left. -/
theorem pop_bind {f : Unit → Eval Status} (hf : ∀ a, Homing k A (f a)) :
    Homing (k + 1) A (popScope >>= f) := by
  intro program c m home hm hr hs
  obtain ⟨outer, hparent, hs⟩ := hs
  have passes := passing_popScope (A := A) c m hm.ready hm.source
  have hrun := popScope_run m
  rw [hparent] at hrun
  rw [hrun] at passes
  have kept := hm.keeps (fun _ => echoes_popScope) hrun
  rw [bind_of_ok hrun]
  exact .since rfl (hf () _ _ _ _ (hm.passed passes kept) hr (hs.grows kept.scopes.grows))

theorem pure {status : Status} (hn : status ≠ .yielded) :
    Homing 0 A (Pure.pure status : EStateM ε Machine Status) :=
  fun _ _ _ _ _ hr hs => .ok ⟨hs, hr⟩ hn

/-- A failure for good is no way to end. -/
theorem malformed (issue : SyntaxIssue) (site : Token) :
    Homing k A (liftM (Eval.malformed issue site : Run Status) : Eval Status) :=
  fun _ _ _ _ _ _ _ hn => absurd rfl (hn _)

theorem malformed_bind (issue : SyntaxIssue) (site : Token) (f : α → Eval Status) :
    Homing k A ((liftM (Eval.malformed issue site : Run α) : Eval α) >>= f) :=
  fun _ _ _ _ _ _ _ hn => absurd rfl (hn _)

theorem exhausted : Homing k A (liftM (Eval.exhausted : Run Status) : Eval Status) :=
  fun _ _ _ _ _ _ _ hn => absurd rfl (hn _)

theorem complain (complaint : Complaint) (site : Token) :
    Homing 0 A (Eval.complain complaint site : Eval Status) :=
  fun _ _ _ _ _ hr hs _ => ⟨hs, hr⟩

theorem ite {p : Prop} [Decidable p] {x y : EStateM ε Machine Status} (hx : p → Homing k A x)
    (hy : ¬ p → Homing k A y) : Homing k A (if p then x else y) := by
  split
  · exact hx ‹_›
  · exact hy ‹_›

theorem capture_bind {f : Position → EStateM ε Machine Status}
    (hf : ∀ p, Homing k (fun s => A s ∧ s.Marks p) (f p)) : Homing k A (capture >>= f) :=
  fun _ _ _ _ hm hr hs =>
    hf _ _ _ _ _ ⟨hm.ready, hm.amid, hm.source, hm.ready.sound.capture⟩ hr hs

end Homing

end Parts

/-! ### Bodies -/

theorem Carried.passes {b : Bool} {c : Control} {m m' : Machine} {status : Status}
    (h : Carried b c m (.ok status m' : EStateM.Result ε Machine Status)) (hn : status ≠ .yielded) :
    Passes c m m' := by
  cases status with
  | yielded => contradiction
  | normal => exact h
  | leaving signal => exact h

/-- A body that comes home to the scope `home` from the machine `m`. -/
structure BodyHomes (program : Option String) (A : Source → Prop) (c : Control)
    (home : Ref .scope) (m : Machine) (body : Run Status) : Prop where
  poised : Poised program A c m
  resumable : Resumable m
  orderly : Orderly false (fun _ => True) body
  echoes : ∀ ground, Echoes {} ground body body
  homes : Homes false home m (body m)

section Bodies

variable {program : Option String} {A : Source → Prop} {c : Control} {m : Machine}
  {body : Run Status} {s home : Ref .scope}

/-- What follows a body: if the body has yielded, the construct asks for a frame that tells of the
scope it has; if not, it goes on from that scope. -/
theorem BodyHomes.bind (h : BodyHomes program A c s m body) {f : Status → Eval Status}
    (kind : FrameKind) (hs : m.world.scopes.Inside kind.scopes s home) (hy : f .yielded = park kind)
    (hf : ∀ status, status ≠ .yielded → Homing kind.scopes A (f status)) :
    Homes true home m (((liftM body : Eval Status) >>= f) m) := by
  have carried := h.orderly c m h.poised.ready h.resumable trivial
  have homes := h.homes
  have echo := h.echoes ⟨program, [], m, false⟩ m h.poised.amid
  show Homes true home m (EStateM.bind _ f m)
  unfold EStateM.bind
  rw [Quiet.run_lift]
  cases hb : body m with
  | error fault m₁ => exact fun hn => absurd rfl (hn fault)
  | ok status m₁ =>
    rw [hb] at carried homes echo
    have next (hn : status ≠ .yielded) (hp : Passes c m m₁) (hh : AtHome s m₁) :
        Homes true home m (f status m₁) := by
      refine .since hp.1.parked (hf status hn _ _ _ _ (h.poised.passed hp echo.1) hh.resume ?_)
      rw [hh.scope]
      exact hs.grows echo.1.scopes.grows
    cases status with
    | normal => exact next (by simp) carried homes
    | leaving signal => exact next (by simp) carried homes
    | yielded =>
      -- the body has parked its frames, and the statement parks its own around them
      obtain ⟨hres, frames, hp, hin⟩ := homes
      show Homes true home m (f .yielded m₁)
      rw [hy]
      exact ⟨hres, frames, hp, Scopes.inside_add.2 ⟨s, hin, hs.grows echo.1.scopes.grows⟩⟩

end Bodies

/-- Jobs that all do what they should, and whose bodies come home if the frames they are resumed
from fit. -/
structure Tidy (j : Jobs) : Prop where
  works : Works j
  echoes : ∀ ground, j.Echo {} ground j
  homes : ∀ (column : Nat) {program : Option String} {c : Control} {m : Machine}
    {home : Ref .scope}, Ready c m → m.Amid program → Resumable m → Fits column m.thread.resume →
    m.world.scopes.Inside (scopesIn m.thread.resume) m.thread.scope home →
    Homes false home m (j.body column m)

section Tidy

variable {program : Option String} {A : Source → Prop} {c : Control} {m : Machine}
  {s home : Ref .scope} {j : Jobs} (hj : Tidy j)

include hj

theorem Tidy.body (hm : Poised program A c m) (hr : Resumable m) {column : Nat}
    (hf : Fits (column + 4) m.thread.resume)
    (hs : m.world.scopes.Inside (scopesIn m.thread.resume) m.thread.scope home) :
    BodyHomes program A c home m (j.body (column + 4)) :=
  ⟨hm, hr, hj.works.body _, fun ground => (hj.echoes ground).inner column,
    hj.homes _ hm.ready hm.amid hr hf hs⟩

/-- A body that begins anew. -/
theorem Tidy.fresh (hm : Poised program A c m) (hr : m.thread.resume = []) (column : Nat) :
    BodyHomes program A c m.thread.scope m (j.body (column + 4)) := by
  refine hj.body hm (.inl hr) ?_ ?_
  · rw [hr]
    trivial
  · rw [hr]
    rfl

theorem remains_expression : Remains A j.expression :=
  .of hj.works.expression fun ground => (hj.echoes ground).expression

end Tidy

namespace Eval

variable {A : Source → Prop}

theorem remains_bump : Remains A (liftM bump : Eval Token) :=
  .of (.lift quiet_bump) fun _ => .lift echoes_bump

theorem remains_advance (wanted : TokenKind) : Remains A (liftM (advance wanted) : Eval Token) :=
  .of (.lift (quiet_advance _)) fun _ => .lift (echoes_advance _)

theorem remains_current : Remains A (current : Eval Token) := .of quiet_current fun _ => echoes_current

theorem remains_kind : Remains A (kind : Eval TokenKind) := .of quiet_kind fun _ => echoes_kind

theorem remains_mode : Remains A (mode : Eval Mode) := .of quiet_mode fun _ => echoes_mode

theorem remains_skipOver (k : TokenKind) : Remains A (liftM (skipOver k) : Eval Bool) :=
  .of (.lift (quiet_skipOver _)) fun _ => .lift (echoes_skipOver _)

theorem remains_skipBody (column : Nat) : Remains A (liftM (skipBody column) : Eval Unit) :=
  .of (.lift (quiet_skipBody _)) fun _ => .lift (echoes_skipBody _)

theorem remains_enterBlock (column : Nat) : Remains A (liftM (enterBlock column) : Eval Unit) :=
  .of (.lift (quiet_enterBlock _)) fun _ => .lift (echoes_enterBlock _)

theorem remains_endStatement : Remains A (liftM endStatement : Eval Unit) :=
  .of (.lift quiet_endStatement) fun _ => .lift echoes_endStatement

theorem remains_rewind (p : Position) :
    Remains (fun s => A s ∧ s.Marks p) (liftM (rewind p) : Eval Unit) :=
  .of (.lift (quiet_rewind p)) fun _ => .lift (echoes_rewind p)

theorem remains_own (h : Held) : Remains A (own h : Eval Value) :=
  .of (quiet_own _) fun _ => echoes_own _

theorem remains_onHeap (f : StateM Heap α) : Remains A (onHeap f : Eval α) :=
  .of (quiet_onHeap _) fun _ => echoes_onHeap _

theorem remains_ask (f : World → α) : Remains A (ask f : Eval α) :=
  .of (quiet_ask _) fun _ => echoes_ask _

theorem remains_define (name : String) (v : Value) : Remains A (define name v : Eval Unit) :=
  .of (quiet_define _ _) fun _ => echoes_define _ _

theorem remains_holding (vs : List Value) {x : Eval α} (hq : Quiet A x)
    (he : ∀ ground, Echoes {} ground x x) : Remains A (holding vs x) :=
  .of (quiet_holding _ hq) fun ground => .holding _ (he ground)

theorem remains_complain (complaint : Complaint) (site : Token) :
    Remains A (complain complaint site : Eval α) :=
  .of (quiet_complain _ _) fun _ => echoes_complain _ _

theorem remains_resetTapeUnlessReplaying :
    Remains A (resetTapeUnlessReplaying : Eval Unit) := by
  refine .of_passing passing_resetTapeUnlessReplaying (fun _ => echoes_resetTapeUnlessReplaying)
    (fun _ _ _ h => nomatch h) fun m a m' h => ?_
  obtain ⟨-, rfl⟩ := EStateM.Result.ok.inj h
  dsimp only
  split <;> exact ⟨rfl, rfl, rfl⟩

theorem thread_takeCancellation {m m' : Machine} {r : Option Raised}
    (h : takeCancellation m = .ok r m') : m'.thread = m.thread := by
  cases ha : m.thread.mode.inAsync with
  | false =>
    rw [takeCancellation_of_not_async ha] at h
    rw [(EStateM.Result.ok.inj h).2]
  | true =>
    cases ht : m.thread.task with
    | none =>
      simp only [takeCancellation, bind, EStateM.bind, get_run, ha, ht] at h
      rw [(EStateM.Result.ok.inj h).2]
    | some task =>
      rw [takeCancellation_of_async ha ht] at h
      split at h <;> rw [← (EStateM.Result.ok.inj h).2]

theorem remains_takeCancellation : Remains A (liftM takeCancellation : Eval (Option Raised)) := by
  refine .of_passing (fun c m hm hs => ?_) (fun _ => .lift echoes_takeCancellation) (firm_lift _)
    fun m r m' h => ?_
  · have h := passing_takeCancellation (A := A) c m hm hs
    rw [Quiet.run_lift]
    cases ht : takeCancellation m <;> · rw [ht] at h; exact h
  · rw [Quiet.run_lift] at h
    cases ht : takeCancellation m with
    | error f m₁ =>
      rw [ht] at h
      contradiction
    | ok r₁ m₁ =>
      rw [ht] at h
      obtain ⟨-, rfl⟩ := EStateM.Result.ok.inj h
      rw [thread_takeCancellation ht]
      exact ⟨rfl, rfl, rfl⟩

end Eval

/-! ### Wrappers -/

section Wrappers

variable {program : Option String} {A : Source → Prop} {c : Control} {m : Machine}
  {home : Ref .scope} {k : Nat}

theorem Poised.deeper (h : Poised program A c m) : Poised program A c m.deeper :=
  ⟨⟨h.ready.sound, h.ready.world, h.ready.acts, h.ready.weaving, h.ready.driven, h.ready.async⟩,
    h.amid.of_eq rfl rfl h.amid.depth rfl, h.source⟩

theorem Poised.pinned (h : Poised program A c m) (p : Pin) :
    Poised program A c { m with pinned := p :: m.pinned } :=
  ⟨h.ready.pin p, h.amid.pinned _, h.source⟩

theorem homes_inLoop {x : Eval Status} (h : Homes true home m.deeper (x m.deeper)) :
    Homes true home m (inLoop x m) := by
  have enter : (do modifyMode fun mode => { mode with loopDepth := mode.loopDepth + 1 }; x :
      Eval Status) m = x m.deeper := rfl
  unfold inLoop
  rw [enter]
  cases hx : x m.deeper with
  | error e m' =>
    rw [hx] at h
    exact fun hn => ⟨(h hn).scope, (h hn).resume⟩
  | ok status m' =>
    rw [hx] at h
    cases status with
    | normal => exact ⟨h.scope, h.resume⟩
    | leaving signal => exact ⟨h.scope, h.resume⟩
    | yielded => exact h

theorem Homing.inLoop {x : Eval Status} (h : Homing k A x) : Homing k A (Eval.inLoop x) :=
  fun _ _ _ _ hm hr hs => homes_inLoop (h _ _ _ _ hm.deeper hr hs)

theorem homes_holding {b : Bool} (vs : List Value) {x : EStateM ε Machine Status}
    (h : Homes b home m (x { m with pinned := .values vs :: m.pinned })) :
    Homes b home m (holding vs x m) := by
  unfold holding pinning
  dsimp only
  cases hx : x { m with pinned := .values vs :: m.pinned } with
  | error e m' =>
    rw [hx] at h
    exact fun hn => ⟨(h hn).scope, (h hn).resume⟩
  | ok status m' =>
    rw [hx] at h
    cases status with
    | normal => exact ⟨h.scope, h.resume⟩
    | leaving signal => exact ⟨h.scope, h.resume⟩
    | yielded => exact h

theorem Homing.overItems (l : EachLoop) {x : Eval Status} (h : Homing k A x) :
    Homing k A (Eval.overItems l x) :=
  fun _ _ _ _ hm hr hs => homes_holding _ (h.inLoop _ _ _ _ (hm.pinned _) hr hs)

end Wrappers

/-! ### Blocks and branches -/

namespace Eval

section Constructs

variable {program : Option String} {A : Source → Prop} {c : Control} {m : Machine}
  {body : Run Status} {s home : Ref .scope}

theorem homes_finishBlock (h : BodyHomes program A c s m body)
    (hs : m.world.scopes.Inside 1 s home) (column : Nat) :
    Homes true home m (finishBlock column body m) := by
  refine h.bind .block hs rfl fun status hn => ?_
  have closed : Homing 1 A (do
      popScope
      let close ← current
      if close.kind ≠ .rbrace then malformed .unclosedBlock close
      if close.column ≠ column then malformed (.misalignedBrace close.column column) close
      let _ ← bump
      return status : Eval Status) := by
    refine .pop_bind fun _ => .bind remains_current fun close => ?_
    refine .ite (fun _ => .malformed_bind _ _ _) fun _ => ?_
    refine .ite (fun _ => .malformed_bind _ _ _) fun _ => ?_
    exact .bind remains_bump fun _ => .pure hn
  cases status with
  | yielded => contradiction
  | normal => exact closed
  | leaving signal => exact closed

theorem homes_finishBranch (h : BodyHomes program A c home m body) (n column : Nat) :
    Homes true home m (finishBranch n column body m) := by
  refine h.bind .branch rfl rfl fun status hn => ?_
  have passed : Homing 0 A (do
      skipBranches column n
      return status : Eval Status) :=
    .bind (.of (.lift (quiet_skipBranches column n)) fun _ => .lift (echoes_skipBranches column n))
      fun _ => .pure hn
  cases status with
  | yielded => contradiction
  | normal => exact passed
  | leaving signal => exact passed

/-! ### Exceptions -/

omit [Stops ε] in
theorem lift_holding (vs : List Value) (x : Run α) :
    (holding vs (liftM x : Eval α) : Eval α) = liftM (holding vs x : Run α) := by
  funext m
  rw [Quiet.run_lift]
  simp only [holding, pinning, Quiet.run_lift]
  cases x { m with pinned := .values vs :: m.pinned } <;> rfl

theorem homes_finallyBody (pending : Option Signal) (hm : Poised program A c m)
    (h : BodyHomes program A c home { m with
      pinned := .values (pending.toList.flatMap Signal.carried) :: m.pinned } body) :
    Homes true home m (finallyBody pending body m) := by
  have held : BodyHomes program A c home m
      (holding (pending.toList.flatMap Signal.carried) body) :=
    ⟨hm, h.resumable, orderly_holding _ h.orderly, fun ground => .holding _ (h.echoes ground),
      homes_holding _ h.homes⟩
  unfold finallyBody
  rw [lift_holding]
  refine held.bind (.attempt (.cleanup pending)) rfl rfl fun status hn => ?_
  cases status with
  | yielded => contradiction
  | normal => exact .pure (ofPending_ne_yielded pending)
  | leaving signal => exact .pure hn

section Tidy

variable {j : Jobs} (hj : Tidy j)

include hj

theorem homing_blockStatement : Homing 0 A (blockStatement j) :=
  .bind remains_bump fun brace => .push_bind fun _ => fun _ _ _ _ hm hr hs =>
    homes_finishBlock (hj.fresh hm hr brace.column) hs brace.column

theorem homing_finishBranch (n column : Nat) :
    Homing 0 A (finishBranch n column (j.body (column + 4))) := by
  intro program c m home hm hr hs
  obtain rfl : m.thread.scope = home := hs
  exact homes_finishBranch (hj.fresh hm hr column) n column

theorem homing_branches (column n : Nat) : Homing 0 A (branches j column n) := by
  induction n with
  | zero => exact .exhausted
  | succ n ih =>
    refine .bind (remains_advance _) fun _ => .bind (remains_expression hj) fun _ => ?_
    refine .bind (remains_ask _) fun _ => .bind (remains_enterBlock _) fun _ => ?_
    refine .ite (fun _ => homing_finishBranch hj n column) fun _ => ?_
    refine .bind (remains_skipBody _) fun _ => .bind remains_current fun token => ?_
    refine .ite (fun _ => .pure (by simp)) fun _ => ?_
    split
    · exact .bind remains_bump fun _ => ih
    · exact .bind remains_bump fun _ => .bind (remains_enterBlock _) fun _ =>
        homing_finishBranch hj n column
    · exact .pure (by simp)

theorem homing_ifStatement (n : Nat) : Homing 0 A (ifStatement j n) :=
  .bind remains_bump fun _ => homing_branches hj _ n

/-! ### Exceptions -/

theorem homing_finallyClause (column : Nat) (handled : Bool) (pending : Option Signal) :
    Homing 0 A (finallyClause j column handled pending) := by
  have clause : Remains A (liftM (isClause .kwFinally column) : Eval Bool) :=
    .of (.lift (quiet_isClause _ _)) fun _ => .lift (echoes_isClause _ _)
  refine .bind clause fun _ => .ite (fun _ => ?_) fun _ => ?_
  · refine .bind remains_bump fun _ => .bind (remains_enterBlock _) fun _ => ?_
    intro program c m home hm hr hs
    obtain rfl : m.thread.scope = home := hs
    exact homes_finallyBody pending hm (hj.fresh (hm.pinned _) hr column)
  · refine .ite (fun _ => .bind remains_current fun _ => .malformed_bind _ _ _) fun _ => ?_
    exact .pure (ofPending_ne_yielded pending)

theorem homes_handlerBody (h : BodyHomes program A c s m body)
    (hs : m.world.scopes.Inside 1 s home) (column : Nat) :
    Homes true home m (handlerBody j column body m) := by
  refine h.bind (.attempt .handler) hs rfl fun status hn => ?_
  cases status with
  | yielded => contradiction
  | normal => exact .pop_bind fun _ => homing_finallyClause hj column true none
  | leaving signal => exact .pop_bind fun _ => homing_finallyClause hj column true (some signal)

theorem homing_handlerBody (column : Nat) :
    Homing 1 A (handlerBody j column (j.body (column + 4))) :=
  fun _ _ _ _ hm hr hs => homes_handlerBody hj (hj.fresh hm hr column) hs column

/-- A handler behind the name it gives to the exception, if it gives one. -/
theorem homing_clause (column : Nat) (pending : Option Signal) (name : Option Token) :
    Homing 0 A (do
      enterBlock column
      match pending with
      | some (.raised r) =>
        pushScope
        match name with
        | some token => define token.text r.value
        | none => pure ()
        handlerBody j column (j.body (column + 4))
      | other =>
        skipBody (column + 4)
        finallyClause j column true other : Eval Status) := by
  refine .bind (remains_enterBlock _) fun _ => ?_
  split
  · -- the handler has a scope of its own, which its last statement takes off again
    refine .push_bind fun _ => ?_
    cases name with
    | some token =>
      exact .within (remains_define _ _) (firm_define _ _) fun _ => homing_handlerBody hj column
    | none => exact homing_handlerBody hj column
  · exact .bind (remains_skipBody _) fun _ => homing_finallyClause hj column true _

theorem homing_handlerClause (column : Nat) (pending : Option Signal) :
    Homing 0 A (handlerClause j column pending) := by
  have clause := homing_clause (A := A) hj column pending
  have named : Remains A (some <$> liftM (advance .ident) : Eval (Option Token)) :=
    .of (.map _ (.lift (quiet_advance _))) fun _ => .map _ (.lift (echoes_advance _))
  refine .bind remains_bump fun _ => .bind (remains_skipOver _) fun _ => ?_
  exact .ite (fun _ => .bind named clause) fun _ => .bind (.pure _) clause

theorem homing_tryClauses (column : Nat) (pending : Option Signal) :
    Homing 0 A (tryClauses j column pending) := by
  have clause : Remains A (liftM (isClause .kwCatch column) : Eval Bool) :=
    .of (.lift (quiet_isClause _ _)) fun _ => .lift (echoes_isClause _ _)
  exact .bind clause fun _ => .ite (fun _ => homing_handlerClause hj column pending)
    fun _ => homing_finallyClause hj column false pending

theorem homes_tryBody (h : BodyHomes program A c home m body) (column : Nat) :
    Homes true home m (runTry j column body .body m) := by
  refine h.bind (.attempt .body) rfl rfl fun status hn => ?_
  cases status with
  | yielded => contradiction
  | normal => exact homing_tryClauses hj column none
  | leaving signal => exact homing_tryClauses hj column (some signal)

theorem homing_tryStatement : Homing 0 A (tryStatement j) := by
  refine .bind remains_bump fun keyword => .bind (remains_enterBlock _) fun _ => ?_
  intro program c m home hm hr hs
  obtain rfl : m.thread.scope = home := hs
  exact homes_tryBody hj (hj.fresh hm hr keyword.column) keyword.column

/-! ### Loops -/

theorem remains_whileCondition (column : Nat) (header : Position) :
    Remains (fun s => A s ∧ s.Marks header) (whileCondition j column header) := by
  refine .bind (remains_rewind header) fun _ => .bind remains_resetTapeUnlessReplaying fun _ => ?_
  refine .bind remains_current fun _ => .bind (remains_expression hj) fun held => ?_
  split
  · exact .bind (remains_enterBlock _) fun _ => .pure _
  · exact remains_complain _ _

omit hj in
theorem homes_whileRound {header : Position} {again : Eval Status}
    (ha : Homing 0 A again) (h : BodyHomes program A c home m body) :
    Homes true home m (whileRound header again body m) := by
  refine h.bind (.whileLoop header) rfl rfl fun status hn => ?_
  cases status with
  | yielded => contradiction
  | normal => exact ha
  | leaving signal =>
    cases signal with
    | again => exact ha
    | stop => exact .pure (by simp)
    | result v => exact .pure (by simp)
    | raised r => exact .pure (by simp)

theorem homing_whileRounds (column : Nat) (header : Position) (n : Nat) :
    Homing 0 (fun s => A s ∧ s.Marks header) (whileRounds j column header n) := by
  induction n with
  | zero => exact .exhausted
  | succ n ih =>
    refine .bind (remains_whileCondition hj column header) fun _ => .ite (fun _ => ?_) fun _ => ?_
    · intro program c m home hm hr hs
      obtain rfl : m.thread.scope = home := hs
      exact homes_whileRound ih (hj.fresh hm hr column)
    · exact .bind (remains_skipBody _) fun _ => .pure (by simp)

omit hj in
theorem homing_leaveLoop (column : Nat) (start : Position) {status : Status}
    (hn : status ≠ .yielded) : Homing 1 (fun s => A s ∧ s.Marks start) (do
      leaveLoop column start
      return status : Eval Status) := by
  simp only [leaveLoop, bind_assoc]
  exact .pop_bind fun _ => .bind (remains_rewind start) fun _ => .bind (remains_skipBody _) fun _ =>
    .pure hn

omit hj in
/-- A counting loop goes on with its next round or is left. -/
theorem homing_advanced (column : Nat) (l : RangeLoop) {again : RangeLoop → Eval Status}
    (ha : ∀ l : RangeLoop, Homing 1 (fun s => A s ∧ s.Marks l.body) (again l)) :
    Homing 1 (fun s => A s ∧ s.Marks l.body) (match l.advance? with
      | some l => again l
      | none => do
        leaveLoop column l.body
        return .normal : Eval Status) := by
  split
  · rename_i l' hl
    exact body_advance? hl ▸ ha l'
  · exact homing_leaveLoop column l.body (by simp)

omit hj in
theorem homes_rangeRound (column : Nat) (l : RangeLoop) {again : RangeLoop → Eval Status}
    (ha : ∀ l : RangeLoop, Homing 1 (fun s => A s ∧ s.Marks l.body) (again l))
    (h : BodyHomes program (fun s => A s ∧ s.Marks l.body) c s m body)
    (hs : m.world.scopes.Inside 1 s home) :
    Homes true home m (rangeRound column l again body m) := by
  have advanced := homing_advanced (A := A) column l ha
  refine h.bind (.rangeLoop l) hs rfl fun status hn => ?_
  cases status with
  | yielded => contradiction
  | normal => exact advanced
  | leaving signal =>
    cases signal with
    | again => exact advanced
    | stop => exact homing_leaveLoop column l.body (by simp)
    | result v => exact homing_leaveLoop column l.body (by simp)
    | raised r => exact homing_leaveLoop column l.body (by simp)

theorem homing_rangeRounds (column n : Nat) (l : RangeLoop) :
    Homing 1 (fun s => A s ∧ s.Marks l.body) (rangeRounds j column n l) := by
  induction n generalizing l with
  | zero => exact .exhausted
  | succ n ih =>
    refine .ite (fun _ => homing_leaveLoop column l.body (by simp)) fun _ => ?_
    refine .within (remains_define _ _) (firm_define _ _) fun _ => ?_
    refine .within (remains_rewind l.body) (firm_lift _) fun _ => ?_
    exact fun _ _ _ _ hm hr hs => homes_rangeRound column l ih (hj.fresh hm hr column) hs

omit hj in
theorem homes_eachRound (column : Nat) (l : EachLoop) {again : EachLoop → Eval Status}
    (ha : ∀ l : EachLoop, Homing 1 (fun s => A s ∧ s.Marks l.body) (again l))
    (h : BodyHomes program (fun s => A s ∧ s.Marks l.body) c s m body)
    (hs : m.world.scopes.Inside 1 s home) :
    Homes true home m (eachRound column l again body m) := by
  refine h.bind (.eachLoop l) hs rfl fun status hn => ?_
  cases status with
  | yielded => contradiction
  | normal => exact ha { l with next := l.next + 1 }
  | leaving signal =>
    cases signal with
    | again => exact ha { l with next := l.next + 1 }
    | stop => exact homing_leaveLoop column l.body (by simp)
    | result v => exact homing_leaveLoop column l.body (by simp)
    | raised r => exact homing_leaveLoop column l.body (by simp)

theorem homing_eachRounds (column n : Nat) (l : EachLoop) :
    Homing 1 (fun s => A s ∧ s.Marks l.body) (eachRounds j column n l) := by
  induction n generalizing l with
  | zero => exact .exhausted
  | succ n ih =>
    unfold eachRounds
    split
    · exact homing_leaveLoop column l.body (by simp)
    · refine .within (remains_onHeap _) (firm_onHeap _) fun _ => ?_
      refine .within (remains_define _ _) (firm_define _ _) fun _ => ?_
      refine .within (remains_rewind l.body) (firm_lift _) fun _ => ?_
      exact fun _ _ _ _ hm hr hs => homes_eachRound column l ih (hj.fresh hm hr column) hs

theorem homing_rangeLoop (n column : Nat) (var : String) :
    Homing 0 A (rangeLoop j n column var) := by
  have held (vs : List Value) : Remains A (holding vs j.expression) :=
    remains_holding _ hj.works.expression fun ground => (hj.echoes ground).expression
  refine .bind remains_bump fun _ => .bind remains_current fun site => ?_
  refine .bind (remains_expression hj) fun _ => .bind (remains_own _) fun first => ?_
  refine .bind (remains_advance _) fun _ => .bind (held _) fun _ => ?_
  refine .bind (remains_own _) fun last => ?_
  -- from here on the loop's scope is open, and its rounds are at home in it
  have entered (step : Value) : Homing 0 A (do
      enterBlock column
      checkBounds first last step site
      let l := { var, current := first, last, step, body := ← capture }
      pushScope
      inLoop (rangeRounds j column n l) : Eval Status) := by
    have bounds : Remains A (checkBounds first last step site) :=
      .of (quiet_checkBounds _ _ _ _) fun _ => echoes_checkBounds _ _ _ _
    refine .bind (remains_enterBlock _) fun _ => .bind bounds fun _ => ?_
    refine .capture_bind fun start => .push_bind fun _ => .inLoop ?_
    exact homing_rangeRounds hj column n ⟨var, first, last, step, start⟩
  refine .bind (remains_skipOver _) fun _ => .ite (fun _ => ?_) fun _ => ?_
  · exact .bind (held _) fun _ => .bind (remains_own _) entered
  · exact .bind (.pure _) entered

theorem homing_eachLoop (n column : Nat) (var : String) :
    Homing 0 A (eachLoop j n column var) := by
  have checked (site : Token) (x : Except Complaint (Array Value)) :
      Remains A (orComplain site x) := .of (quiet_orComplain _ _) fun _ => echoes_orComplain _ _
  refine .bind remains_bump fun _ => .bind remains_current fun _ => ?_
  refine .bind (remains_expression hj) fun _ => .bind (remains_enterBlock _) fun _ => ?_
  refine .bind (remains_ask _) fun _ => .bind (checked _ _) fun items => ?_
  refine .capture_bind fun start => .push_bind fun _ => ?_
  exact .overItems _ (homing_eachRounds hj column n ⟨var, items, 0, start⟩)

theorem homing_forLoop (n column : Nat) : Homing 0 A (forLoop j n column) := by
  refine .bind (remains_advance _) fun _ => .bind (remains_advance _) fun var => ?_
  refine .bind remains_kind fun k => ?_
  split
  · exact homing_rangeLoop hj n column _
  · exact homing_eachLoop hj n column _
  · exact .bind remains_current fun _ => .malformed _ _

theorem homing_loopStatement (n : Nat) : Homing 0 A (loopStatement j n) := by
  refine .bind remains_bump fun _ => .bind (remains_advance _) fun _ => ?_
  refine .bind remains_kind fun k => ?_
  split
  · refine .bind remains_bump fun _ => .capture_bind fun header => .inLoop ?_
    exact homing_whileRounds hj _ header n
  · exact homing_forLoop hj n _
  · exact .bind remains_current fun _ => .malformed _ _

end Tidy

end Constructs

end Eval

end Rewind
