/-
Computations that keep values apart.

A machine is safe with a hand if its world is, together with what the machine itself has in its
keeping: the namespaces of modules, the tapes, and what the running thread goes on with.  And the
coroutines whose bodies its threads run are in their turns.  A computation takes one hand and leaves
another one, whatever else is held; an exception that it ends with is part of what it leaves.

Two computations are looked at side by side that do the same in every safe machine.  So two watches
that differ only where machines are not safe make the same run.

* `Machine.stock`, `Machine.tasks`, `Machine.Safe` — a machine with a hand;
* `Fares`, `Keeps` — what a computation takes and leaves; `Keeps.bind`, `Keeps.after`, … — rules;
* `Retains` — the same for a statement, which may ask for a frame with something in it.
-/
import Rewind.Proofs.Trust
import Rewind.Proofs.Watched

namespace Rewind

/-- What a thread goes on with. -/
def Thread.hand (t : Thread) : Hand := t.tape.hand + framesHand t.resume + framesHand t.parked

/-- The value of an exception. -/
def Interrupt.hand : Interrupt → Hand
  | raised r => {.owned r.value}
  | _ => 0

/-- The values a statement leaves its body with. -/
def Status.hand : Status → Hand
  | leaving s => s.hand
  | _ => 0

/-- What an expression gave. -/
def Held.hand : Held → Hand
  | fresh v => {.owned v}
  | view v => {.seen v}

/-- What a computation leaves as it is: what is held meanwhile, whose body runs, and whether a loop
does. -/
structure Bonds where
  pinned : List Pin
  task : Option (Ref .coroutine)
  weaving : Bool

namespace Machine

/-- What a machine has in its keeping besides its world. -/
def stock (m : Machine) : Hand :=
  .ofValues ↑(m.modules.map (·.2)) + (↑m.callers : Multiset Thread).bind (·.tape.hand) + m.thread.hand

/-- The coroutines whose bodies the threads of a machine run, the one that goes on and those that wait
for it. -/
def tasks (m : Machine) : List (Ref .coroutine) := (m.thread :: m.callers).filterMap (·.task)

theorem mem_tasks {m : Machine} {r : Ref .coroutine} : r ∈ m.tasks ↔
    m.thread.task = some r ∨ ∃ t, .thread t ∈ m.pinned ∧ t.task = some r := by
  have held (t : Thread) : t ∈ m.callers ↔ .thread t ∈ m.pinned := by
    simp only [callers, List.mem_filterMap]
    constructor
    · rintro ⟨pin, hm, hp⟩
      cases pin with
      | thread u => exact Option.some.inj hp ▸ hm
      | values => contradiction
    · exact fun hm => ⟨_, hm, rfl⟩
  simp only [tasks, List.mem_filterMap, List.mem_cons, held, or_and_right, exists_or, exists_eq_left]

theorem tasks_thread (m : Machine) {t : Thread} (ht : t.task = m.thread.task) :
    ({ m with thread := t } : Machine).tasks = m.tasks := by
  simp only [tasks, callers, List.filterMap_cons, ht]

/-- What the machine is bound to while something is computed. -/
def bonds (m : Machine) : Bonds := ⟨m.pinned, m.thread.task, m.weaving⟩

theorem tasks_of_bonds {m m' : Machine} (h : m'.bonds = m.bonds) : m'.tasks = m.tasks := by
  obtain ⟨hp, ht, -⟩ := Bonds.mk.inj h
  simp only [tasks, callers, List.filterMap_cons, hp, ht]

theorem tasks_pinned (m : Machine) {pinned : List Pin}
    (hc : pinned.filterMap Pin.thread? = m.callers) : ({ m with pinned } : Machine).tasks = m.tasks := by
  simp only [tasks, callers, hc]

/-- A machine with what is in somebody's hand, while no construct asks for a frame. -/
structure Safe (m : Machine) (H : Hand) : Prop where
  world : m.world.Safe (m.stock + H)
  parking : m.thread.parking = none
  /-- Coroutines whose bodies are run are in their turns, and a loop runs then. -/
  acts : ∀ r ∈ m.tasks, m.weaving = true ∧ m.world.Acts r

variable {m m' : Machine} {H K : Hand} {v : Value}

namespace Safe

theorem of_gives (h : m.Safe H) (hg : H.Gives K) : m.Safe K :=
  { h with world := h.world.of_gives (.frame _ hg) }

theorem mono (h : m.Safe H) (hle : K ≤ H) : m.Safe K := h.of_gives (.of_le hle)

theorem left (h : m.Safe (H + K)) : m.Safe H := h.mono (Multiset.le_add_right _ _)

/-- Something passes between the hand and what the machine has in its keeping. -/
theorem change (h : m.Safe H) (hw : m'.world = m.world) (hs : m'.stock + K ≤ m.stock + H)
    (hp : m'.thread.parking = none) (ht : ∀ r ∈ m'.tasks, r ∈ m.tasks)
    (hv : m'.weaving = m.weaving) : m'.Safe K :=
  ⟨hw ▸ h.world.mono hs, hp, fun r hr => by rw [hv, hw]; exact h.acts r (ht r hr)⟩

/-- Nothing of what is kept is changed. -/
theorem of_same (h : m.Safe H) (hw : m'.world = m.world) (hs : m'.stock = m.stock)
    (hp : m'.thread.parking = m.thread.parking)
    (ht : ∀ r ∈ m'.tasks, r ∈ m.tasks) (hv : m'.weaving = m.weaving) : m'.Safe H :=
  h.change hw (hs ▸ le_rfl) (hp.trans h.parking) ht hv

/-- The world changes, and turns go on. -/
theorem onWorld {w : World} (h : m.Safe H) (hw : ∀ R, m.world.Safe (R + H) → w.Safe (R + K))
    (ha : ∀ r, m.world.Acts r → w.Acts r) : { m with world := w }.Safe K :=
  ⟨hw _ h.world, h.parking, fun r hr => (h.acts r hr).imp_right (ha r)⟩

end Safe

end Machine

/-! ### Taking and leaving -/

variable {ε α β : Type} [Stops ε]

/-- How a computation ends: `r'` as `r`, in a machine of which `view` still sees the same, and which is
as `Q` or `E` says. -/
def Fares (view : Machine → Bonds) (b : Bonds) (Q : α → Machine → Prop)
    (E : Interrupt → Machine → Prop) :
    EStateM.Result ε Machine α → EStateM.Result ε Machine α → Prop
  | .ok a m, r' => r' = .ok a m ∧ view m = b ∧ Q a m
  | .error e m, r' => r' = .error e m ∧ view m = b ∧ E (Stops.interrupt e) m

/-- Both computations do the same, and take the hand `H` and leave the hand `post`. -/
def Keeps (H : Hand) (x x' : EStateM ε Machine α) (post : α → Hand) : Prop :=
  ∀ m R, m.Safe (R + H) → Fares Machine.bonds m.bonds (fun a m' => m'.Safe (R + post a))
    (fun e m' => m'.Safe (R + e.hand)) (x m) (x' m)

namespace Fares

variable {Q Q' : α → Machine → Prop} {E E' : Interrupt → Machine → Prop} {view : Machine → Bonds} {b : Bonds}
  {r r' : EStateM.Result ε Machine α}

theorem ok {a : α} {m : Machine} (hp : view m = b) (hq : Q a m) :
    Fares view b Q E (.ok a m : EStateM.Result ε Machine α) (.ok a m) := ⟨rfl, hp, hq⟩

theorem error {e : ε} {m : Machine} (hp : view m = b) (he : E (Stops.interrupt e) m) :
    Fares view b Q E (.error e m : EStateM.Result ε Machine α) (.error e m) := ⟨rfl, hp, he⟩

theorem imp (h : Fares view b Q E r r') (hq : ∀ a m, Q a m → Q' a m) (he : ∀ e m, E e m → E' e m) :
    Fares view b Q' E' r r' := by
  cases r with
  | ok a m => exact ⟨h.1, h.2.1, hq a m h.2.2⟩
  | error e m => exact ⟨h.1, h.2.1, he _ m h.2.2⟩

theorem bind {x x' : EStateM ε Machine α} {f f' : α → EStateM ε Machine β}
    {P : β → Machine → Prop} {m : Machine} (h : Fares view b Q E (x m) (x' m))
    (hf : ∀ a m', view m' = b → Q a m' → Fares view b P E (f a m') (f' a m')) :
    Fares view b P E ((x >>= f) m) ((x' >>= f') m) := by
  show Fares view b P E (EStateM.bind x f m) (EStateM.bind x' f' m)
  unfold EStateM.bind
  cases hx : x m with
  | ok a m' =>
    rw [hx] at h
    rw [h.1]
    exact hf a m' h.2.1 h.2.2
  | error e m' =>
    rw [hx] at h
    rw [h.1]
    exact error h.2.1 h.2.2

/-- What runs a computation on the machine `inner` and puts the machine right by `leave`. -/
theorem around {m : Machine} (inner : Machine) (leave : Machine → Machine)
    {enclosed : EStateM ε Machine α → EStateM ε Machine α}
    (hok : ∀ {x a m'}, x inner = .ok a m' → enclosed x m = .ok a (leave m'))
    (herr : ∀ {x e m'}, x inner = .error e m' → enclosed x m = .error e (leave m'))
    (hpin : ∀ {m'}, m'.bonds = inner.bonds → view (leave m') = b)
    {Q' : α → Machine → Prop} {E' : Interrupt → Machine → Prop}
    (hq : ∀ {a m'}, m'.bonds = inner.bonds → Q' a m' → Q a (leave m'))
    (he : ∀ {e m'}, m'.bonds = inner.bonds → E' e m' → E e (leave m'))
    {x x' : EStateM ε Machine α} (h : Fares Machine.bonds inner.bonds Q' E' (x inner) (x' inner)) :
    Fares view b Q E (enclosed x m) (enclosed x' m) := by
  cases hx : x inner with
  | ok a m' =>
    rw [hx] at h
    rw [hok hx, hok h.1]
    exact ok (hpin h.2.1) (hq h.2.1 h.2.2)
  | error e m' =>
    rw [hx] at h
    rw [herr hx, herr h.1]
    exact error (hpin h.2.1) (he h.2.1 h.2.2)

end Fares

namespace Keeps

variable {H K F : Hand} {post post' : α → Hand} {x x' y y' : EStateM ε Machine α}

theorem of_gives (hg : H.Gives K) (h : Keeps K x x' post) : Keeps H x x' post :=
  fun m R hm => h m R (hm.of_gives (.frame R hg))

theorem gives (h : Keeps H x x' post) (hg : ∀ a, (post a).Gives (post' a)) : Keeps H x x' post' :=
  fun m R hm => (h m R hm).imp (fun a _ hm => hm.of_gives (.frame R (hg a))) fun _ _ => id

/-- What else is held is held afterwards. -/
theorem frame (F : Hand) (h : Keeps H x x' post) : Keeps (F + H) x x' fun a => F + post a :=
  fun m R hm => by
    refine (h m (R + F) (by rwa [add_assoc])).imp (fun a m' hm' => ?_) fun e m' hm' => ?_
    · rwa [← add_assoc]
    · exact hm'.mono (add_le_add_left (Multiset.le_add_right _ _) _)

theorem pure {a : α} (hg : H.Gives (post a)) :
    Keeps H (Pure.pure a : EStateM ε Machine α) (Pure.pure a) post :=
  fun _ R hm => .ok rfl (hm.of_gives (.frame R hg))

theorem stop {e : ε} (hg : H.Gives (Stops.interrupt e).hand) :
    Keeps H (throw e : EStateM ε Machine α) (throw e) post :=
  fun _ R hm => .error rfl (hm.of_gives (.frame R hg))

theorem bind {M : α → Hand} {post : β → Hand} {f f' : α → EStateM ε Machine β}
    (hx : Keeps H x x' M) (hf : ∀ a, Keeps (M a) (f a) (f' a) post) :
    Keeps H (x >>= f) (x' >>= f') post :=
  fun m R hm => (hx m R hm).bind fun a m' hp hm' => hp ▸ hf a m' R hm'

/-- A computation that takes a part of what there is. -/
theorem after {M : α → Hand} {post : β → Hand} {f f' : α → EStateM ε Machine β}
    (hx : Keeps K x x' M) (hf : ∀ a, Keeps (F + M a) (f a) (f' a) post) :
    Keeps (F + K) (x >>= f) (x' >>= f') post := (hx.frame F).bind hf

/-- A computation that takes nothing of what there is. -/
theorem next {M : α → Hand} {post : β → Hand} {f f' : α → EStateM ε Machine β}
    (hx : Keeps 0 x x' M) (hf : ∀ a, Keeps (H + M a) (f a) (f' a) post) :
    Keeps H (x >>= f) (x' >>= f') post :=
  (add_zero H) ▸ hx.after (F := H) hf

/-- A computation that neither takes nor leaves anything. -/
theorem skip {post : β → Hand} {f f' : α → EStateM ε Machine β}
    (hx : Keeps 0 x x' fun _ => 0) (hf : ∀ a, Keeps H (f a) (f' a) post) :
    Keeps H (x >>= f) (x' >>= f') post := hx.next fun a => (add_zero H).symm ▸ hf a

theorem ite {p : Prop} [Decidable p] (hx : Keeps H x x' post) (hy : Keeps H y y' post) :
    Keeps H (if p then x else y) (if p then x' else y') post := by
  split
  · exact hx
  · exact hy

/-- A check before the rest of a computation. -/
theorem guard {p : Prop} [Decidable p] {x x' : EStateM ε Machine PUnit} {post : β → Hand}
    {f f' : PUnit → EStateM ε Machine β} (hx : Keeps H x x' fun _ => H)
    (hf : Keeps H (f ⟨⟩) (f' ⟨⟩) post) :
    Keeps H (if p then x >>= f else f ⟨⟩) (if p then x' >>= f' else f' ⟨⟩) post :=
  .ite (.bind hx fun _ => hf) hf

/-- A look at the machine. -/
theorem read (f : Machine → α) :
    Keeps 0 (fun m => .ok (f m) m : EStateM ε Machine α) (fun m => .ok (f m) m) fun _ => 0 :=
  fun _ _ hm => .ok rfl hm

/-- A look at the machine that comes upon something. -/
theorem look (f : Machine → α) (hf : ∀ (m : Machine) R, m.Safe (R + H) → m.Safe (R + post (f m))) :
    Keeps H (fun m => .ok (f m) m : EStateM ε Machine α) (fun m => .ok (f m) m) post :=
  fun m R hm => .ok rfl (hf m R hm)

/-- A computation that has all of the machine at hand. -/
theorem get_bind {f f' : Machine → EStateM ε Machine α}
    (hf : ∀ m R, m.Safe (R + H) → Fares Machine.bonds m.bonds (fun a m' => m'.Safe (R + post a))
      (fun e m' => m'.Safe (R + e.hand)) (f m m) (f' m m)) :
    Keeps H (get >>= f) (get >>= f') post := hf

/-- What ends a run ends an expression. -/
theorem lift {x x' : Run α} (hx : Keeps H x x' post) :
    Keeps H (liftM x : Eval α) (liftM x') post := by
  intro m R hm
  have h := hx m R hm
  rw [Quiet.run_lift, Quiet.run_lift]
  cases hr : x m with
  | ok a m' =>
    rw [hr] at h
    rw [h.1]
    exact .ok h.2.1 h.2.2
  | error f m' =>
    rw [hr] at h
    rw [h.1]
    exact .error h.2.1 h.2.2

/-- What is left by an attempt. -/
def attempted (post : α → Hand) : Attempt α → Hand
  | .value a => post a
  | .raised r => {.owned r.value}
  | .suspended => 0

theorem attempt {x x' : Eval α} (hx : Keeps H x x' post) :
    Keeps H (Eval.attempt x) (Eval.attempt x') (attempted post) := by
  intro m R hm
  have h := hx m R hm
  unfold Eval.attempt
  cases hr : x m with
  | ok a m' =>
    rw [hr] at h
    rw [h.1]
    exact .ok h.2.1 h.2.2
  | error e m' =>
    rw [hr] at h
    rw [h.1]
    cases e with
    | fault f => exact .error h.2.1 h.2.2
    | raised r => exact .ok h.2.1 h.2.2
    | suspended => exact .ok h.2.1 h.2.2

/-- What is left when errors are handed on. -/
def handedOn {δ : Type} (post : α → Hand) : Except δ α → Hand
  | .ok a => post a
  | .error _ => 0

/-- What values are held for others to see makes no difference. -/
theorem holding (vs : List Value) (hx : Keeps H x x' post) :
    Keeps H (Eval.holding vs x) (Eval.holding vs x') post := by
  intro m R hm
  have same {m : Machine} (pinned : List Pin) (hc : pinned.filterMap Pin.thread? = m.callers)
      {K : Hand} (h : m.Safe K) : ({ m with pinned } : Machine).Safe K :=
    h.of_same rfl (by simp only [Machine.stock, Machine.callers, hc]) rfl
      (fun r hr => (m.tasks_pinned hc) ▸ hr) rfl
  have left {m' : Machine} (hp : m'.bonds = ({ m with pinned := .values vs :: m.pinned } : Machine).bonds) :
      m.pinned.filterMap Pin.thread? = m'.callers := by
    rw [Machine.callers, show m'.pinned = .values vs :: m.pinned from congrArg Bonds.pinned hp]
    rfl
  exact Fares.around { m with pinned := .values vs :: m.pinned }
    (fun m' => { m' with pinned := m.pinned })
    (fun h => by simp only [Eval.holding, Eval.pinning, h])
    (fun h => by simp only [Eval.holding, Eval.pinning, h])
    (fun hp => congrArg (fun b => { b with pinned := m.pinned }) hp)
    (fun hp h => same _ (left hp) h) (fun hp h => same _ (left hp) h)
    (hx { m with pinned := .values vs :: m.pinned } R (same (.values vs :: m.pinned) rfl hm))

/-- Only the running thread is changed on the way in and out, and nothing that it goes on with. -/
theorem within (enter leave : Thread → Thread) {enclosed : EStateM ε Machine α → EStateM ε Machine α}
    (hok : ∀ {x m a m'}, x { m with thread := enter m.thread } = .ok a m' →
      enclosed x m = .ok a { m' with thread := leave m'.thread })
    (herr : ∀ {x m e m'}, x { m with thread := enter m.thread } = .error e m' →
      enclosed x m = .error e { m' with thread := leave m'.thread })
    (henter : ∀ t, (enter t).hand = t.hand ∧ (enter t).parking = t.parking ∧ (enter t).task = t.task)
    (hleave : ∀ t, (leave t).hand = t.hand ∧ (leave t).parking = t.parking ∧ (leave t).task = t.task)
    (hx : Keeps H x x' post) : Keeps H (enclosed x) (enclosed x') post := by
  intro m R hm
  -- what is safe depends on what the thread holds, parks and works at, and on nothing else of it
  have same {f : Thread → Thread}
      (hf : ∀ t, (f t).hand = t.hand ∧ (f t).parking = t.parking ∧ (f t).task = t.task)
      {m : Machine} {K : Hand} (h : m.Safe K) :
      ({ m with thread := f m.thread } : Machine).Safe K :=
    h.of_same rfl (by simp only [Machine.stock, Machine.callers, (hf m.thread).1]) (hf m.thread).2.1
      (fun r hr => (m.tasks_thread (hf m.thread).2.2) ▸ hr) rfl
  have bonds {f : Thread → Thread} (hf : ∀ t, (f t).task = t.task) (m : Machine) :
      ({ m with thread := f m.thread } : Machine).bonds = m.bonds := by
    simp only [Machine.bonds, hf]
  exact Fares.around { m with thread := enter m.thread }
    (fun m' => { m' with thread := leave m'.thread }) (fun h => hok h) (fun h => herr h)
    (fun hp => ((bonds (fun t => (hleave t).2.2) _).trans hp).trans (bonds (fun t => (henter t).2.2) m))
    (fun _ h => same hleave h) (fun _ h => same hleave h) (hx _ R (same henter hm))

theorem skipping (hx : Keeps H x x' post) : Keeps H (Eval.skipping x) (Eval.skipping x') post :=
  hx.within (fun t => { t with skip := t.skip + 1 }) (fun t => { t with skip := t.skip - 1 })
    (fun h => by simp only [Eval.skipping, h]) (fun h => by simp only [Eval.skipping, h])
    (fun _ => ⟨rfl, rfl, rfl⟩) fun _ => ⟨rfl, rfl, rfl⟩

theorem restoring (outer : Cursor) {x x' : Eval α} (hx : Keeps H x x' post) :
    Keeps H (Eval.embedded.restoring outer x) (Eval.embedded.restoring outer x') post :=
  hx.within id (fun t => { t with cursor := outer })
    (fun {x m a m'} h => by
      have h : x m = .ok a m' := h
      simp only [Eval.embedded.restoring, h])
    (fun {x m e m'} h => by
      have h : x m = .error e m' := h
      simp only [Eval.embedded.restoring, h])
    (fun _ => ⟨rfl, rfl, rfl⟩) fun _ => ⟨rfl, rfl, rfl⟩

/-- Something is done with each of a list, which has a part of what there is. -/
theorem mapM {f f' : α → EStateM ε Machine β} {pre : α → Hand} {g : β → Hand}
    (hf : ∀ a, Keeps (pre a) (f a) (f' a) g) (l : List α) :
    Keeps (l.map pre).sum (l.mapM f) (l.mapM f') fun bs => (bs.map g).sum := by
  induction l with
  | nil => exact .pure (.refl _)
  | cons a l ih =>
    rw [List.mapM_cons, List.mapM_cons, List.map_cons, List.sum_cons, add_comm]
    refine .after (hf a) fun b => ?_
    rw [add_comm]
    refine .after ih fun bs => .pure (.of_eq ?_)
    rw [List.map_cons, List.sum_cons]

theorem mapM_skip {f f' : α → EStateM ε Machine β} (hf : ∀ a, Keeps 0 (f a) (f' a) fun _ => 0)
    (l : List α) : Keeps 0 (l.mapM f) (l.mapM f') fun _ => 0 := by
  have none {γ : Type} (l : List γ) : (l.map fun _ => (0 : Hand)).sum = 0 := by simp
  have all := mapM hf l
  simpa only [none] using all

end Keeps

namespace Eval

variable {H K : Hand} {post : α → Hand}

theorem keeps_onWorld {f : World → α × World}
    (ha : ∀ (w : World) r, w.Acts r → (f w).2.Acts r)
    (hf : ∀ (w : World) R, w.Safe (R + H) → (f w).2.Safe (R + post (f w).1)) :
    Keeps H (onWorld f : EStateM ε Machine α) (onWorld f) post :=
  fun m R hm => .ok rfl (hm.onWorld (fun S hw => by
    rw [← add_assoc] at hw ⊢
    exact hf m.world (S + R) hw) (ha m.world))

theorem keeps_modifyWorld {f : World → World}
    (ha : ∀ (w : World) r, w.Acts r → (f w).Acts r)
    (hf : ∀ (w : World) R, w.Safe (R + H) → (f w).Safe (R + K)) :
    Keeps H (modifyWorld f : EStateM ε Machine Unit) (modifyWorld f) fun _ => K :=
  keeps_onWorld ha hf

/-- A change of the world that all that is held survives. -/
theorem keeps_world {f : World → World} (ha : ∀ (w : World) r, w.Acts r → (f w).Acts r)
    (hf : ∀ (w : World) R, w.Safe R → (f w).Safe R) :
    Keeps 0 (modifyWorld f : EStateM ε Machine Unit) (modifyWorld f) fun _ => 0 :=
  keeps_modifyWorld ha fun w R hw => by
    rw [add_zero] at hw ⊢
    exact hf w R hw

theorem keeps_ask (f : World → α) :
    Keeps 0 (ask f : EStateM ε Machine α) (ask f) fun _ => 0 := .read fun m => f m.world

/-- A look at the world that comes upon something. -/
theorem keeps_askFor (f : World → α) (post : α → Hand)
    (hf : ∀ (w : World) R, w.Safe (R + H) → w.Safe (R + post (f w))) :
    Keeps H (ask f : EStateM ε Machine α) (ask f) post :=
  .look _ fun m R hm => { hm with
    world := by
      rw [← add_assoc]
      exact hf m.world _ (by rw [add_assoc]; exact hm.world) }

/-- A change of the machine by which nothing is lost or gained. -/
theorem keeps_modify {f : Machine → Machine} (hw : ∀ m, (f m).world = m.world)
    (hs : ∀ m, (f m).stock = m.stock) (hp : ∀ m, (f m).bonds = m.bonds)
    (hk : ∀ m, (f m).thread.parking = m.thread.parking) :
    Keeps 0 (modify f : EStateM ε Machine Unit) (modify f) fun _ => 0 :=
  fun m _ hm => .ok (hp m) (hm.of_same (hw m) (hs m) (hk m)
    (fun r hr => by rwa [Machine.tasks_of_bonds (hp m)] at hr) (congrArg Bonds.weaving (hp m)))

/-- A change of the running thread that makes it go on with less. -/
theorem keeps_modifyThread {f : Thread → Thread} (hf : ∀ t, (f t).hand + K ≤ t.hand + H)
    (hp : ∀ t, t.parking = none → (f t).parking = none)
    (ht : ∀ t, (f t).task = t.task) :
    Keeps H (modifyThread f : EStateM ε Machine Unit) (modifyThread f) fun _ => K :=
  fun m R hm => .ok (by
    show Machine.bonds { m with thread := f m.thread } = _
    simp only [Machine.bonds, ht]) (hm.change rfl (by
    have less := add_le_add_right (hf m.thread)
      (.ofValues ↑(m.modules.map (·.2)) + (↑m.callers : Multiset Thread).bind (·.tape.hand) + R)
    refine (le_of_eq ?_).trans (less.trans_eq ?_)
    · simp only [Machine.stock, Machine.callers]
      abel
    · simp only [Machine.stock]
      abel) (hp _ hm.parking) (fun r hr => (m.tasks_thread (ht m.thread)) ▸ hr) rfl)

/-- A change of the running thread that leaves what it goes on with. -/
theorem keeps_thread {f : Thread → Thread}
    (hf : ∀ t, (f t).hand = t.hand ∧ (f t).parking = t.parking ∧ (f t).task = t.task) :
    Keeps 0 (modifyThread f : EStateM ε Machine Unit) (modifyThread f) fun _ => 0 :=
  keeps_modifyThread (fun t => by rw [(hf t).1]) (fun t ht => (hf t).2.1.trans ht) fun t => (hf t).2.2

theorem keeps_resetTape : Keeps 0 (resetTape : EStateM ε Machine Unit) resetTape fun _ => 0 :=
  keeps_modifyThread (fun t => by
    split
    · simp only [Thread.hand, hand_reset, add_zero, zero_add]
      rw [add_assoc]
      exact Multiset.le_add_left _ _
    · exact le_rfl) (fun t ht => by split <;> exact ht) fun t => by split <;> rfl

end Eval

/-! ### Statements that may ask for a frame -/

/-- The machine in which nothing has asked for a frame. -/
def Machine.unparked (m : Machine) : Machine :=
  { m with thread := { m.thread with parking := none } }

/-- A machine behind a statement.  One that has yielded may have asked for a frame, which has what the
construct goes on with. -/
def Machine.SafeAfter (m : Machine) (R : Hand) : Status → Prop
  | .yielded => m.unparked.Safe (R + m.thread.parking.elim 0 FrameKind.hand)
  | status => m.Safe (R + status.hand)

theorem Machine.Safe.after {m : Machine} {R : Hand} {status : Status}
    (h : m.Safe (R + status.hand)) : m.SafeAfter R status := by
  cases status with
  | yielded =>
    have same : m.unparked.Safe (R + 0) := h.of_same rfl rfl h.parking.symm (fun _ => id) rfl
    simpa [Machine.SafeAfter, h.parking] using same
  | _ => exact h

theorem Machine.SafeAfter.of_same {m m' : Machine} {R : Hand} {status : Status}
    (h : m.SafeAfter R status) (hw : m'.world = m.world) (hs : m'.stock = m.stock)
    (hp : m'.thread.parking = m.thread.parking)
    (ht : ∀ r ∈ m'.tasks, r ∈ m.tasks) (hv : m'.weaving = m.weaving) : m'.SafeAfter R status := by
  cases status with
  | yielded =>
    simp only [Machine.SafeAfter, hp] at h ⊢
    exact h.of_same hw hs rfl ht hv
  | _ => exact Machine.Safe.of_same h hw hs hp ht hv

/-- Both statements do the same and take the hand `H`; what they ask for is theirs to give. -/
def Retains (H : Hand) (x x' : Eval Status) : Prop :=
  ∀ m R, m.Safe (R + H) → Fares Machine.bonds m.bonds (fun s m' => m'.SafeAfter R s)
    (fun e m' => m'.Safe (R + e.hand)) (x m) (x' m)

namespace Retains

variable {H K F : Hand} {x x' y y' : Eval Status}

theorem of_keeps (h : Keeps H x x' Status.hand) : Retains H x x' :=
  fun m R hm => (h m R hm).imp (fun _ _ hm => hm.after) fun _ _ => id

theorem of_gives (hg : H.Gives K) (h : Retains K x x') : Retains H x x' :=
  fun m R hm => h m R (hm.of_gives (.frame R hg))

theorem bind {M : α → Hand} {z z' : Eval α} {f f' : α → Eval Status} (hz : Keeps H z z' M)
    (hf : ∀ a, Retains (M a) (f a) (f' a)) : Retains H (z >>= f) (z' >>= f') :=
  fun m R hm => (hz m R hm).bind fun a m' hp hm' => hp ▸ hf a m' R hm'

theorem next {M : α → Hand} {z z' : Eval α} {f f' : α → Eval Status} (hz : Keeps 0 z z' M)
    (hf : ∀ a, Retains (H + M a) (f a) (f' a)) : Retains H (z >>= f) (z' >>= f') := by
  have framed := hz.frame H
  rw [add_zero] at framed
  exact .bind framed hf

theorem skip {z z' : Eval α} {f f' : α → Eval Status} (hz : Keeps 0 z z' fun _ => 0)
    (hf : ∀ a, Retains H (f a) (f' a)) : Retains H (z >>= f) (z' >>= f') :=
  .next hz fun a => (add_zero H).symm ▸ hf a

theorem ite {p : Prop} [Decidable p] (hx : Retains H x x') (hy : Retains H y y') :
    Retains H (if p then x else y) (if p then x' else y') := by
  split
  · exact hx
  · exact hy

/-- A check before the rest of a statement. -/
theorem guard {p : Prop} [Decidable p] {z z' : Eval PUnit} {f f' : PUnit → Eval Status}
    (hz : Keeps H z z' fun _ => H) (hf : Retains H (f ⟨⟩) (f' ⟨⟩)) :
    Retains H (if p then z >>= f else f ⟨⟩) (if p then z' >>= f' else f' ⟨⟩) :=
  .ite (.bind hz fun _ => hf) hf

theorem pure {status : Status} (hg : H.Gives status.hand) :
    Retains H (Pure.pure status) (Pure.pure status) := of_keeps (.pure hg)

/-- A construct that yields asks for a frame. -/
theorem park (kind : FrameKind) : Retains kind.hand (Eval.park kind) (Eval.park kind) :=
  fun m R hm => by
    have parked : ({ m with thread := { m.thread with parking := some kind } } : Machine).SafeAfter R
        .yielded := hm.of_same rfl rfl hm.parking.symm (fun _ => id) rfl
    exact .ok rfl parked

/-- What values are held for others to see makes no difference. -/
theorem holding (vs : List Value) (hx : Retains H x x') :
    Retains H (Eval.holding vs x) (Eval.holding vs x') := by
  intro m R hm
  have stock {m : Machine} (pinned : List Pin) (hc : pinned.filterMap Pin.thread? = m.callers) :
      ({ m with pinned } : Machine).stock = m.stock := by
    simp only [Machine.stock, Machine.callers, hc]
  have left {m' : Machine} (hp : m'.bonds = ({ m with pinned := .values vs :: m.pinned } : Machine).bonds) :
      m.pinned.filterMap Pin.thread? = m'.callers := by
    rw [Machine.callers, show m'.pinned = .values vs :: m.pinned from congrArg Bonds.pinned hp]
    rfl
  exact Fares.around { m with pinned := .values vs :: m.pinned }
    (fun m' => { m' with pinned := m.pinned })
    (fun h => by simp only [Eval.holding, Eval.pinning, h])
    (fun h => by simp only [Eval.holding, Eval.pinning, h])
    (fun hp => congrArg (fun b => { b with pinned := m.pinned }) hp)
    (fun hp h => h.of_same rfl (stock _ (left hp)) rfl
      (fun r hr => (Machine.tasks_pinned _ (left hp)) ▸ hr) rfl)
    (fun hp h => h.of_same rfl (stock _ (left hp)) rfl
      (fun r hr => (Machine.tasks_pinned _ (left hp)) ▸ hr) rfl)
    (hx { m with pinned := .values vs :: m.pinned } R
      (hm.of_same rfl (stock (.values vs :: m.pinned) rfl) rfl (fun _ => id) rfl))

theorem inLoop (hx : Retains H x x') : Retains H (Eval.inLoop x) (Eval.inLoop x') := by
  intro m R hm
  have enter (x : Eval Status) (m : Machine) : (do
      Eval.modifyMode fun mode => { mode with loopDepth := mode.loopDepth + 1 }; x : Eval Status) m =
      x { m with thread := { m.thread with
        mode := { m.thread.mode with loopDepth := m.thread.mode.loopDepth + 1 } } } := rfl
  exact Fares.around { m with thread := { m.thread with
      mode := { m.thread.mode with loopDepth := m.thread.mode.loopDepth + 1 } } } Eval.inLoop.leave
    (fun h => by simp only [Eval.inLoop, enter]; rw [h])
    (fun h => by simp only [Eval.inLoop, enter]; rw [h]) (fun hp => hp)
    (fun _ h => h.of_same rfl rfl rfl (fun _ => id) rfl)
    (fun _ h => h.of_same rfl rfl rfl (fun _ => id) rfl)
    (hx _ R (hm.of_same rfl rfl rfl (fun _ => id) rfl))

/-- The end of a statement parks what was asked for. -/
theorem conclude (start : Position) (hx : Retains H x x') :
    Keeps H (Eval.conclude start x) (Eval.conclude start x') Status.hand := by
  intro m R hm
  have h := hx m R hm
  have reset {m : Machine} {K : Hand} (h : m.Safe K) (b : Bonds)
      (hp : m.bonds = b)
      {status : Status} (hs : m.Safe (R + status.hand)) :
      Fares Machine.bonds b (fun s m' => m'.Safe (R + s.hand)) (fun e m' => m'.Safe (R + e.hand))
        ((do Eval.resetTape; return status : Run Status) m)
        ((do Eval.resetTape; return status : Run Status) m) :=
    hp ▸ Keeps.skip Eval.keeps_resetTape (fun _ => .pure (.refl status.hand)) m R hs
  rw [Eval.conclude_run, Eval.conclude_run]
  cases hr : x m with
  | ok status m' =>
    rw [hr] at h
    rw [h.1]
    cases status with
    | yielded =>
      -- what was asked for is the innermost of what the thread goes on with
      refine .ok h.2.1 (h.2.2.change rfl (le_of_eq ?_) rfl (fun _ => id) rfl)
      have parked : (m'.thread.parking.getD .simple).hand =
          m'.thread.parking.elim 0 FrameKind.hand := by
        cases m'.thread.parking <;> rfl
      simp only [Machine.stock, Machine.callers, Machine.unparked, Thread.hand, framesHand_cons, parked,
        Status.hand]
      abel
    | _ => exact reset h.2.2 _ h.2.1 h.2.2
  | error e m' =>
    rw [hr] at h
    rw [h.1]
    cases e with
    | fault f => exact .error h.2.1 h.2.2
    | raised r => exact reset h.2.2 _ h.2.1 (h.2.2.of_gives (.frame R (.of_eq (by rfl))))
    | suspended =>
      refine .ok h.2.1 (h.2.2.change rfl (le_of_eq ?_) h.2.2.parking (fun _ => id) rfl)
      simp only [Machine.stock, Machine.callers, Thread.hand, framesHand_cons, FrameKind.hand, zero_add,
        Status.hand, Interrupt.hand, Stops.interrupt, id]

end Retains

end Rewind
