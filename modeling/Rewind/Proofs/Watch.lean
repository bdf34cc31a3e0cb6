/-
Watching a run.

A run can be watched without being disturbed: nothing in evaluation reads what has been printed, so
a watch may add to it.  It may add a text wherever a part of the program begins — an expression, an
operand, a body, a call, a statement — and another one wherever such a part ends with a fault.  What
a watched run prints then tells in what order, and in what states of the machine, the parts of the
program were evaluated.

The watched evaluator follows the plain one step by step.  Between two parts nothing happens that
the watch could miss, so two watches that say the same wherever a part can begin make the same run;
and what a watch says about faults comes behind everything else.

* `Part`, `Watch`, `Watch.jobs`, `watched` — the watched evaluator;
* `Kept` — what any evaluation leaves as it was: entries of modules that are there stay there;
* `Grounds`, `Lawful` — the machines in which evaluation may begin, and a part of it;
* `Echoes` — a computation that follows another one; `Echoes.bind`, `Echoes.lift`, … — what
  composes such computations.
-/
import Rewind.Proofs.Lineage
import Rewind.Proofs.Turns

namespace Rewind

/-! ### Watches -/

/-- A part of a program that evaluation takes up. -/
inductive Part where
  | expression
  | operand
  | body (column : Nat)
  | call
  | statement
  deriving DecidableEq

/-- What is printed besides: where a part begins in a machine, and where it ends with a fault. -/
structure Watch where
  begins : Part → Machine → String := fun _ _ => ""
  fails : Part → Fault → String := fun _ _ => ""

/-- The machine after `text` has been printed. -/
def Machine.printing (m : Machine) (text : String) : Machine :=
  { m with output := m.output ++ text }

@[simp] theorem Machine.printing_empty (m : Machine) : m.printing "" = m := by simp [printing]

theorem Machine.printing_append (m : Machine) (s t : String) :
    (m.printing s).printing t = m.printing (s ++ t) := by simp [printing, String.append_assoc]

namespace Watch

variable {ε α : Type} [Stops ε]

/-- The evaluation of a part under a watch. -/
def telling (w : Watch) (q : Part) (x : EStateM ε Machine α) : EStateM ε Machine α := fun m =>
  match x (m.printing (w.begins q m)) with
  | .ok a m => .ok a m
  | .error e m =>
    match Stops.interrupt e with
    | .fault f => .error e (m.printing (w.fails q f))
    | _ => .error e m

/-- Jobs under a watch. -/
def jobs (w : Watch) (j : Jobs) : Jobs where
  expression := w.telling .expression j.expression
  unary := w.telling .operand j.unary
  body column := w.telling (.body column) (j.body column)
  invoke callee args site := w.telling .call (j.invoke callee args site)

/-- What is said at faults, left out. -/
def beginnings (w : Watch) : Watch := { begins := w.begins }

/-- The texts printed where some parts ended with the fault `f`, the innermost part first. -/
def afterFault (w : Watch) (f : Fault) (qs : List Part) : String :=
  String.join (qs.map (w.fails · f))

end Watch

namespace Eval

/-- Statements, each run by `step`, up to a token that starts a line left of `column`. -/
def statementsBy (step : Nat → Run Status) (column : Nat) : Nat → Run Status
  | 0 => exhausted
  | n + 1 => do
    move Cursor.skipColons
    let cursor := (← get).thread.cursor
    let token := cursor.current
    if token.kind = .eof then return .normal
    if cursor.atLineStart then
      if token.column < column then return .normal
      if column < token.column then
        malformed (.unexpectedIndentation column token.column) token
    goOn column (statementsBy step column n) (step n)

/-- A body, which goes on with `rest` where it was suspended or else begins with it. -/
def bodyBy (rest : Run Status) : Run Status := do
  match (← get).thread.resume with
  | frame :: _ => rewind frame.start
  | [] => pure ()
  rest

theorem statementsBy_execute (j : Jobs) (column n : Nat) :
    statementsBy (execute j) column n = statements j column n := by
  induction n with
  | zero => rfl
  | succ n ih => rw [statementsBy, statements, ih]

theorem bodyBy_execute (j : Jobs) (n column : Nat) :
    bodyBy (statementsBy (execute j) column n) = runBody j n column := by
  rw [statementsBy_execute]
  rfl

/-- The jobs of a run under a watch.  The job at the top is not itself a part of the run. -/
def watched (w : Watch) : (fuel : Nat) → Jobs
  | 0 => jobs 0
  | fuel + 1 =>
    let j := w.jobs (watched w fuel)
    { expression := conditional j fuel
      unary := unaryExpr j fuel
      body := fun column =>
        bodyBy (statementsBy (fun n => w.telling .statement (execute j n)) column fuel)
      invoke := invokeValue j fuel }

variable {ε α : Type} [Stops ε]

theorem telling_silent (q : Part) (x : EStateM ε Machine α) : Watch.telling {} q x = x := by
  funext m
  simp only [Watch.telling, Machine.printing_empty]
  cases x m with
  | ok a m => rfl
  | error e m =>
    dsimp only
    split <;> rfl

theorem jobs_silent (j : Jobs) : Watch.jobs {} j = j := by simp only [Watch.jobs, telling_silent]

/-- Under a watch that says nothing a run is what it is. -/
theorem watched_silent (fuel : Nat) : watched {} fuel = jobs fuel := by
  induction fuel with
  | zero => rfl
  | succ fuel ih =>
    rw [watched, ih, jobs_silent]
    simp only [telling_silent, bodyBy_execute, jobs]

end Eval

/-! ### What evaluation keeps -/

/-- The thread that is held, if it is one. -/
def Pin.thread? : Pin → Option Thread
  | .thread t => some t
  | .values _ => none

/-- The threads that wait for the running one, the innermost first. -/
def Machine.callers (m : Machine) : List Thread := m.pinned.filterMap Pin.thread?

/-- What no evaluation changes, however it ends.  An entry for a module stays as it is, also while
the module is loading, and what is added are modules that have come to their end.  Scopes stay where
they are.  The thread that runs in the machine `base` goes on being the method it is; any other may
make place for the next one. -/
structure Kept (base m m' : Machine) : Prop where
  environment : m'.environment = m.environment
  globals : m'.globals = m.globals
  directory : m'.directory = m.directory
  callDepth : m'.callDepth = m.callDepth
  weaving : m'.weaving = m.weaving
  modules : ∃ added, m'.modules = added ++ m.modules ∧ ∀ e ∈ added, e.2 ≠ .null
  distinct : (m.modules.map (·.1)).Nodup → (m'.modules.map (·.1)).Nodup
  pinned : m'.pinned = m.pinned
  owner : m.callers = base.callers → m'.thread.mode.owner = m.thread.mode.owner
  lineage : m.world.Lineage → m'.world.Lineage
  scopes : m.world.scopes.Endures m'.world.scopes

namespace Kept

variable {base : Machine}

/-- Nothing is kept but what these fields hold. -/
theorem of_eq {m m' : Machine} (he : m'.environment = m.environment) (hg : m'.globals = m.globals)
    (hd : m'.directory = m.directory) (hc : m'.callDepth = m.callDepth)
    (hw : m'.weaving = m.weaving) (hm : m'.modules = m.modules) (hp : m'.pinned = m.pinned)
    (ho : m'.thread.mode.owner = m.thread.mode.owner)
    (hs : m.world.Stands m'.world) : Kept base m m' :=
  ⟨he, hg, hd, hc, hw, ⟨[], hm, nofun⟩, fun h => hm ▸ h, hp, fun _ => ho, (·.of_same hs.blueprints),
    hs.scopes⟩

theorem refl (m : Machine) : Kept base m m := .of_eq rfl rfl rfl rfl rfl rfl rfl rfl (.refl _)

theorem callers {m m' : Machine} (h : Kept base m m') : m'.callers = m.callers :=
  congrArg (List.filterMap Pin.thread?) h.pinned

theorem trans {m₁ m₂ m₃ : Machine} (h : Kept base m₁ m₂) (h' : Kept base m₂ m₃) :
    Kept base m₁ m₃ := by
  obtain ⟨added, ha, hn⟩ := h.modules
  obtain ⟨added', ha', hn'⟩ := h'.modules
  refine ⟨h'.environment.trans h.environment, h'.globals.trans h.globals,
    h'.directory.trans h.directory, h'.callDepth.trans h.callDepth, h'.weaving.trans h.weaving,
    ⟨added' ++ added, by rw [ha', ha, List.append_assoc], ?_⟩, fun hd => h'.distinct (h.distinct hd),
    h'.pinned.trans h.pinned, fun hc => ?_, fun hl => h'.lineage (h.lineage hl),
    h.scopes.trans h'.scopes⟩
  · intro e he
    obtain he | he := List.mem_append.1 he
    · exact hn' e he
    · exact hn e he
  · exact (h'.owner (h.callers.trans hc)).trans (h.owner hc)

end Kept

/-- The directory of the module that is loading, the innermost one if there are several; without
one, the directory of the program. -/
def homeDirectory (program : Option String) : List (String × Value) → Option String
  | [] => program
  | (path, .null) :: _ => Path.parent? path
  | _ :: rest => homeDirectory program rest

theorem homeDirectory_append (program : Option String) {added rest : List (String × Value)}
    (h : ∀ e ∈ added, e.2 ≠ .null) :
    homeDirectory program (added ++ rest) = homeDirectory program rest := by
  induction added with
  | nil => rfl
  | cons e added ih =>
    obtain ⟨he, hadded⟩ := List.forall_mem_cons.1 h
    rw [List.cons_append, homeDirectory, ih hadded]
    exact fun path h => he (congrArg Prod.snd h)

/-- What a run is looked at from: the directory of the program, some entries that are among its
modules, and the machine in which the thread runs that is followed.  That thread may be away, while
it waits for another one. -/
structure Ground where
  program : Option String
  there : List (String × Value)
  base : Machine
  away : Bool := false

/-- The machines of a run of a program from the directory `program` while the entries `there` are
among its modules and nothing has been entered in the machine `base` that has not been left. -/
structure Grounds (ground : Ground) (m : Machine) : Prop where
  distinct : (m.modules.map (·.1)).Nodup
  directory : m.directory = homeDirectory ground.program m.modules
  entries : ∀ e ∈ ground.there, e ∈ m.modules
  lineage : m.world.Lineage
  depth : m.callDepth ≤ m.environment.maxCallDepth
  within : ground.base.callers <:+ m.callers
  owner : m.callers = ground.base.callers → m.thread.mode.owner = ground.base.thread.mode.owner
  away : ground.away = true → m.callers ≠ ground.base.callers

/-- The machines in which a part of such a run may begin.  The body of a module begins with the entry
of that module in front of all others. -/
def Lawful (ground : Ground) (q : Part) (m : Machine) : Prop :=
  Grounds ground m ∧ (q = .body 1 → ∀ e ∈ ground.there, e ∈ m.modules.tail)

namespace Grounds

variable {ground : Ground} {m m' : Machine} (hm : Grounds ground m)

include hm

theorem kept (h : Kept ground.base m m') : Grounds ground m' := by
  obtain ⟨added, ha, hn⟩ := h.modules
  refine ⟨h.distinct hm.distinct, ?_, fun e he => ?_, h.lineage hm.lineage, ?_, ?_, fun hc => ?_,
    fun haway => ?_⟩
  · rw [h.directory, hm.directory, ha, homeDirectory_append _ hn]
  · rw [ha]
    exact List.mem_append_right _ (hm.entries e he)
  · rw [h.callDepth, h.environment]
    exact hm.depth
  · rw [h.callers]
    exact hm.within
  · have hc := h.callers.symm.trans hc
    exact (h.owner hc).trans (hm.owner hc)
  · rw [h.callers]
    exact hm.away haway

/-- The grounds do not depend on what else comes and goes during evaluation. -/
theorem of_eq (hs : m'.modules = m.modules) (hd : m'.directory = m.directory)
    (he : m'.environment = m.environment) (hc : m'.callDepth = m.callDepth)
    (hp : m'.callers = m.callers) (ho : m'.thread.mode.owner = m.thread.mode.owner)
    (hl : m'.world.blueprints = m.world.blueprints) : Grounds ground m' :=
  ⟨hs ▸ hm.distinct, by rw [hd, hs, hm.directory], hs ▸ hm.entries, hm.lineage.of_same hl,
    by rw [hc, he]; exact hm.depth, hp ▸ hm.within, fun h => ho.trans (hm.owner (hp ▸ h)),
    fun h => hp ▸ hm.away h⟩

/-- While another thread runs, the one that is followed waits. -/
theorem not_home {t : Thread} : t :: m.callers ≠ ground.base.callers := fun h => by
  have hl := hm.within.length_le
  rw [← h, List.length_cons] at hl
  omega

/-- Another thread is entered, and whatever thread waits then goes on waiting. -/
theorem enter (m' : Machine) {t : Thread} (hs : (m'.modules.map (·.1)).Nodup)
    (hd : m'.directory = homeDirectory ground.program m'.modules)
    (ht : ∀ e ∈ ground.there, e ∈ m'.modules) (hp : m'.callers = t :: m.callers)
    (hc : m'.callDepth ≤ m'.environment.maxCallDepth)
    (hl : m'.world.Lineage) (away : Bool) : Grounds { ground with away } m' :=
  ⟨hs, hd, ht, hl, hc, hp ▸ hm.within.trans (List.suffix_cons _ _),
    fun h => absurd (hp.symm.trans h) hm.not_home, fun _ h => hm.not_home (hp.symm.trans h)⟩

end Grounds

/-- What is followed may as well be away. -/
theorem Grounds.back {ground : Ground} {m : Machine}
    (h : Grounds { ground with away := true } m) : Grounds ground m :=
  ⟨h.distinct, h.directory, h.entries, h.lineage, h.depth, h.within, h.owner, fun _ => h.away rfl⟩

/-! ### Following a run -/

/-- How a computation ends that follows another one: in the same way, and if that is a fault then
with something said about it behind everything else. -/
def Echo (w : Watch) (ground : Ground) (m : Machine) {ε α : Type} [Stops ε] :
    EStateM.Result ε Machine α → EStateM.Result ε Machine α → Prop
  | .ok a m₁, r => Kept ground.base m m₁ ∧ r = .ok a m₁
  | .error e m₁, r => Kept ground.base m m₁ ∧
    match Stops.interrupt e with
    | .fault f => ∃ qs, r = .error e (m₁.printing (w.afterFault f qs))
    | _ => r = .error e m₁

/-- From every machine of such a run on, `x'` follows `x`. -/
def Echoes (w : Watch) (ground : Ground) {ε α : Type}
    [Stops ε] (x x' : EStateM ε Machine α) : Prop :=
  ∀ m, Grounds ground m → Echo w ground m (x m) (x' m)

/-- However it ends, the computation keeps what evaluation keeps. -/
def Tame {ε α : Type} (x : EStateM ε Machine α) : Prop :=
  ∀ base m, match x m with
    | .ok _ m' | .error _ m' => Kept base m m'

variable {ε α β : Type} [Stops ε] {w : Watch} {ground : Ground}

@[simp] theorem Watch.afterFault_nil (w : Watch) (f : Fault) : w.afterFault f [] = "" := rfl

theorem Watch.afterFault_append (w : Watch) (f : Fault) (qs : List Part) (q : Part) :
    w.afterFault f (qs ++ [q]) = w.afterFault f qs ++ w.fails q f := by
  simp [afterFault, String.join_append]

namespace Echo

/-- Every computation follows itself, with nothing said. -/
theorem ok {m m₁ : Machine} (a : α) (h : Kept ground.base m m₁) :
    Echo w ground m (.ok a m₁ : EStateM.Result ε Machine α) (.ok a m₁) := ⟨h, rfl⟩

theorem error {m m₁ : Machine} (e : ε) (h : Kept ground.base m m₁) :
    Echo w ground m (.error e m₁ : EStateM.Result ε Machine α) (.error e m₁) := by
  refine ⟨h, ?_⟩
  split
  · exact ⟨[], by simp⟩
  · rfl

theorem trans {m₁ m₂ : Machine} (h : Kept ground.base m₁ m₂) {r r' : EStateM.Result ε Machine α}
    (hr : Echo w ground m₂ r r') : Echo w ground m₁ r r' := by
  cases r with
  | ok a m => exact ⟨h.trans hr.1, hr.2⟩
  | error e m => exact ⟨h.trans hr.1, hr.2⟩

theorem bind {x x' : EStateM ε Machine α} {f f' : α → EStateM ε Machine β} {m : Machine}
    (h : Echo w ground m (x m) (x' m)) (hm : Grounds ground m)
    (hf : ∀ a, Echoes w ground (f a) (f' a)) : Echo w ground m ((x >>= f) m) ((x' >>= f') m) := by
  show Echo w ground m (EStateM.bind x f m) (EStateM.bind x' f' m)
  unfold EStateM.bind
  cases hx : x m with
  | ok a m₁ =>
    rw [hx] at h
    rw [h.2]
    exact .trans h.1 (hf a m₁ (hm.kept h.1))
  | error e m₁ =>
    rw [hx] at h
    refine ⟨h.1, ?_⟩
    have he := h.2
    split at he
    · obtain ⟨qs, hqs⟩ := he
      exact ⟨qs, by rw [hqs]⟩
    · rw [he]

/-- What goes on knows what was kept. -/
theorem bind_at {x : EStateM ε Machine α} {f f' : α → EStateM ε Machine β} {m : Machine}
    (h : Echo w ground m (x m) (x m))
    (hf : ∀ a m₁, Kept ground.base m m₁ → Echo w ground m₁ (f a m₁) (f' a m₁)) :
    Echo w ground m ((x >>= f) m) ((x >>= f') m) := by
  show Echo w ground m (EStateM.bind x f m) (EStateM.bind x f' m)
  unfold EStateM.bind
  cases hx : x m with
  | ok a m₁ =>
    rw [hx] at h
    exact .trans h.1 (hf a m₁ h.1)
  | error e m₁ =>
    rw [hx] at h
    exact .error e h.1

theorem ite {p : Prop} [Decidable p] {x x' y y' : EStateM ε Machine α} {m : Machine}
    (hx : Echo w ground m (x m) (x' m)) (hy : Echo w ground m (y m) (y' m)) :
    Echo w ground m ((if p then x else y) m) ((if p then x' else y') m) := by
  split
  · exact hx
  · exact hy

/-- What runs a computation on the machine `inner` in place of `m`, and puts the machine right by
`leave` afterwards. -/
theorem around {m : Machine} (inner : Machine) (leave : Machine → Machine)
    {enclosed : EStateM ε Machine α → EStateM ε Machine α}
    (hok : ∀ {x a m'}, x inner = .ok a m' → enclosed x m = .ok a (leave m'))
    (herr : ∀ {x e m'}, x inner = .error e m' → enclosed x m = .error e (leave m'))
    (hkept : ∀ {m'}, Kept ground.base inner m' → Kept ground.base m (leave m'))
    (hout : ∀ m' text, leave (m'.printing text) = (leave m').printing text)
    {x x' : EStateM ε Machine α} (h : Echo w ground inner (x inner) (x' inner)) :
    Echo w ground m (enclosed x m) (enclosed x' m) := by
  cases hx : x inner with
  | ok a m₁ =>
    rw [hx] at h
    rw [hok hx, hok h.2]
    exact .ok a (hkept h.1)
  | error e m₁ =>
    rw [hx] at h
    rw [herr hx]
    refine ⟨hkept h.1, ?_⟩
    have he := h.2
    split at he
    · obtain ⟨qs, hqs⟩ := he
      exact ⟨qs, by rw [herr hqs, hout]⟩
    · exact herr he

/-- What runs a computation on the machine `inner`, puts the machine right by `leave`, hands on a
fault as one of its own and else goes on. -/
theorem caught {m : Machine} (inner : Machine) (leave : Machine → Machine)
    {x x' : Run α} {r r' : EStateM.Result Interrupt Machine β} {g g' : α → Eval β}
    (hok : ∀ {a m'}, x inner = .ok a m' → r = g a (leave m'))
    (hok' : ∀ {a m'}, x' inner = .ok a m' → r' = g' a (leave m'))
    (herr : ∀ {f m'}, x inner = .error f m' → r = .error (.fault f) (leave m'))
    (herr' : ∀ {f m'}, x' inner = .error f m' → r' = .error (.fault f) (leave m'))
    (hkept : ∀ {m'}, Kept ground.base inner m' → Kept ground.base m (leave m'))
    (hout : ∀ m' text, leave (m'.printing text) = (leave m').printing text)
    (hm : Grounds ground m) (hg : ∀ a, Echoes w ground (g a) (g' a))
    (h : Echo w ground inner (x inner) (x' inner)) : Echo w ground m r r' := by
  cases hx : x inner with
  | ok a m₁ =>
    rw [hx] at h
    rw [hok hx, hok' h.2]
    exact .trans (hkept h.1) (hg a _ (hm.kept (hkept h.1)))
  | error f m₁ =>
    rw [hx] at h
    obtain ⟨hk, qs, hqs⟩ := h
    rw [herr hx, herr' hqs, hout]
    exact ⟨hkept hk, qs, rfl⟩

end Echo

namespace Echoes

theorem of_tame {x : EStateM ε Machine α} (hx : Tame x) : Echoes w ground x x := by
  intro m _
  have h := hx ground.base m
  cases hr : x m with
  | ok a m₁ =>
    rw [hr] at h
    exact .ok a h
  | error e m₁ =>
    rw [hr] at h
    exact .error e h

theorem bind {x x' : EStateM ε Machine α} {f f' : α → EStateM ε Machine β}
    (hx : Echoes w ground x x') (hf : ∀ a, Echoes w ground (f a) (f' a)) :
    Echoes w ground (x >>= f) (x' >>= f') :=
  fun m hm => (hx m hm).bind hm hf

theorem pure (a : α) :
    Echoes w ground (Pure.pure a : EStateM ε Machine α) (Pure.pure a) :=
  fun m _ => .ok a (.refl m)

theorem stop (e : ε) : Echoes w ground (throw e : EStateM ε Machine α) (throw e) :=
  fun m _ => .error e (.refl m)

theorem map (f : α → β) {x x' : EStateM ε Machine α} (hx : Echoes w ground x x') :
    Echoes w ground (f <$> x) (f <$> x') := by
  rw [map_eq_pure_bind, map_eq_pure_bind]
  exact .bind hx fun _ => .pure _

theorem ite {p : Prop} [Decidable p] {x x' y y' : EStateM ε Machine α}
    (hx : Echoes w ground x x') (hy : Echoes w ground y y') :
    Echoes w ground (if p then x else y) (if p then x' else y') := by
  split
  · exact hx
  · exact hy

/-- A check before the rest of a computation. -/
theorem guard {p : Prop} [Decidable p] {x x' : EStateM ε Machine PUnit}
    {f f' : PUnit → EStateM ε Machine β} (hx : Echoes w ground x x')
    (hf : Echoes w ground (f ⟨⟩) (f' ⟨⟩)) :
    Echoes w ground (if p then x >>= f else f ⟨⟩) (if p then x' >>= f' else f' ⟨⟩) :=
  .ite (.bind hx fun _ => hf) hf

/-- A look at the machine. -/
theorem read (f : Machine → α) :
    Echoes w ground (fun m => .ok (f m) m : EStateM ε Machine α) fun m => .ok (f m) m :=
  fun m _ => .ok _ (.refl m)

/-- A computation that has all of the machine at hand. -/
theorem get_bind {f f' : Machine → EStateM ε Machine β}
    (hf : ∀ m, Grounds ground m → Echo w ground m (f m m) (f' m m)) :
    Echoes w ground (get >>= f) (get >>= f') :=
  hf

/-- What ends a run ends an expression. -/
theorem lift {x x' : Run α} (hx : Echoes w ground x x') :
    Echoes w ground (liftM x : Eval α) (liftM x') := by
  intro m hm
  have h := hx m hm
  rw [Quiet.run_lift, Quiet.run_lift]
  cases hr : x m with
  | ok a m₁ =>
    rw [hr] at h
    rw [h.2]
    exact .ok a h.1
  | error f m₁ =>
    rw [hr] at h
    obtain ⟨hk, qs, hqs⟩ := h
    rw [hqs]
    exact ⟨hk, qs, rfl⟩

theorem attempt {x x' : Eval α} (hx : Echoes w ground x x') :
    Echoes w ground (Eval.attempt x) (Eval.attempt x') := by
  intro m hm
  have h := hx m hm
  unfold Eval.attempt
  cases hr : x m with
  | ok a m₁ =>
    rw [hr] at h
    rw [h.2]
    exact .ok _ h.1
  | error e m₁ =>
    rw [hr] at h
    obtain ⟨hk, h⟩ := h
    cases e with
    | fault f =>
      obtain ⟨qs, hqs⟩ := h
      rw [hqs]
      exact ⟨hk, qs, rfl⟩
    | raised r =>
      rw [show x' m = _ from h]
      exact .ok _ hk
    | suspended =>
      rw [show x' m = _ from h]
      exact .ok _ hk

theorem mapM {f f' : α → EStateM ε Machine β} (hf : ∀ a, Echoes w ground (f a) (f' a))
    (l : List α) : Echoes w ground (l.mapM f) (l.mapM f') := by
  induction l with
  | nil => exact .pure _
  | cons a l ih =>
    rw [List.mapM_cons, List.mapM_cons]
    exact .bind (hf a) fun _ => .bind ih fun _ => .pure _

theorem foldlM {f f' : β → α → EStateM ε Machine β}
    (hf : ∀ b a, Echoes w ground (f b a) (f' b a)) (b : β) (l : List α) :
    Echoes w ground (l.foldlM f b) (l.foldlM f' b) := by
  induction l generalizing b with
  | nil => exact .pure _
  | cons a l ih =>
    rw [List.foldlM_cons, List.foldlM_cons]
    exact .bind (hf b a) fun b => ih b

/-- What is held meanwhile makes no difference. -/
theorem pinning (p : Pin) (hp : p.thread? = none) {x x' : EStateM ε Machine α}
    (hx : Echoes w ground x x') : Echoes w ground (Eval.pinning p x) (Eval.pinning p x') := by
  intro m hm
  have same : ({ m with pinned := p :: m.pinned } : Machine).callers = m.callers := by
    simp [Machine.callers, hp]
  refine .around { m with pinned := p :: m.pinned } (fun m' => { m' with pinned := m.pinned })
    (fun h => by simp only [Eval.pinning, h]) (fun h => by simp only [Eval.pinning, h])
    (fun h => ?_) (fun _ _ => rfl) (hx _ (hm.of_eq rfl rfl rfl rfl same rfl rfl))
  exact ⟨h.environment, h.globals, h.directory, h.callDepth, h.weaving, h.modules, h.distinct, rfl,
    fun hc => h.owner (same.trans hc), h.lineage, h.scopes⟩

theorem holding (vs : List Value) {x x' : EStateM ε Machine α}
    (hx : Echoes w ground x x') :
    Echoes w ground (Eval.holding vs x) (Eval.holding vs x') := .pinning _ rfl hx

theorem skipping {x x' : EStateM ε Machine α} (hx : Echoes w ground x x') :
    Echoes w ground (Eval.skipping x) (Eval.skipping x') := by
  intro m hm
  refine .around { m with thread := { m.thread with skip := m.thread.skip + 1 } }
    (fun m' => { m' with thread := { m'.thread with skip := m'.thread.skip - 1 } })
    (fun h => by simp only [Eval.skipping, h]) (fun h => by simp only [Eval.skipping, h])
    (fun h => ?_) (fun _ _ => rfl) (hx _ (hm.of_eq rfl rfl rfl rfl rfl rfl rfl))
  exact ⟨h.environment, h.globals, h.directory, h.callDepth, h.weaving, h.modules, h.distinct,
    h.pinned, h.owner, h.lineage, h.scopes⟩

theorem restoring (outer : Cursor) {x x' : Eval α} (hx : Echoes w ground x x') :
    Echoes w ground (Eval.embedded.restoring outer x) (Eval.embedded.restoring outer x') := by
  intro m hm
  refine .around m (fun m' => { m' with thread := { m'.thread with cursor := outer } })
    (fun h => by simp only [Eval.embedded.restoring, h])
    (fun h => by simp only [Eval.embedded.restoring, h]) (fun h => ?_) (fun _ _ => rfl) (hx m hm)
  exact ⟨h.environment, h.globals, h.directory, h.callDepth, h.weaving, h.modules, h.distinct,
    h.pinned, h.owner, h.lineage, h.scopes⟩

theorem inLoop {x x' : Eval α} (hx : Echoes w ground x x') :
    Echoes w ground (Eval.inLoop x) (Eval.inLoop x') := by
  intro m hm
  have enter (x : Eval α) (m : Machine) : (do
      Eval.modifyMode fun mode => { mode with loopDepth := mode.loopDepth + 1 }; x : Eval α) m =
      x { m with thread := { m.thread with
        mode := { m.thread.mode with loopDepth := m.thread.mode.loopDepth + 1 } } } := rfl
  refine .around { m with thread := { m.thread with
      mode := { m.thread.mode with loopDepth := m.thread.mode.loopDepth + 1 } } } Eval.inLoop.leave
    (fun h => by simp only [Eval.inLoop, enter]; rw [h])
    (fun h => by simp only [Eval.inLoop, enter]; rw [h])
    (fun h => ?_) (fun _ _ => rfl) (hx _ (hm.of_eq rfl rfl rfl rfl rfl rfl rfl))
  exact ⟨h.environment, h.globals, h.directory, h.callDepth, h.weaving, h.modules, h.distinct,
    h.pinned, h.owner, h.lineage, h.scopes⟩

/-- Where the thread that is followed is away, all is as everywhere else. -/
theorem away {x x' : EStateM ε Machine α} (hx : Echoes w ground x x') :
    Echoes w { ground with away := true } x x' :=
  fun m hm => hx m hm.back

end Echoes

end Rewind
