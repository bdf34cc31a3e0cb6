/-
Loading modules.

A file has one entry while it is loading and after it has been loaded, and what evaluation does keeps
all entries that are there.  So no body of a file begins while there is an entry for the file.  If the
load fails the entry is taken back, and the file is run again by the next load.  Otherwise what is given
is a copy of the namespace, and in a machine that keeps values apart nothing that is done to the
containers in one copy is seen in another one, in the namespace, or in the module.

* `Machine.Proper` — a machine in which evaluation may begin;
* `Demand`, `Machine.Remembers` — no part of a run that begins in the machine loses an entry;
* `Machine.Loads`, `loads` — what a load comes to;
* `modules_run_once` — all of this holds in all runs of a session.
-/
import Rewind.Proofs.Namespaces
import Rewind.Proofs.Separation

namespace Rewind

open Eval

/-! ### Machines in which evaluation may begin -/

section Machines

variable {ε α : Type} [Stops ε] {m m' : Machine} {R : Hand} {v : Value}

/-- The machine that a computation has come to, however it has ended. -/
def machineOf : EStateM.Result ε Machine α → Machine
  | .ok _ m | .error _ m => m

/-- Whatever evaluation there is in, it may be looked at as beginning here. -/
theorem Grounds.here {ground : Ground} (hm : Grounds ground m) {there : List (String × Value)}
    (ht : ∀ e ∈ there, e ∈ m.modules) : Grounds ⟨ground.program, there, m, false⟩ m :=
  ⟨hm.distinct, hm.directory, ht, hm.lineage, hm.depth, List.suffix_rfl, fun _ => rfl, nofun⟩

namespace Machine

/-- A machine in which evaluation may begin: the entries of modules have different paths, and values are
kept apart. -/
structure Proper (m : Machine) : Prop where
  grounds : ∃ program, Grounds ⟨program, [], m, false⟩ m
  safe : ∃ R, m.Safe R

namespace Proper

variable (hm : m.Proper)

include hm

theorem grounds_entry {e : String × Value} (he : e ∈ m.modules) :
    ∃ program, Grounds ⟨program, [e], m, false⟩ m := by
  obtain ⟨program, hg⟩ := hm.grounds
  exact ⟨program, hg.here (by simpa using he)⟩

theorem distinct : (m.modules.map (·.1)).Nodup := by
  obtain ⟨program, hg⟩ := hm.grounds
  exact hg.distinct

theorem kept (hk : Kept m m m') (hs : m'.Safe R) : m'.Proper := by
  obtain ⟨program, hg⟩ := hm.grounds
  exact ⟨⟨program, (hg.kept hk).here nofun⟩, R, hs⟩

/-- Evaluation ends in such a machine if it keeps what evaluation keeps. -/
theorem ends {x : EStateM ε Machine α} {post : α → Hand}
    (he : ∀ ground, Echoes {} ground x x) (hx : Keeps 0 x x post) :
    (∀ a m', x m = .ok a m' → m'.Proper ∧ Kept m m m' ∧ ∃ R, m'.Safe (R + post a)) ∧
      ∀ e m', x m = .error e m' → m'.Proper ∧ Kept m m m' := by
  obtain ⟨program, hg⟩ := hm.grounds
  obtain ⟨R, hs⟩ := hm.safe
  have echo := he _ m hg
  have fares := hx m R (by rwa [add_zero])
  refine ⟨fun a m' hr => ?_, fun e m' hr => ?_⟩
  · rw [hr] at echo fares
    exact ⟨hm.kept echo.1 fares.2.2, echo.1, R, fares.2.2⟩
  · rw [hr] at echo fares
    exact ⟨hm.kept echo.1 fares.2.2, echo.1⟩

theorem apart : m.Apart := by
  obtain ⟨R, hs⟩ := hm.safe
  exact hs.apart

end Proper

/-- What somebody owns shares no container with what is stored. -/
theorem Safe.apart_owned (hm : m.Safe (R + {.owned v})) :
    m.world.heap.Knows v ∧ (m.world.heap.forest (v ::ₘ m.storage)).Nodup := by
  have guards := hm.world.holds.grants.guards
  have stored := m.storage_le (R := R)
  have all : v ::ₘ m.storage ≤
      m.world.opened + (m.world.stock + (m.stock + (R + {.owned v}))).own := by
    rw [← Multiset.singleton_add, add_comm]
    refine (add_le_add_left stored _).trans (le_of_eq ?_)
    simp only [Hand.own_add, Hand.own_singleton, Grip.own_owned, add_assoc]
  exact ⟨guards.knows v (Multiset.mem_of_le all (Multiset.mem_cons_self _ _)),
    Multiset.nodup_of_le (Heap.forest_mono all) guards.nodup⟩

end Machine

end Machines

theorem Resting.proper {m : Machine} {R : Hand} (h : Resting m) (hs : m.Safe R) : m.Proper :=
  ⟨⟨m.directory, h.grounds nofun⟩, R, hs⟩

namespace Session

variable {env : Environment} {m : Machine} (h : Session env m) (directory : Option String)

include h

theorem resting_in : Resting { m with directory } :=
  ⟨⟨h.resting.callDepth, h.resting.weaving, h.resting.modules, h.resting.distinct⟩,
    h.resting.owner, h.resting.lineage⟩

theorem proper : ({ m with directory } : Machine).Proper :=
  (h.resting_in directory).proper (R := 0) (h.safe.of_same rfl rfl rfl (fun _ => id) rfl)

end Session

/-- The jobs of a run keep values apart. -/
theorem Eval.keep_jobs (fuel : Nat) : (jobs fuel).Keep (jobs fuel) := by
  have silent : Watch.Concur {} {} := ⟨fun _ _ => rfl, fun _ _ => rfl, fun _ _ _ _ => rfl⟩
  have keep := (keeps_watched silent fuel).watched silent
  rwa [watched_silent, jobs_silent] at keep


/-! ### Entries -/

namespace Machine

/-- The body of the file at `path` begins, behind an entry of null for it. -/
def Starts (m : Machine) (path : String) (q : Part) : Prop :=
  q = .body 1 ∧ ∃ rest, m.modules = (path, .null) :: rest

end Machine

/-- An entry is kept by what is run: it is there in the end, and wherever a part begins in between, and
none of these is the body of its file.  A watch that is silent there is not heard at all. -/
def Watch.KeepsEntry (e : String × Value) (run : Watch → Machine) : Prop :=
  e ∈ (run {}).modules ∧ ∀ w : Watch, w.Discreet →
    (∀ q m, e ∈ m.modules → ¬ m.Starts e.1 q → w.begins q m = "") → run w = run {}

/-- What evaluation can be asked for. -/
inductive Demand where
  | expression
  | operand
  | body (column : Nat)
  | statements (column : Nat)
  | call (callee : Value) (args : CallArgs) (site : Token)

/-- The machine behind what has been asked for, evaluated under a watch. -/
def Demand.behind (fuel : Nat) (m : Machine) (w : Watch) : Demand → Machine
  | .expression => machineOf ((watched w fuel).expression m)
  | .operand => machineOf ((watched w fuel).unary m)
  | .body column => machineOf ((watched w fuel).body column m)
  | .statements column => machineOf (statementsBy
      (fun n => w.telling .statement (execute (w.jobs (watched w fuel)) n)) column fuel m)
  | .call callee args site => machineOf ((watched w fuel).invoke callee args site m)

/-- Whatever is asked for from here on keeps the entry. -/
def Machine.Remembers (m : Machine) (e : String × Value) : Prop :=
  ∀ (d : Demand) (fuel : Nat), Watch.KeepsEntry e fun w => d.behind fuel m w

section Entries

variable {ε α : Type} [Stops ε] {w : Watch} {ground : Ground} {m : Machine} {e : String × Value}

theorem Watch.agree_of_entry (he : e ∈ ground.there)
    (silent : ∀ q m, e ∈ m.modules → ¬ m.Starts e.1 q → w.begins q m = "") :
    Watch.Agree {} w ground := by
  intro q m hm
  refine silent q m (hm.1.entries e he) ?_
  rintro ⟨hq, rest, hs⟩
  have behind := hm.2 hq e he
  have distinct := hm.1.distinct
  rw [hs] at behind distinct
  exact (List.nodup_cons.1 distinct).1 (List.mem_map_of_mem (f := (·.1)) behind)

/-- A computation that follows itself keeps the entries that are there. -/
theorem Echo.keepsEntry {x : Watch → EStateM ε Machine α} (hm : Grounds ground m)
    (he : e ∈ ground.there)
    (hx : ∀ w : Watch, Watch.Agree {} w ground → Echoes w ground (x {}) (x w)) :
    Watch.KeepsEntry e fun w => machineOf (x w m) := by
  -- a discreet watch adds no text to a fault either, so both runs come to one machine
  have run (w : Watch) (ha : Watch.Agree {} w ground) (hw : w.Discreet) :
      Kept ground.base m (machineOf (x {} m)) ∧ machineOf (x w m) = machineOf (x {} m) := by
    have h := hx w ha m hm
    cases hr : x {} m with
    | ok a m' =>
      rw [hr] at h
      exact ⟨h.1, by rw [h.2]⟩
    | error i m' =>
      rw [hr] at h
      refine ⟨h.1, ?_⟩
      have h := h.2
      split at h
      · obtain ⟨qs, hq⟩ := h
        rw [hq, hw.afterFault, Machine.printing_empty]
      · rw [h]
  refine ⟨?_, fun w hw silent => (run w (Watch.agree_of_entry he silent) hw).2⟩
  obtain ⟨added, ha, -⟩ := (run {} (fun _ _ _ => rfl) fun _ _ => rfl).1.modules
  rw [ha]
  exact List.mem_append_right _ (hm.entries e he)

theorem Machine.Proper.remembers (hm : m.Proper) (he : e ∈ m.modules) : m.Remembers e := by
  obtain ⟨program, hg⟩ := hm.grounds_entry he
  have here : e ∈ (⟨program, [e], m, false⟩ : Ground).there := List.mem_singleton_self e
  have silent : Watch.Discreet {} := fun _ _ => rfl
  intro d fuel
  cases d with
  | expression => exact Echo.keepsEntry hg here fun w ha => (follow_watched silent ha fuel).expression
  | operand => exact Echo.keepsEntry hg here fun w ha => (follow_watched silent ha fuel).unary
  | body column => exact Echo.keepsEntry hg here fun w ha => (follow_watched silent ha fuel).body column
  | call callee args site =>
    exact Echo.keepsEntry hg here fun w ha => (follow_watched silent ha fuel).invoke callee args site
  | statements column =>
    refine Echo.keepsEntry hg here fun w ha => echoes_statementsBy (fun n m hm => ?_) column fuel
    exact Watch.echo_telling silent (ha _ m ⟨hm, nofun⟩) fun text =>
      echoes_execute ((follow_watched silent ha fuel).watched silent ha) n _
        (hm.of_eq rfl rfl rfl rfl rfl rfl rfl)

end Entries

/-! ### What a load comes to -/

theorem Heap.Sound.whole {h : Heap} {v : Value} (hs : h.Sound) (hv : h.Knows v) : h.Whole v := by
  obtain ⟨depth, hd⟩ := hs.nests v
  induction depth generalizing v with
  | zero => exact .of_box? hd
  | succ depth ih => exact .intro hv fun i hi => ih (hs.knows v i hi) (hd i hi)

/-- Values that hold the same read the same. -/
theorem World.readsAs_of_mirrors {w : World} {v v' : Value} (hs : w.heap.Sound) (hv : w.heap.Knows v)
    (hv' : w.heap.Knows v') (hm : w.heap.Mirrors v v') : w.ReadsAs w v v' :=
  readsAs_of_agree ⟨hs.whole hv, hs.whole hv', Heap.image_mirrors (hs.whole hv) (hs.whole hv') hm⟩

/-- The value is a dictionary with the public names of the scope in the order of their definitions, and
with values that read as what they are bound to. -/
def World.IsNamespace (w : World) (r : Ref .scope) (ns : Value) : Prop :=
  ∃ items, w.heap.contents? ns = some ⟨.dictionary, (w.scopes.publics r).map (·.1), items⟩ ∧
    List.Forall₂ (w.ReadsAs w) ((w.scopes.publics r).map (·.2)) items

/-- A load ends as the body of the file does. -/
def EndsAs : EStateM.Result Fault Machine Status → EStateM.Result Interrupt Machine Value → Prop
  | .error fault _, r => ∃ m, r = .error (.fault fault) m
  | .ok (.leaving (.raised raised)) _, r => ∃ m, r = .error (.raised raised) m
  | .ok _ _, r => ∃ v m, r = .ok v m

/-- What the load of the file at `path` under a name comes to. -/
structure Machine.Loads (m : Machine) (fuel : Nat) (name path : String) (site : Token) : Prop where
  /-- While the file is loading, null is given. -/
  loading : (path, .null) ∈ m.modules → loadModule (jobs fuel) name site m = .ok .null m
  /-- Once it has been loaded, a copy is given of what is kept. -/
  loaded : ∀ ns, (path, ns) ∈ m.modules → loadModule (jobs fuel) name site m =
    .ok (Heap.duplicate ns m.world.heap).1 (m.withHeap (Heap.duplicate ns m.world.heap).2)
  /-- Otherwise the file is read. -/
  unreadable : ¬ m.HasEntry path → ∀ fault, m.environment.files.readText path = .error fault →
    loadModule (jobs fuel) name site m =
      .error (.fault (.failure (.system (.unreadableModule name path fault.message)))) m
  untokenized : ¬ m.HasEntry path → ∀ text fault, m.environment.files.readText path = .ok text →
    Cursor.ofSource ⟨m.sources, text.toList⟩ = .error fault →
      loadModule (jobs fuel) name site m =
        .error (.fault (.failure (.ofLex fault))) { m with sources := m.sources + 1 }
  /-- And then it is run, in a new scope. -/
  run : ¬ m.HasEntry path → ∀ text cursor, m.environment.files.readText path = .ok text →
    Cursor.ofSource ⟨m.sources, text.toList⟩ = .ok cursor →
      (m.opening path cursor).Proper ∧ (m.opening path cursor).Starts path (.body 1) ∧
        EndsAs ((jobs fuel).body 1 (m.opening path cursor)) (loadModule (jobs fuel) name site m)
  /-- A load that fails leaves no entry. -/
  fails : ∀ e m', loadModule (jobs fuel) name site m = .error e m' → m'.Proper ∧ ¬ m'.HasEntry path
  /-- A load that comes to its end leaves one, and gives a value that reads as what is kept and shares no
  container with anything that is stored. -/
  gives : ∀ v m', loadModule (jobs fuel) name site m = .ok v m' → m'.Proper ∧
    ∃ ns, (path, ns) ∈ m'.modules ∧ m'.world.ReadsAs m'.world ns v ∧
      (m'.world.heap.forest (v ::ₘ m'.storage)).Nodup
  /-- If the file has been run for it, what is kept is the namespace of the scope it has run in. -/
  exports : ¬ m.HasEntry path → ∀ v m', loadModule (jobs fuel) name site m = .ok v m' →
    ∃ ns, (path, ns) ∈ m'.modules ∧ m'.world.IsNamespace m.world.scopes.next ns

section Loads

variable {m m' : Machine} {name path : String} {site : Token} {cursor : Cursor} {fuel : Nat}

namespace Machine

theorem loading_opening (hm : (m.modules.map (·.1)).Nodup) (hp : ¬ m.HasEntry path) :
    Loading m path m { m with
      modules := (path, .null) :: m.modules
      sources := m.sources + 1
      world := { m.world with scopes := m.world.scopes.push {} } } :=
  (Loading.begun hm hp).kept (.of_eq rfl rfl rfl rfl rfl rfl rfl rfl ⟨rfl, .push _ _ _⟩)

/-- The body of the file begins where it may. -/
theorem Proper.lawful_opening (hm : m.Proper) (hp : ¬ m.HasEntry path) (cursor : Cursor) :
    ∃ program, Lawful ⟨program, [], m, false⟩ (.body 1) (m.opening path cursor) := by
  obtain ⟨program, hg⟩ := hm.grounds
  exact ⟨program, lawful_moduleMachine hg (loading_opening hm.distinct hp) rfl cursor _⟩

theorem Proper.opening (hm : m.Proper) (hp : ¬ m.HasEntry path) (cursor : Cursor) :
    (m.opening path cursor).Proper := by
  obtain ⟨program, hl⟩ := hm.lawful_opening hp cursor
  obtain ⟨R, hs⟩ := hm.safe
  refine ⟨⟨program, hl.1.here nofun⟩, R + 0 + m.thread.ahead, safe_moduleMachine ?_ _ _ _⟩
  have listed : ({ m with modules := (path, .null) :: m.modules } : Machine).Safe (R + 0) := by
    have keep : Keeps 0 (modify fun m => { m with modules := (path, .null) :: m.modules } : Eval Unit)
        (modify fun m => { m with modules := (path, .null) :: m.modules }) fun _ => 0 :=
      .of_gives (.of_flat (g := .owned .null) rfl) (keeps_modules fun entries => le_of_eq (by
        rw [List.map_cons, hand_collected]))
    exact (keep m R (by rwa [add_zero])).2.2
  have numbered : ({ m with modules := (path, .null) :: m.modules, sources := m.sources + 1 } :
      Machine).Safe (R + 0) := listed.of_same rfl rfl rfl (fun _ => id) rfl
  exact (keeps_newScope none _ R numbered : Fares (ε := Interrupt) _ _ _ _ _ _).2.2

theorem mem_storage_of_entry {ns : Value} (he : (path, ns) ∈ m.modules) : ns ∈ m.storage := by
  have kept : ns ∈ (↑(m.modules.map (·.2)) : Multiset Value) := List.mem_map_of_mem (f := (·.2)) he
  simp only [storage, Multiset.mem_add]
  exact .inl (.inr kept)

theorem mem_storage_of_binding {r : Ref .scope} {e : String × Value}
    (he : e ∈ m.world.scopes.entries r) : e.2 ∈ m.storage := by
  have opened : e.2 ∈ m.world.opened := World.mem_opened_of_entries (List.mem_map_of_mem he)
  have stored : m.world.opened ≤ m.storage := by
    simp only [World.opened, storage, add_assoc]
    exact add_le_add_right (Multiset.le_add_right _ _) _
  exact Multiset.mem_of_le stored opened

end Machine

/-- What a module's scope makes public reads as it does in the namespace. -/
theorem World.isNamespace_of_exports {r : Ref .scope} {ns : Value} (ha : m.Apart)
    (hx : m.world.heap.Exports (m.world.scopes.publics r) ns) : m.world.IsNamespace r ns := by
  obtain ⟨items, hc, hm⟩ := hx
  have inside : m.world.heap.inside ns = items := by rw [Heap.inside, hc]; rfl
  have known (i : Value) (hi : i ∈ items) : m.world.heap.Knows i :=
    ha.sound.knows ns i (inside ▸ hi)
  have bound (v : Value) (hv : v ∈ (m.world.scopes.publics r).map (·.2)) : m.world.heap.Knows v := by
    obtain ⟨e, he, rfl⟩ := List.mem_map.1 hv
    exact ha.knows _ (Machine.mem_storage_of_binding (List.mem_of_mem_filter he))
  refine ⟨items, hc, ?_⟩
  clear hc inside
  generalize (m.world.scopes.publics r).map (·.2) = values at hm bound ⊢
  induction hm with
  | nil => exact .nil
  | cons hx _ ih =>
    obtain ⟨hi, his⟩ := List.forall_mem_cons.1 known
    obtain ⟨hv, hvs⟩ := List.forall_mem_cons.1 bound
    exact .cons (readsAs_of_mirrors ha.sound hv hi hx) (ih his hvs)

/-- The scope of a module can be looked up in once its body has ended. -/
theorem indexed_of_body (hm : m.Proper) (hp : ¬ m.HasEntry path) {status : Status}
    (hr : (jobs fuel).body 1 (m.opening path cursor) = .ok status m') :
    (m'.world.scopes.get m.world.scopes.next).vars.Indexed := by
  obtain ⟨program, hl⟩ := hm.lawful_opening hp cursor
  have echo := (echo_jobs _ fuel).body 1 _ hl
  rw [hr] at echo
  refine echo.1.scopes.indexed _ ?_
  have made : (m.opening path cursor).world.scopes.get m.world.scopes.next = {} := by
    rw [Arena.get]
    exact congrArg (Option.getD · _) (Arena.get?_push_next m.world.scopes {})
  rw [made]
  exact Dict.indexed_empty

/-- The load of a file for which there was no entry ends as the body does, and without an entry or with a
namespace for one. -/
theorem closing_cases (hm : m.Proper) (hp : ¬ m.HasEntry path) :
    EndsAs ((jobs fuel).body 1 (m.opening path cursor))
      (closing m path ((jobs fuel).body 1 (m.opening path cursor))) ∧
    ((∃ e m', closing m path ((jobs fuel).body 1 (m.opening path cursor)) = .error e m' ∧
        ¬ m'.HasEntry path) ∨
      ∃ ns v m', closing m path ((jobs fuel).body 1 (m.opening path cursor)) = .ok v m' ∧
        (path, ns) ∈ m'.modules ∧ m'.world.heap.Mirrors ns v ∧
          m'.world.heap.Exports (m'.world.scopes.publics m.world.scopes.next) ns) := by
  -- the entry of a module that has failed is filtered out
  have forgotten (m' : Machine) : ¬ (m.forgetting path m').HasEntry path := by
    rintro hf
    obtain ⟨e, he, rfl⟩ := List.mem_map.1 hf
    exact absurd (List.of_mem_filter he) (by simp)
  cases hr : (jobs fuel).body 1 (m.opening path cursor) with
  | error fault m' => exact ⟨⟨_, rfl⟩, .inl ⟨_, _, rfl, forgotten m'⟩⟩
  | ok status m' =>
    have hi := indexed_of_body hm hp hr
    obtain ⟨ns, v, h, hc, hx, hv⟩ := closeModule_run m.world.scopes.next path (loaderMachine m m') hi
    cases status with
    | leaving signal =>
      cases signal with
      | raised raised => exact ⟨⟨_, rfl⟩, .inl ⟨_, _, rfl, forgotten m'⟩⟩
      | _ => exact ⟨⟨v, _, hc⟩, .inr ⟨ns, v, _, hc, List.mem_cons_self, hv, hx⟩⟩
    | _ => exact ⟨⟨v, _, hc⟩, .inr ⟨ns, v, _, hc, List.mem_cons_self, hv, hx⟩⟩

/-- A load leaves no entry if it fails, and a namespace otherwise. -/
theorem loadModule_cases (site : Token) (fuel : Nat) (hm : m.Proper) (hn : name ≠ "weaver")
    (hr : resolveModule m name = some path) :
    (∃ e m', loadModule (jobs fuel) name site m = .error e m' ∧ ¬ m'.HasEntry path) ∨
    ∃ ns v m', loadModule (jobs fuel) name site m = .ok v m' ∧ (path, ns) ∈ m'.modules ∧
      m'.world.heap.Mirrors ns v ∧ (¬ m.HasEntry path →
        m'.world.heap.Exports (m'.world.scopes.publics m.world.scopes.next) ns) := by
  by_cases hp : m.HasEntry path
  · obtain ⟨⟨_, ns⟩, he, rfl⟩ := List.mem_map.1 hp
    exact .inr ⟨ns, _, _, loadModule_again hn hr hm.distinct he, he,
      Heap.mirrors_duplicate ns m.world.heap, fun h => absurd hp h⟩
  · rw [loadModule_first hn hr hp, runModule_run _ _ hp]
    cases ht : m.environment.files.readText path with
    | error fault => exact .inl ⟨_, _, rfl, hp⟩
    | ok text =>
      dsimp only
      cases Cursor.ofSource ⟨m.sources, text.toList⟩ with
      | error fault => exact .inl ⟨_, _, rfl, hp⟩
      | ok cursor =>
        obtain h | ⟨ns, v, m', h, he, hv, hx⟩ := (closing_cases hm hp).2
        · exact .inl h
        · exact .inr ⟨ns, v, m', h, he, hv, fun _ => hx⟩

/-- However a load ends, evaluation may go on, and what it gives is not stored anywhere. -/
theorem ends_loadModule (hm : m.Proper) (name : String) (site : Token) :
    (∀ v m', loadModule (jobs fuel) name site m = .ok v m' →
      m'.Proper ∧ Kept m m m' ∧ ∃ R, m'.Safe (R + {.owned v})) ∧
    ∀ e m', loadModule (jobs fuel) name site m = .error e m' → m'.Proper ∧ Kept m m m' :=
  hm.ends (fun ground => echoes_loadModule (echo_jobs ground fuel) name site)
    (keeps_loadModule (keep_jobs fuel) name site)

theorem loads (hm : m.Proper) (fuel : Nat) (hn : name ≠ "weaver")
    (hr : resolveModule m name = some path) (site : Token) : m.Loads fuel name path site where
  loading he := loadModule_again hn hr hm.distinct he
  loaded ns he := loadModule_again hn hr hm.distinct he
  unreadable hp fault ht := by rw [loadModule_first hn hr hp, runModule_run _ _ hp, ht]
  untokenized hp text fault ht hc := by
    rw [loadModule_first hn hr hp, runModule_run _ _ hp, ht]
    dsimp only
    rw [hc]
  run hp text cursor ht hc := by
    refine ⟨hm.opening hp cursor, ⟨rfl, m.modules, rfl⟩, ?_⟩
    rw [loadModule_first hn hr hp, runModule_run _ _ hp, ht]
    dsimp only
    rw [hc]
    exact (closing_cases hm hp).1
  fails e m' h := by
    refine ⟨((ends_loadModule hm name site).2 e m' h).1, ?_⟩
    obtain ⟨e', m₁, h', hp⟩ | ⟨_, v, m₁, h', -⟩ := loadModule_cases site fuel hm hn hr
    · obtain ⟨rfl, rfl⟩ := EStateM.Result.error.inj (h.symm.trans h')
      exact hp
    · exact nomatch h.symm.trans h'
  gives v m' h := by
    obtain ⟨proper, -, R, hs⟩ := (ends_loadModule hm name site).1 v m' h
    obtain ⟨known, once⟩ := hs.apart_owned
    obtain ⟨_, _, h', -⟩ | ⟨ns, v', m₁, h', he, hv, -⟩ :=
      loadModule_cases site fuel hm hn hr
    · exact nomatch h.symm.trans h'
    · obtain ⟨rfl, rfl⟩ := EStateM.Result.ok.inj (h.symm.trans h')
      have kept := proper.apart.knows ns (Machine.mem_storage_of_entry he)
      exact ⟨proper, ns, he, World.readsAs_of_mirrors proper.apart.sound kept known hv, once⟩
  exports hp v m' h := by
    have proper := ((ends_loadModule hm name site).1 v m' h).1
    obtain ⟨_, _, h', -⟩ | ⟨ns, v', m₁, h', he, -, hx⟩ :=
      loadModule_cases site fuel hm hn hr
    · exact nomatch h.symm.trans h'
    · obtain ⟨rfl, rfl⟩ := EStateM.Result.ok.inj (h.symm.trans h')
      exact ⟨ns, he, World.isNamespace_of_exports proper.apart (hx hp)⟩

end Loads

/-! ### All runs -/

/-- Whatever is done to a container in one of the values that are stored, what is in all the others stays as
it is. -/
def Machine.Isolates (m : Machine) : Prop :=
  ∀ (roots : List Value) (i j : Nat) (p : List Nat) (u : Value) (c : Cell) (h : Heap),
    m.storage = ↑roots → i ≠ j → m.world.heap.look roots (i :: p) = some u → u.box? = some c →
      (∀ x, x ≠ u → h.contents? x = m.world.heap.contents? x) →
        ∀ q, h.look roots (j :: q) = m.world.heap.look roots (j :: q) ∧
          ∀ x ∈ m.world.heap.look roots (j :: q), h.contents? x = m.world.heap.contents? x

theorem Machine.Proper.isolates {m : Machine} (hm : m.Proper) : m.Isolates := by
  intro roots i j p u c h all hij hl hu hsame
  have once := hm.apart.once
  rw [all] at once
  exact Heap.look_of_nodup hm.apart.sound once hij hl hu hsame

namespace Session

variable {env : Environment} {m : Machine}

/-- Evaluation begins only in machines in which it may: a watch that is silent there is not heard. -/
theorem runWatched_of_proper (hm : Session env m) (directory : Option String) {w : Watch}
    (hw : w.Discreet) (silent : ∀ q (m : Machine), m.Proper → w.begins q m = "") (text : String)
    (fuel : Nat) : ({ m with directory } : Machine).runWatched w text fuel =
      ({ m with directory } : Machine).runSource text fuel := by
  classical
  -- the watch `w'` says what `w` does where values are not kept apart, and nothing elsewhere
  let w' : Watch := { begins := fun q m => if ∃ R, m.Safe R then "" else w.begins q m }
  have proper := hm.proper directory
  have concur : Watch.Concur {} w' :=
    ⟨fun _ _ => rfl, fun _ _ => rfl, fun q m R hs => if_pos ⟨R, hs⟩⟩
  have safe : ({ m with directory } : Machine).Safe 0 := hm.safe.of_same rfl rfl rfl (fun _ => id) rfl
  obtain ⟨program, hg⟩ := proper.grounds
  have agree : Watch.Agree w' w ⟨program, [], { m with directory }, false⟩ := by
    intro q m' hl
    by_cases hs : ∃ R, m'.Safe R
    · exact (silent q m' ⟨⟨program, hl.1.here nofun⟩, hs⟩).trans (if_pos hs).symm
    · exact (if_neg hs).symm
  rw [Machine.runWatched_congr (fun _ _ => rfl) hw agree hg hm.resting.owner text fuel,
    (safe.runWatched concur text fuel).1, Machine.runWatched_silent]

/-- What has been loaded by earlier programs is kept by all that follow. -/
theorem keepsEntry (hm : Session env m) (directory : Option String) {e : String × Value}
    (he : e ∈ m.modules) (text : String) (fuel : Nat) :
    Watch.KeepsEntry e fun w => (({ m with directory } : Machine).runWatched w text fuel).2 := by
  obtain ⟨program, hg⟩ := (hm.proper directory).grounds_entry he
  have here : e ∈ (⟨program, [e], { m with directory }, false⟩ : Ground).there := List.mem_singleton_self e
  have silent : Watch.Discreet {} := fun _ _ => rfl
  have kept := (Machine.runWatched_agree (w := {}) silent (fun _ _ _ => rfl) hg hm.resting.owner text
    fuel).1
  refine ⟨?_, fun w hw quiet => ?_⟩
  · obtain ⟨added, ha, -⟩ := kept.modules
    rw [ha]
    exact List.mem_append_right _ he
  · exact congrArg (·.2) (Machine.runWatched_congr silent hw (Watch.agree_of_entry here quiet) hg
      hm.resting.owner text fuel)

end Session

namespace Machine

variable {m : Machine}

theorem Proper.moved (hm : m.Proper) (c : Cursor) : (m.moved c).Proper := by
  obtain ⟨⟨program, hg⟩, R, hs⟩ := hm
  have grounds : Grounds ⟨program, [], m, false⟩ (m.moved c) := hg.of_eq rfl rfl rfl rfl rfl rfl rfl
  exact ⟨⟨program, grounds.here nofun⟩, R, hs.of_same rfl rfl rfl (fun _ => id) rfl⟩

/-- An item of a `load` statement that comes to its end has loaded a module, and what that gave is
bound. -/
def LoadsItems (m : Machine) (fuel : Nat) : Prop :=
  ∀ n m', loadItem (jobs fuel) n m = .ok () m' → m'.Proper ∧ ∃ c module ns m₁, (m.moved c).Proper ∧
    loadModule (jobs fuel) module.text module (m.moved c) = .ok ns m₁ ∧ m₁.Binds m' ns

theorem Proper.loadsItems (hm : m.Proper) (fuel : Nat) : m.LoadsItems fuel := by
  intro n m' h
  have ends := (hm.ends (fun ground => echoes_loadItem (echo_jobs ground fuel) n)
    (keeps_loadItem (keep_jobs fuel) n)).1 () m' h
  obtain ⟨c, module, ns, m₁, hl, hb⟩ := binds_loadItem h
  exact ⟨ends.1, c, module, ns, m₁, hm.moved c, hl, hb⟩

end Machine

/-- In all runs of a session, whatever the files are and however they load each other.  Evaluation begins
and ends only in proper machines.  In a proper machine, a file whose body begins has no entry but its own,
and entries are kept: no evaluation from there on loses one, and none begins a body of its file.  A load of a
file that is loading gives null, that of a file that has been loaded a copy of its namespace.  Any other file
is run; if that fails in any way no entry is left, and otherwise a namespace that reads as the public
bindings of the module do.  What a load gives reads as the namespace and shares no container with anything
stored, it is what the `load` statement binds, and wherever it is stored, a change of a container in one
stored value is not seen in any other. -/
theorem modules_run_once {env : Environment} {m : Machine} (hm : Session env m)
    (directory : Option String) (text : String) (fuel : Nat) :
    (∀ w : Watch, w.Discreet → (∀ q (m' : Machine), m'.Proper → w.begins q m' = "") →
      ({ m with directory } : Machine).runWatched w text fuel =
        ({ m with directory } : Machine).runSource text fuel) ∧
    (({ m with directory } : Machine).runSource text fuel).2.Proper ∧
    (∀ e ∈ m.modules, Watch.KeepsEntry e fun w =>
      (({ m with directory } : Machine).runWatched w text fuel).2) ∧
    ∀ m' : Machine, m'.Proper →
      (∀ path q, m'.Starts path q → path ∉ m'.modules.tail.map (·.1)) ∧
      (∀ e ∈ m'.modules, m'.Remembers e) ∧
      (∀ fuel name path site, name ≠ "weaver" → resolveModule m' name = some path →
        m'.Loads fuel name path site) ∧
      (∀ fuel, m'.LoadsItems fuel) ∧
      m'.Isolates := by
  have resting := hm.resting_in directory
  have safe : ({ m with directory } : Machine).Safe 0 := hm.safe.of_same rfl rfl rfl (fun _ => id) rfl
  refine ⟨fun w hw silent => hm.runWatched_of_proper directory hw silent text fuel,
    (resting.kept (resting.kept_runSource text fuel)).proper (safe.runSource text fuel),
    fun e he => hm.keepsEntry directory he text fuel, fun m' proper => ⟨?_,
    fun e he => proper.remembers he, fun fuel name path site hn hr => loads proper fuel hn hr site,
    proper.loadsItems, proper.isolates⟩⟩
  -- the module that starts has the first entry, and no two entries have one path
  rintro path q ⟨-, rest, hs⟩
  have distinct := proper.distinct
  rw [hs] at distinct ⊢
  exact (List.nodup_cons.1 distinct).1

/-- Two modules that load each other, and one that comes to no end. -/
def roundabout : FileTree where
  current := ["", "w"]
  files := [
    (["", "w", "a.ecc"], "load: b\nlet: x = [1]\n".toUTF8),
    (["", "w", "b.ecc"], "load: a\nshow(a)\n".toUTF8),
    (["", "w", "c.ecc"], "show(2)\nraise: \"no\"\n".toUTF8)]

/-- A program that loads them, some of them twice. -/
def loadsTwice : String :=
  "load: a as p\nload: a as q\nlet: p.x[0] = 5\nshow(q.x)\n" ++
  "try:\n    load: c\ncatch:\n    show(3)\nload: c\n"

/-- A watch that tells of a file whose body begins while there is another entry for it. -/
def repeating : Watch where
  begins q m :=
    match q, m.modules with
    | .body 1, (path, .null) :: rest => if path ∈ rest.map (·.1) then path else ""
    | _, _ => ""

theorem modules_run_once_of_roundabout :
    Session { files := roundabout } (Machine.new { files := roundabout }) ∧
    (Machine.new { files := roundabout }).runWatched repeating loadsTwice 14 =
      (Machine.new { files := roundabout }).runSource loadsTwice 14 ∧
    account ((Machine.new { files := roundabout }).runSource loadsTwice 14) =
      ("null\n[1]\n2\n3\n2\n", some "no") := by
  refine ⟨.new, ?_, by decide +kernel⟩
  have once := modules_run_once (m := Machine.new { files := roundabout }) .new none loadsTwice 14
  refine once.1 repeating (fun _ _ => rfl) fun q m' proper => ?_
  unfold repeating
  dsimp only
  split
  · rename_i path rest hs
    have fresh := (once.2.2.2 m' proper).1 path (.body 1) ⟨rfl, rest, hs⟩
    rw [hs] at fresh
    exact if_neg fresh
  · rfl

/-- A module that exports an object. -/
def exportsObject : FileTree where
  current := ["", "w"]
  files := [(["", "w", "t.ecc"], "blueprint: B:\n    let: x = 1\nlet: o = B()\n".toUTF8)]

/-- Copies share the objects that are in them: an attribute that is changed through the one is seen through
the other. -/
theorem seen_through_object :
    account ((Machine.new { files := exportsObject }).runSource
      "load: t as a\nload: t as b\nlet: a.o.x = 5\nshow(b.o.x)\n" 14) = ("5\n", none) := by
  decide +kernel

end Rewind
