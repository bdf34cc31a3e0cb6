/-
Watched runs.

A module that is loading has an entry of its own in front of those that were there; behind its body
the entry is taken out again, or the namespace of the module takes its place.  So whichever way a
load ends, the entries that were there are there still.  With that the statements follow, the bodies,
and by induction on the fuel the whole of a run.

* `Loading` — the machines between the beginning and the end of a load;
* `echo_runModule`, `echoes_loadModule`, `echoes_loadStatement` — modules;
* `echoes_statement`, `echoes_execute`, `echoes_bodyBy` — statements and bodies;
* `Watch.Agree`, `follow_watched` — watches that say the same of every beginning make the same run;
* `Machine.runWatched`, `runWatched_agree` — the same for the run of a program.
-/
import Mathlib.Data.List.Nodup
import Rewind.Proofs.Following
import Rewind.Session

namespace Rewind

variable {ε α β : Type} {w : Watch} {ground : Ground}

/-! ### Loading -/

/-- Where the machine `m` has come to while the module at `path` is loading. -/
structure Loading (base : Machine) (path : String) (m m' : Machine) : Prop where
  since : Kept base { m with modules := (path, .null) :: m.modules } m'
  distinct : (m'.modules.map (·.1)).Nodup

/-- Dropping a path that no entry has changes nothing. -/
theorem filter_of_not_mem {path : String} {entries : List (String × Value)}
    (h : path ∉ entries.map (·.1)) : entries.filter (·.1 != path) = entries := by
  rw [List.filter_eq_self]
  intro e he
  exact bne_iff_ne.2 fun heq => h (heq ▸ List.mem_map_of_mem he)

namespace Loading

variable {base : Machine} {path : String} {m m₁ m₂ : Machine}

theorem begun (hm : (m.modules.map (·.1)).Nodup) (hp : path ∉ m.modules.map (·.1)) :
    Loading base path m { m with modules := (path, .null) :: m.modules } :=
  ⟨.refl _, List.nodup_cons.2 ⟨hp, hm⟩⟩

theorem kept (h : Loading base path m m₁) (hk : Kept base m₁ m₂) : Loading base path m m₂ :=
  ⟨h.since.trans hk, hk.distinct h.distinct⟩

/-- Without the entry of the module itself there is what was there, and modules that have come to
their end meanwhile. -/
theorem filter (h : Loading base path m m₁) :
    ∃ added, m₁.modules.filter (·.1 != path) = added ++ m.modules ∧ (∀ e ∈ added, e.2 ≠ .null) ∧
      path ∉ (added ++ m.modules).map (·.1) ∧ ((added ++ m.modules).map (·.1)).Nodup := by
  obtain ⟨added, ha, hn⟩ := h.since.modules
  have hd := h.distinct
  rw [ha, List.map_append, List.map_cons, List.nodup_middle, ← List.map_append] at hd
  obtain ⟨hp, hd⟩ := List.nodup_cons.1 hd
  refine ⟨added, ?_, hn, hp, hd⟩
  rw [ha, List.filter_append, List.filter_cons_of_neg (by simp), ← List.filter_append]
  exact filter_of_not_mem hp

/-- A module that is given up leaves nothing behind. -/
theorem dropped (h : Loading base path m m₁) :
    Kept base m { m₁ with modules := m₁.modules.filter (·.1 != path) } := by
  obtain ⟨added, ha, hn, -, hd⟩ := h.filter
  have hk := h.since
  exact ⟨hk.environment, hk.globals, hk.directory, hk.callDepth, hk.weaving, ⟨added, ha, hn⟩,
    fun _ => by rw [ha]; exact hd, hk.pinned, hk.owner, hk.lineage, hk.scopes⟩

/-- The namespace of a module that has come to its end is there in place of null. -/
theorem loaded (h : Loading base path m m₁) {v : Value} (hv : v ≠ .null) :
    Kept base m { m₁ with modules := (path, v) :: m₁.modules.filter (·.1 != path) } := by
  obtain ⟨added, ha, hn, hp, hd⟩ := h.filter
  have hk := h.since
  refine ⟨hk.environment, hk.globals, hk.directory, hk.callDepth, hk.weaving,
    ⟨(path, v) :: added, by rw [ha, List.cons_append], ?_⟩, fun _ => ?_, hk.pinned, hk.owner,
    hk.lineage, hk.scopes⟩
  · exact List.forall_mem_cons.2 ⟨hv, hn⟩
  · rw [ha]
    exact List.nodup_cons.2 ⟨hp, hd⟩

end Loading

/-- A computation that always comes to a value, which is as `Q` says, and loads nothing. -/
def Serves (Q : α → Prop) (x : EStateM ε Machine α) : Prop :=
  ∀ m, ∃ a m', x m = .ok a m' ∧ (∀ base, Kept base m m') ∧ m'.modules = m.modules ∧ Q a

namespace Serves

variable {Q : α → Prop} {R : β → Prop}

theorem pure {a : α} (ha : Q a) : Serves Q (Pure.pure a : EStateM ε Machine α) :=
  fun m => ⟨a, m, rfl, fun _ => .refl m, rfl, ha⟩

theorem bind {x : EStateM ε Machine α} {f : α → EStateM ε Machine β} (hx : Serves Q x)
    (hf : ∀ a, Q a → Serves R (f a)) : Serves R (x >>= f) := by
  intro m
  obtain ⟨a, m₁, h₁, hk₁, hs₁, ha⟩ := hx m
  obtain ⟨b, m₂, h₂, hk₂, hs₂, hb⟩ := hf a ha m₁
  refine ⟨b, m₂, ?_, fun base => (hk₁ base).trans (hk₂ base), hs₂.trans hs₁, hb⟩
  show EStateM.bind x f m = _
  unfold EStateM.bind
  rw [h₁]
  exact h₂

theorem mapM {f : β → EStateM ε Machine α} (hf : ∀ b, Serves (fun _ => True) (f b)) (l : List β) :
    Serves (fun _ => True) (l.mapM f) := by
  induction l with
  | nil => exact .pure trivial
  | cons b l ih =>
    rw [List.mapM_cons]
    exact .bind (hf b) fun _ _ => .bind ih fun _ _ => .pure trivial

/-- A change of the machine that leaves the modules alone. -/
theorem change {f : Machine → α × Machine} (hf : ∀ base m, Kept base m (f m).2)
    (hs : ∀ m, (f m).2.modules = m.modules) (hq : ∀ m, Q (f m).1) :
    Serves Q (fun m => .ok (f m).1 (f m).2 : EStateM ε Machine α) :=
  fun m => ⟨_, _, rfl, fun base => hf base m, hs m, hq m⟩

theorem onWorld {f : World → α × World} (hl : ∀ w : World, w.Stands (f w).2)
    (hf : ∀ w, Q (f w).1) : Serves Q (Eval.onWorld f : EStateM ε Machine α) :=
  fun m => ⟨_, _, rfl, fun _ => .of_eq rfl rfl rfl rfl rfl rfl rfl rfl (hl m.world), rfl,
    hf m.world⟩

/-- A look at the machine. -/
theorem read (f : Machine → α) (hf : ∀ m, Q (f m)) :
    Serves Q (fun m => .ok (f m) m : EStateM ε Machine α) :=
  fun m => ⟨_, m, rfl, fun _ => .refl m, rfl, hf m⟩

/-- A computation that always comes to a value goes on from there. -/
theorem echo_bind [Stops ε] {x : EStateM ε Machine α} {f f' : α → EStateM ε Machine β}
    {m m₀ : Machine} (hx : Serves Q x)
    (hf : ∀ a m', Kept ground.base m m' → m'.modules = m.modules → Q a →
      Echo w ground m₀ (f a m') (f' a m')) :
    Echo w ground m₀ ((x >>= f) m) ((x >>= f') m) := by
  obtain ⟨a, m', h, hk, hs, ha⟩ := hx m
  show Echo w ground m₀ (EStateM.bind x f m) (EStateM.bind x f' m)
  unfold EStateM.bind
  rw [h]
  exact hf a m' (hk _) hs ha

end Serves

namespace Eval

theorem serves_onHeap (f : StateM Heap α) :
    Serves (fun _ => True) (onHeap f : EStateM ε Machine α) := .onWorld (fun _ => .same rfl rfl) fun _ => trivial

theorem serves_exports (r : Ref .scope) : Serves (· ≠ .null) (exports r) := by
  refine .bind (Q := fun _ => True) (.read _ fun _ => trivial) fun entries _ => ?_
  refine .bind (.mapM (fun e => ?_) _) fun copies _ => ?_
  · exact .bind (serves_onHeap _) fun _ _ => .pure trivial
  · exact .onWorld (fun _ => .same rfl rfl) fun _ => nofun

theorem serves_openModule (name path : String) :
    Serves (fun _ => True) (openModule name path) := by
  refine .bind (Q := fun _ => True) (.read _ fun _ => trivial) fun m _ => ?_
  split
  · exact .pure trivial
  · refine .bind (Q := fun _ => True) (.read _ fun _ => trivial) fun m _ => ?_
    refine .bind (Q := fun _ => True) (fun m => ?_) fun _ _ => .pure trivial
    exact ⟨_, _, rfl, fun _ => .of_eq rfl rfl rfl rfl rfl rfl rfl rfl (.same rfl rfl), rfl, trivial⟩

theorem serves_newScope (parent : Option (Ref .scope)) :
    Serves (fun _ => True) (newScope parent : EStateM ε Machine (Ref .scope)) :=
  .onWorld (fun _ => ⟨rfl, .push _ _ _⟩) fun _ => trivial

theorem namespace?_run (path : String) (m : Machine) : namespace? path m =
    .ok ((m.modules.find? (·.1 == path)).map (·.2)) m := rfl

theorem not_mem_of_find?_eq_none {path : String} {entries : List (String × Value)}
    (h : entries.find? (·.1 == path) = none) : path ∉ entries.map (·.1) := by
  intro hp
  obtain ⟨e, he, rfl⟩ := List.mem_map.1 hp
  simpa using List.find?_eq_none.1 h e he

/-- A namespace that is kept under a path that has no entry yet. -/
theorem kept_keepNamespace {path : String} {m m' : Machine} {v : Value} (hv : v ≠ .null)
    (hp : path ∉ m.modules.map (·.1)) (hk : Kept ground.base m m') (hs : m'.modules = m.modules) :
    Kept ground.base m { m' with modules := (path, v) :: m'.modules.filter (·.1 != path) } := by
  rw [hs, filter_of_not_mem hp]
  exact ⟨hk.environment, hk.globals, hk.directory, hk.callDepth, hk.weaving,
    ⟨[(path, v)], rfl, by simpa using hv⟩, fun h => List.nodup_cons.2 ⟨hp, h⟩, hk.pinned, hk.owner,
    hk.lineage, hk.scopes⟩

/-- The built-in module is made at once, and has no entry of null. -/
theorem echoes_weaverModule : Echoes w ground weaverModule weaverModule := by
  intro m _
  unfold weaverModule
  -- which functions there are does not matter, and the list is better not computed with
  generalize Native.weaver = natives
  show Rewind.Echo w ground m (EStateM.bind (namespace? weaverKey) _ m)
    (EStateM.bind (namespace? weaverKey) _ m)
  unfold EStateM.bind
  rw [namespace?_run]
  cases h : m.modules.find? (·.1 == weaverKey) with
  | some e => exact .ok _ (.refl m)
  | none =>
    have hp := not_mem_of_find?_eq_none h
    have member (native : Native) : Serves (fun _ => True) (do
        return (native.name, ← newFunction ⟨native.name, .native native⟩) :
        Eval (String × Value)) :=
      .bind (Q := fun _ => True) (.onWorld (fun _ => .same rfl rfl) fun _ => trivial) fun _ _ => .pure trivial
    refine (Serves.mapM member natives).echo_bind fun members m₁ hk₁ hs₁ _ => ?_
    refine Serves.echo_bind (Q := (· ≠ .null)) (.onWorld (fun _ => .same rfl rfl) fun _ => nofun) fun v m₂ hk₂ hs₂ hv => ?_
    exact .ok _ (kept_keepNamespace hv hp (hk₁.trans hk₂) (hs₂.trans hs₁))

/-- What is left to do once the body of a module has come to its end. -/
theorem echo_keepModule (r : Ref .scope) {path : String} {m m₁ : Machine}
    (hl : Loading ground.base path m m₁) : Rewind.Echo w ground m
      ((do
        let v ← exports r
        let bound ← onHeap (Heap.duplicate v)
        keepNamespace path v
        modify fun m => { m with moduleScopes := r :: m.moduleScopes }
        return bound : Eval Value) m₁)
      ((do
        let v ← exports r
        let bound ← onHeap (Heap.duplicate v)
        keepNamespace path v
        modify fun m => { m with moduleScopes := r :: m.moduleScopes }
        return bound : Eval Value) m₁) := by
  refine (serves_exports r).echo_bind fun v m₂ hk₂ _ hv => ?_
  refine (serves_onHeap _).echo_bind fun bound m₃ hk₃ _ _ => ?_
  exact .ok _ ((((hl.kept hk₂).kept hk₃).loaded hv).trans (.of_eq rfl rfl rfl rfl rfl rfl rfl rfl (.same rfl rfl)))

/-- The body of a module begins in the directory of its file, with an entry of null in front. -/
theorem lawful_moduleMachine {path : String} {m m₁ : Machine} (hm : Grounds ground m)
    (hl : Loading ground.base path m m₁) (hs : m₁.modules = (path, .null) :: m.modules) (cursor : Cursor)
    (r : Ref .scope) :
    Lawful ground (.body 1) (moduleMachine m₁ cursor r (Path.parent? path)) := by
  have modules : (moduleMachine m₁ cursor r (Path.parent? path)).modules =
      (path, .null) :: m.modules := hs
  -- the module's own entry comes first, those of the loaders are behind it
  have entries : ∀ e ∈ ground.there,
      e ∈ (moduleMachine m₁ cursor r (Path.parent? path)).modules.tail := by
    rw [modules]
    exact hm.entries
  -- whoever loads the module waits for it as a caller waits
  have callers : (moduleMachine m₁ cursor r (Path.parent? path)).callers =
      m₁.thread.waiting :: m.callers := congrArg (m₁.thread.waiting :: ·) hl.since.callers
  have depth : m₁.callDepth ≤ m₁.environment.maxCallDepth := by
    rw [hl.since.callDepth, hl.since.environment]
    exact hm.depth
  refine ⟨hm.enter (moduleMachine m₁ cursor r (Path.parent? path)) hl.distinct ?_
    (fun e he => List.mem_of_mem_tail (entries e he)) callers depth (hl.since.lineage hm.lineage)
    ground.away, fun _ => entries⟩
  rw [modules]
  rfl

section Jobs

variable {j j' : Jobs} (hj : j.Echo w ground j')

include hj

/-- The body of a module runs with an entry of null for it.  Whatever becomes of it, that entry is
taken out again. -/
theorem echo_runModule (name : String) {path : String} {m : Machine}
    (hm : Grounds ground m) (hp : path ∉ m.modules.map (·.1)) :
    Rewind.Echo w ground m (runModule j name path m) (runModule j' name path m) := by
  have begun : Loading ground.base path m
      { m with modules := (path, .null) :: m.modules.filter (·.1 != path) } := by
    rw [filter_of_not_mem hp]
    exact .begun hm.distinct hp
  unfold runModule
  show Rewind.Echo w ground m
    ((openModule name path >>= _ : Eval Value)
      { m with modules := (path, .null) :: m.modules.filter (·.1 != path) })
    ((openModule name path >>= _ : Eval Value)
      { m with modules := (path, .null) :: m.modules.filter (·.1 != path) })
  refine (serves_openModule name path).echo_bind fun opened m₁ hk₁ hs₁ _ => ?_
  -- a module that cannot be read is forgotten again, and the run fails
  cases opened with
  | error failure => exact .error _ (begun.kept hk₁).dropped
  | ok cursor =>
    refine (serves_newScope none).echo_bind fun r m₂ hk₂ hs₂ _ => ?_
    have entered := (begun.kept hk₁).kept hk₂
    -- the entry that the module was given is not touched until it is filled in
    have hs : m₂.modules = (path, .null) :: m.modules := by
      rw [hs₂, hs₁, filter_of_not_mem hp]
    -- back in the loader: the cursor and the thread are its own, and the modules are those that
    -- were loaded
    have left {m' : Machine}
        (h : Kept ground.base (moduleMachine m₂ cursor r (Path.parent? path)) m') :
        Loading ground.base path m (loaderMachine m₂ m') :=
      entered.kept ⟨h.environment, h.globals, rfl, h.callDepth, h.weaving, h.modules, h.distinct,
        rfl, fun _ => rfl, h.lineage, h.scopes⟩
    -- a module that fails takes its entry with it, so that it can be loaded again
    have forgotten {m' : Machine} (h : Loading ground.base path m (loaderMachine m₂ m'))
        (w : World) (hl : m'.world.Stands w) :
        Kept ground.base m { loaderMachine m₂ m' with
          modules := (loaderMachine m₂ m').modules.filter (·.1 != path), world := w } :=
      h.dropped.trans (.of_eq rfl rfl rfl rfl rfl rfl rfl rfl hl)
    have h := hj.body 1 _ (lawful_moduleMachine hm entered hs cursor r)
    show Rewind.Echo w ground m (EStateM.bind _ _ m₂) (EStateM.bind _ _ m₂)
    unfold EStateM.bind
    rw [inModule_run, inModule_run]
    cases hr : j.body 1 (moduleMachine m₂ cursor r (Path.parent? path)) with
    | error fault m₃ =>
      rw [hr] at h
      obtain ⟨hk, qs, hqs⟩ := h
      rw [hqs]
      exact ⟨forgotten (left hk) _ (.clearScope _ _), qs, rfl⟩
    | ok status m₃ =>
      rw [hr] at h
      rw [h.2]
      have hl := left h.1
      cases status with
      | leaving signal =>
        cases signal with
        | raised raised => exact .error _ (forgotten hl _ (.clearScope _ _))
        | _ => exact echo_keepModule r hl
      | _ => exact echo_keepModule r hl

theorem echoes_loadModule (name : String) (site : Token) :
    Echoes w ground (loadModule j name site) (loadModule j' name site) := by
  refine .ite (.bind echoes_weaverModule fun _ => echoes_onHeap _) (.get_bind fun m hm => ?_)
  cases resolveModule m name with
  | none => exact .error _ (.refl m)
  | some path =>
    show Rewind.Echo w ground m (EStateM.bind (namespace? path) _ m) (EStateM.bind (namespace? path) _ m)
    unfold EStateM.bind
    rw [namespace?_run]
    cases h : m.modules.find? (·.1 == path) with
    | some e => exact echoes_onHeap _ m hm
    | none => exact echo_runModule hj name hm (not_mem_of_find?_eq_none h)

theorem echoes_loadItem (n : Nat) : Echoes w ground (loadItem j n) (loadItem j' n) := by
  refine .bind (.lift (echoes_skipOver _)) fun _ => .ite ?_ ?_
  · refine .bind (.lift (echoes_selection _ _)) fun _ => .bind (.lift (echoes_advance _)) fun _ => ?_
    refine .bind (.lift (echoes_advance _)) fun _ => .bind (.lift echoes_moduleName) fun _ => ?_
    exact .bind (echoes_loadModule hj _ _) fun _ => echoes_bindSelection _ _ _
  · refine .bind (.lift echoes_moduleName) fun _ => .bind (.lift echoes_alias?) fun _ => ?_
    exact .bind (echoes_loadModule hj _ _) fun _ => echoes_define _ _

theorem echoes_loadItems (n : Nat) : Echoes w ground (loadItems j n) (loadItems j' n) := by
  induction n with
  | zero => exact .lift echoes_exhausted
  | succ n ih =>
    exact .bind (echoes_loadItem hj n) fun _ => .bind (.lift (echoes_skipOver _)) fun _ =>
      .ite ih (.pure _)

theorem echoes_loadStatement (n : Nat) :
    Echoes w ground (loadStatement j n) (loadStatement j' n) :=
  .bind (.lift echoes_bump) fun _ => .bind (.lift (echoes_advance _)) fun _ =>
    .bind (echoes_loadItems hj n) fun _ => .bind (.lift echoes_endStatement) fun _ => .pure _

/-! ### Blocks, branches and exceptions -/

omit hj in
theorem echoes_park (kind : FrameKind) : Echoes w ground (park kind) (park kind) :=
  .bind (echoes_modifyThread fun _ => rfl) fun _ => .pure _

omit hj in
theorem echoes_finishBlock (column : Nat) {body body' : Run Status}
    (hb : Echoes w ground body body') :
    Echoes w ground (finishBlock column body) (finishBlock column body') := by
  refine .bind (.lift hb) fun status => ?_
  cases status with
  | yielded => exact echoes_park _
  | _ =>
    refine .bind echoes_popScope fun _ => .bind echoes_current fun close => ?_
    refine .guard (.lift (echoes_malformed _ _)) (.guard (.lift (echoes_malformed _ _)) ?_)
    exact .bind (.lift echoes_bump) fun _ => .pure _

theorem echoes_blockStatement :
    Echoes w ground (blockStatement j) (blockStatement j') :=
  .bind (.lift echoes_bump) fun _ => .bind echoes_pushScope fun _ =>
    echoes_finishBlock _ (hj.inner _)

omit hj in
theorem echoes_skipBranches (column n : Nat) :
    Echoes w ground (skipBranches column n) (skipBranches column n) := by
  induction n with
  | zero => exact echoes_exhausted
  | succ n ih =>
    refine .bind echoes_current fun token => .ite ?_ (.pure _)
    exact .bind echoes_bump fun _ => .bind (echoes_skipBody _) fun _ => ih

omit hj in
theorem echoes_finishBranch (n column : Nat) {body body' : Run Status}
    (hb : Echoes w ground body body') :
    Echoes w ground (finishBranch n column body) (finishBranch n column body') := by
  refine .bind (.lift hb) fun status => ?_
  cases status with
  | yielded => exact echoes_park _
  | _ => exact .bind (.lift (echoes_skipBranches _ _)) fun _ => .pure _

theorem echoes_branches (column n : Nat) :
    Echoes w ground (branches j column n) (branches j' column n) := by
  induction n with
  | zero => exact .lift echoes_exhausted
  | succ n ih =>
    refine .bind (.lift (echoes_advance _)) fun _ => .bind hj.expression fun _ => ?_
    refine .bind (echoes_truthy _) fun _ => .bind (.lift (echoes_enterBlock _)) fun _ => ?_
    refine .ite (echoes_finishBranch _ _ (hj.inner _)) ?_
    refine .bind (.lift (echoes_skipBody _)) fun _ => .bind echoes_current fun token => ?_
    refine .ite (.pure _) ?_
    split
    · exact .bind (.lift echoes_bump) fun _ => ih
    · exact .bind (.lift echoes_bump) fun _ => .bind (.lift (echoes_enterBlock _)) fun _ =>
        echoes_finishBranch _ _ (hj.inner _)
    · exact .pure _

theorem echoes_ifStatement (n : Nat) :
    Echoes w ground (ifStatement j n) (ifStatement j' n) :=
  .bind (.lift echoes_bump) fun _ => echoes_branches hj _ _

omit hj in
theorem echoes_isClause (k : TokenKind) (column : Nat) :
    Echoes w ground (isClause k column) (isClause k column) :=
  .bind echoes_current fun _ => .pure _

omit hj in
theorem echoes_finallyBody (pending : Option Signal) {body body' : Run Status}
    (hb : Echoes w ground body body') :
    Echoes w ground (finallyBody pending body) (finallyBody pending body') := by
  refine .bind (.holding _ (.lift hb)) fun status => ?_
  cases status with
  | yielded => exact echoes_park _
  | _ => exact .pure _

theorem echoes_finallyClause (column : Nat) (handled : Bool) (pending : Option Signal) :
    Echoes w ground (finallyClause j column handled pending)
      (finallyClause j' column handled pending) := by
  refine .bind (.lift (echoes_isClause _ _)) fun _ => .ite ?_ ?_
  · exact .bind (.lift echoes_bump) fun _ => .bind (.lift (echoes_enterBlock _)) fun _ =>
      echoes_finallyBody _ (hj.inner _)
  · exact .ite (.bind echoes_current fun _ => .bind (.lift (echoes_malformed _ _)) fun _ =>
      .pure _) (.pure _)

theorem echoes_handlerBody (column : Nat) {body body' : Run Status}
    (hb : Echoes w ground body body') :
    Echoes w ground (handlerBody j column body) (handlerBody j' column body') := by
  refine .bind (.lift hb) fun status => ?_
  cases status with
  | yielded => exact echoes_park _
  | _ => exact .bind echoes_popScope fun _ => echoes_finallyClause hj _ _ _

theorem echoes_clause (column : Nat) (pending : Option Signal) (name : Option Token) :
    Echoes w ground
    (do
      enterBlock column
      match pending with
      | some (.raised r) =>
        pushScope
        match name with
        | some token => define token.text r.value
        | none => pure ()
        handlerBody j column (j.body (column + 4))
      | other =>
        skipBody (column + 4)
        finallyClause j column true other : Eval Status)
    (do
      enterBlock column
      match pending with
      | some (.raised r) =>
        pushScope
        match name with
        | some token => define token.text r.value
        | none => pure ()
        handlerBody j' column (j'.body (column + 4))
      | other =>
        skipBody (column + 4)
        finallyClause j' column true other) := by
  refine .bind (.lift (echoes_enterBlock _)) fun _ => ?_
  split
  · -- the name of the exception is bound in a scope that both runs open
    refine .bind echoes_pushScope fun _ => ?_
    cases name with
    | some token =>
      exact .bind (echoes_define _ _) fun _ => echoes_handlerBody hj _ (hj.inner _)
    | none => exact echoes_handlerBody hj _ (hj.inner _)
  · exact .bind (.lift (echoes_skipBody _)) fun _ => echoes_finallyClause hj _ _ _

theorem echoes_handlerClause (column : Nat) (pending : Option Signal) :
    Echoes w ground (handlerClause j column pending) (handlerClause j' column pending) := by
  refine .bind (.lift echoes_bump) fun _ => .bind (.lift (echoes_skipOver _)) fun _ => .ite ?_ ?_
  · exact .bind (.map _ (.lift (echoes_advance _))) fun _ => echoes_clause hj _ _ _
  · exact .bind (.pure _) fun _ => echoes_clause hj _ _ _

theorem echoes_tryClauses (column : Nat) (pending : Option Signal) :
    Echoes w ground (tryClauses j column pending) (tryClauses j' column pending) :=
  .bind (.lift (echoes_isClause _ _)) fun _ =>
    .ite (echoes_handlerClause hj _ _) (echoes_finallyClause hj _ _ _)

theorem echoes_runTry (column : Nat) {body body' : Run Status}
    (hb : Echoes w ground body body') (phase : TryPhase) :
    Echoes w ground (runTry j column body phase) (runTry j' column body' phase) := by
  cases phase with
  | body =>
    refine .bind (.lift hb) fun status => ?_
    cases status with
    | yielded => exact echoes_park _
    | _ => exact echoes_tryClauses hj _ _
  | handler => exact echoes_handlerBody hj _ hb
  | cleanup pending => exact echoes_finallyBody _ hb

theorem echoes_tryStatement : Echoes w ground (tryStatement j) (tryStatement j') :=
  .bind (.lift echoes_bump) fun _ => .bind (.lift (echoes_enterBlock _)) fun _ =>
    echoes_runTry hj _ (hj.inner _) _

/-! ### Loops -/

theorem echoes_whileCondition (column : Nat) (header : Position) :
    Echoes w ground (whileCondition j column header) (whileCondition j' column header) := by
  refine .bind (.lift (echoes_rewind _)) fun _ => .bind echoes_resetTapeUnlessReplaying fun _ => ?_
  refine .bind echoes_current fun _ => .bind hj.expression fun v => ?_
  split
  · exact .bind (.lift (echoes_enterBlock _)) fun _ => .pure _
  · exact echoes_complain _ _

omit hj in
theorem echoes_whileRound (header : Position) {again again' : Eval Status}
    (ha : Echoes w ground again again') {body body' : Run Status}
    (hb : Echoes w ground body body') :
    Echoes w ground (whileRound header again body) (whileRound header again' body') := by
  refine .bind (.lift hb) fun status => ?_
  split
  · exact ha
  · exact ha
  · exact echoes_park _
  · exact .pure _
  · exact .pure _

theorem echoes_whileRounds (column : Nat) (header : Position) (n : Nat) :
    Echoes w ground (whileRounds j column header n) (whileRounds j' column header n) := by
  induction n with
  | zero => exact .lift echoes_exhausted
  | succ n ih =>
    refine .bind (echoes_whileCondition hj _ _) fun _ => .ite ?_ ?_
    · exact echoes_whileRound _ ih (hj.inner _)
    · exact .bind (.lift (echoes_skipBody _)) fun _ => .pure _

omit hj in
theorem echoes_leaveLoop (column : Nat) (body : Position) :
    Echoes w ground (leaveLoop column body) (leaveLoop column body) :=
  .bind echoes_popScope fun _ => .bind (.lift (echoes_rewind _)) fun _ =>
    .lift (echoes_skipBody _)

omit hj in
theorem echoes_advance? (column : Nat) (l : RangeLoop) {again again' : RangeLoop → Eval Status}
    (ha : ∀ l, Echoes w ground (again l) (again' l)) : Echoes w ground
    (match l.advance? with
    | some l => again l
    | none => do
      leaveLoop column l.body
      return .normal : Eval Status)
    (match l.advance? with
    | some l => again' l
    | none => do
      leaveLoop column l.body
      return .normal) := by
  split
  · exact ha _
  · exact .bind (echoes_leaveLoop _ _) fun _ => .pure _

omit hj in
theorem echoes_rangeRound (column : Nat) (l : RangeLoop) {again again' : RangeLoop → Eval Status}
    (ha : ∀ l, Echoes w ground (again l) (again' l)) {body body' : Run Status}
    (hb : Echoes w ground body body') :
    Echoes w ground (rangeRound column l again body) (rangeRound column l again' body') := by
  refine .bind (.lift hb) fun status => ?_
  have next := echoes_advance? column l ha
  split
  · exact next
  · exact next
  · exact echoes_park _
  · exact .bind (echoes_leaveLoop _ _) fun _ => .pure _
  · exact .bind (echoes_leaveLoop _ _) fun _ => .pure _

theorem echoes_rangeRounds (column n : Nat) (l : RangeLoop) :
    Echoes w ground (rangeRounds j column n l) (rangeRounds j' column n l) := by
  induction n generalizing l with
  | zero => exact .lift echoes_exhausted
  | succ n ih =>
    refine .ite (.bind (echoes_leaveLoop _ _) fun _ => .pure _) ?_
    refine .bind (echoes_define _ _) fun _ => .bind (.lift (echoes_rewind _)) fun _ => ?_
    exact echoes_rangeRound _ _ ih (hj.inner _)

omit hj in
theorem echoes_eachRound (column : Nat) (l : EachLoop) {again again' : EachLoop → Eval Status}
    (ha : ∀ l, Echoes w ground (again l) (again' l)) {body body' : Run Status}
    (hb : Echoes w ground body body') :
    Echoes w ground (eachRound column l again body) (eachRound column l again' body') := by
  refine .bind (.lift hb) fun status => ?_
  split
  · exact ha _
  · exact ha _
  · exact echoes_park _
  · exact .bind (echoes_leaveLoop _ _) fun _ => .pure _
  · exact .bind (echoes_leaveLoop _ _) fun _ => .pure _

theorem echoes_eachRounds (column n : Nat) (l : EachLoop) :
    Echoes w ground (eachRounds j column n l) (eachRounds j' column n l) := by
  induction n generalizing l with
  | zero => exact .lift echoes_exhausted
  | succ n ih =>
    unfold eachRounds
    split
    · exact .bind (echoes_leaveLoop _ _) fun _ => .pure _
    · refine .bind (echoes_onHeap _) fun _ => .bind (echoes_define _ _) fun _ => ?_
      exact .bind (.lift (echoes_rewind _)) fun _ => echoes_eachRound _ _ ih (hj.inner _)

omit hj in
theorem echoes_overItems (l : EachLoop) {x x' : Eval Status}
    (hx : Echoes w ground x x') :
    Echoes w ground (overItems l x) (overItems l x') := .holding _ (.inLoop hx)

omit hj in
theorem echoes_checkBounds (first last step : Value) (site : Token) :
    Echoes w ground (checkBounds first last step site)
      (checkBounds first last step site) := by
  refine .bind ?_ fun _ => .ite (echoes_complain _ _) (.pure _)
  generalize [first, last, step] = bounds
  induction bounds with
  | nil => exact .pure _
  | cons bound bounds ih =>
    rw [List.forIn_cons]
    refine .bind (.ite (.bind (echoes_complain _ _) fun _ => .pure _) (.pure _)) fun next => ?_
    split
    · exact .pure _
    · exact ih

theorem echoes_rangeLoop (n column : Nat) (var : String) :
    Echoes w ground (rangeLoop j n column var) (rangeLoop j' n column var) := by
  refine .bind (.lift echoes_bump) fun _ => .bind echoes_current fun _ => ?_
  refine .bind hj.expression fun _ => .bind (echoes_own _) fun first => ?_
  refine .bind (.lift (echoes_advance _)) fun _ => .bind (.holding _ hj.expression) fun _ => ?_
  refine .bind (echoes_own _) fun last => .bind (.lift (echoes_skipOver _)) fun _ => ?_
  -- what the loop has noted of itself is the same on both sides, the place of its body included
  have rounds (step : Value) (site : Token) : Echoes w ground (do
      enterBlock column
      checkBounds first last step site
      let l := { var, current := first, last, step, body := ← capture }
      pushScope
      inLoop (rangeRounds j column n l) : Eval Status) (do
      enterBlock column
      checkBounds first last step site
      let l := { var, current := first, last, step, body := ← capture }
      pushScope
      inLoop (rangeRounds j' column n l) : Eval Status) :=
    .bind (.lift (echoes_enterBlock _)) fun _ => .bind (echoes_checkBounds _ _ _ _) fun _ =>
      .bind echoes_capture fun _ => .bind echoes_pushScope fun _ =>
        .inLoop (echoes_rangeRounds hj _ _ _)
  refine .ite ?_ ?_
  · exact .bind (.holding _ hj.expression) fun _ => .bind (echoes_own _) fun _ => rounds _ _
  · exact .bind (.pure _) fun _ => rounds _ _

theorem echoes_eachLoop (n column : Nat) (var : String) :
    Echoes w ground (eachLoop j n column var) (eachLoop j' n column var) := by
  refine .bind (.lift echoes_bump) fun _ => .bind echoes_current fun _ => ?_
  refine .bind hj.expression fun _ => .bind (.lift (echoes_enterBlock _)) fun _ => ?_
  refine .bind (echoes_ask _) fun _ => .bind (echoes_orComplain _ _) fun _ => ?_
  refine .bind echoes_capture fun _ => .bind echoes_pushScope fun _ => ?_
  exact echoes_overItems _ (echoes_eachRounds hj _ _ _)

theorem echoes_forLoop (n column : Nat) :
    Echoes w ground (forLoop j n column) (forLoop j' n column) := by
  refine .bind (.lift (echoes_advance _)) fun _ => .bind (.lift (echoes_advance _)) fun var => ?_
  refine .bind echoes_kind fun k => ?_
  split
  · exact echoes_rangeLoop hj _ _ _
  · exact echoes_eachLoop hj _ _ _
  · exact .bind echoes_current fun _ => .lift (echoes_malformed _ _)

theorem echoes_loopStatement (n : Nat) :
    Echoes w ground (loopStatement j n) (loopStatement j' n) := by
  refine .bind (.lift echoes_bump) fun _ => .bind (.lift (echoes_advance _)) fun _ => ?_
  refine .bind echoes_kind fun k => ?_
  split
  · exact .bind (.lift echoes_bump) fun _ => .bind echoes_capture fun _ =>
      .inLoop (echoes_whileRounds hj _ _ _)
  · exact echoes_forLoop hj _ _
  · exact .bind echoes_current fun _ => .lift (echoes_malformed _ _)

/-! ### Statements -/

theorem echoes_resultItems (n : Nat) (read : List Value) :
    Echoes w ground (resultItems j n read) (resultItems j' n read) := by
  induction n generalizing read with
  | zero => exact .lift echoes_exhausted
  | succ n ih =>
    refine .bind (.lift (echoes_skipOver _)) fun _ => .ite ?_ (.pure _)
    exact .bind (.holding _ hj.expression) fun _ => .bind (echoes_own _) fun _ => ih _

theorem echoes_returnStatement (n : Nat) :
    Echoes w ground (returnStatement j n) (returnStatement j' n) := by
  refine .bind (.lift echoes_bump) fun _ => .bind echoes_mode fun _ => ?_
  refine .guard (.lift (echoes_malformed _ _)) (.bind (.lift (echoes_advance _)) fun _ => ?_)
  refine .bind echoes_current fun _ => .ite (.pure _) ?_
  refine .bind hj.expression fun _ => .bind (echoes_own _) fun _ => .bind echoes_kind fun _ => ?_
  refine .ite ?_ ?_
  · refine .bind (echoes_resultItems hj _ _) fun _ => .bind (echoes_onHeap _) fun _ => ?_
    exact .bind (.lift echoes_endStatement) fun _ => .pure _
  · exact .bind (.pure _) fun _ => .bind (.lift echoes_endStatement) fun _ => .pure _

theorem echoes_raiseStatement : Echoes w ground (raiseStatement j) (raiseStatement j') := by
  refine .bind (.lift echoes_bump) fun _ => .bind (.lift (echoes_advance _)) fun _ => ?_
  refine .bind hj.expression fun _ => .bind (echoes_own _) fun v => ?_
  refine .bind (.lift echoes_endStatement) fun _ => ?_
  split
  · exact .pure _
  · exact echoes_complain _ _

omit hj in
theorem echoes_loopSignal (signal : Signal) :
    Echoes w ground (loopSignal signal) (loopSignal signal) := by
  refine .bind echoes_current fun _ => .bind echoes_mode fun _ => ?_
  refine .guard (.lift (echoes_malformed _ _)) (.bind (.lift echoes_bump) fun _ => ?_)
  exact .bind (.lift echoes_endStatement) fun _ => .pure _

omit hj in
theorem echoes_skipStatement : Echoes w ground skipStatement skipStatement :=
  .bind (.lift echoes_bump) fun _ => .bind (.lift echoes_endStatement) fun _ => .pure _

theorem echoes_expressionStatement :
    Echoes w ground (expressionStatement j) (expressionStatement j') :=
  .bind hj.expression fun _ => .bind (.lift echoes_endStatement) fun _ => .pure _

theorem echoes_statement (n : Nat) : Echoes w ground (statement j n) (statement j' n) := by
  refine .bind echoes_current fun token => .bind echoes_mode fun _ => ?_
  refine .guard (.lift (echoes_malformed _ _)) ?_
  -- one lemma for each kind of statement
  cases token.kind with
  | kwLet => exact echoes_letStatement hj n
  | kwFunct | kwAsync => exact echoes_functStatement hj n
  | kwReturn => exact echoes_returnStatement hj n
  | kwIf => exact echoes_ifStatement hj n
  | kwLoop => exact echoes_loopStatement hj n
  | kwBreak | kwContinue => exact echoes_loopSignal _
  | kwSkip => exact echoes_skipStatement
  | lbrace => exact echoes_blockStatement hj
  | kwRaise => exact echoes_raiseStatement hj
  | kwTry => exact echoes_tryStatement hj
  | kwBlueprint => exact echoes_blueprintStatement hj
  | kwLoad => exact echoes_loadStatement hj n
  | ident | kwSuper | kwAwait => exact echoes_expressionStatement hj
  | eof => exact .pure _
  | _ => exact .lift (echoes_malformed _ _)

theorem echoes_reenter (n column : Nat) {body body' : Run Status}
    (hb : Echoes w ground body body') (kind : FrameKind) :
    Echoes w ground (reenter j n column body kind) (reenter j' n column body' kind) := by
  cases kind with
  | simple => exact echoes_statement hj n
  | block => exact echoes_finishBlock _ hb
  | branch => exact echoes_finishBranch _ _ hb
  | whileLoop header => exact .inLoop (echoes_whileRound _ (echoes_whileRounds hj _ _ _) hb)
  | rangeLoop l => exact .inLoop (echoes_rangeRound _ _ (echoes_rangeRounds hj _ _) hb)
  | eachLoop l => exact echoes_overItems _ (echoes_eachRound _ _ (echoes_eachRounds hj _ _) hb)
  | attempt phase => exact echoes_runTry hj _ hb _

/-! ### Bodies -/

omit hj in
theorem echoes_takeFrame (start : Position) :
    Echoes w ground (takeFrame start) (takeFrame start) := by
  refine .bind echoes_get fun m => ?_
  split
  · exact .ite (.bind (echoes_modifyThread fun _ => rfl) fun _ => .pure _) (.pure _)
  · exact .pure _

omit hj in
theorem echoes_takeCancellation : Echoes w ground takeCancellation takeCancellation := by
  refine .bind echoes_get fun m => ?_
  dsimp only
  split
  · refine .bind (echoes_ask _) fun c => .ite (.pure _) ?_
    exact .bind (echoes_modifyWorld fun _ => .same rfl rfl) fun _ => .pure _
  · exact .pure _

theorem echoes_enter (n : Nat) (start : Position) :
    Echoes w ground (enter j n start) (enter j' n start) := by
  refine .bind (.lift (echoes_takeFrame _)) fun frame => ?_
  split
  · exact echoes_reenter hj n _ (hj.inner _) _
  · refine .bind echoes_resetTapeUnlessReplaying fun _ =>
      .bind (.lift echoes_takeCancellation) fun raised => ?_
    split
    · exact .pure _
    · exact echoes_statement hj n

omit hj in
theorem echoes_conclude (start : Position) {x x' : Eval Status}
    (hx : Echoes w ground x x') :
    Echoes w ground (conclude start x) (conclude start x') := by
  refine .bind (.attempt hx) fun result => ?_
  split
  · exact .bind (echoes_modifyThread fun _ => rfl) fun _ => .pure _
  · exact .bind echoes_resetTape fun _ => .pure _
  · exact .bind echoes_resetTape fun _ => .pure _
  · exact .bind (echoes_modifyThread fun _ => rfl) fun _ => .pure _

theorem echoes_execute (n : Nat) : Echoes w ground (execute j n) (execute j' n) :=
  .bind (echoes_move _) fun _ => .bind echoes_capture fun _ =>
    echoes_conclude _ (echoes_enter hj n _)

omit hj in
theorem echoes_goOn (column : Nat) {next next' x x' : Run Status}
    (hn : Echoes w ground next next') (hx : Echoes w ground x x') :
    Echoes w ground (goOn column next x) (goOn column next' x') := by
  refine .bind hx fun status => ?_
  split
  · exact hn
  · exact .pure _
  · exact .bind (echoes_skipBody _) fun _ => .pure _

omit hj in
theorem echoes_statementsBy {step step' : Nat → Run Status}
    (hs : ∀ n, Echoes w ground (step n) (step' n)) (column n : Nat) :
    Echoes w ground (statementsBy step column n) (statementsBy step' column n) := by
  induction n with
  | zero => exact echoes_exhausted
  | succ n ih =>
    refine .bind (echoes_move _) fun _ => .bind echoes_get fun m => ?_
    refine .ite (.pure _) (.ite (.ite (.pure _) ?_) (echoes_goOn _ ih (hs n)))
    exact .guard (echoes_malformed _ _) (echoes_goOn _ ih (hs n))

omit hj in
theorem echoes_bodyBy {rest rest' : Run Status} (hr : Echoes w ground rest rest') :
    Echoes w ground (bodyBy rest) (bodyBy rest') := by
  refine .bind echoes_get fun m => ?_
  split
  · exact .bind (echoes_rewind _) fun _ => hr
  · exact hr

end Jobs

end Eval

/-! ### Watches -/

namespace Watch

/-- Nothing is said at faults. -/
def Discreet (w : Watch) : Prop := ∀ q f, w.fails q f = ""

/-- Wherever a part may begin in a run, both watches say the same. -/
def Agree (w₀ w : Watch) (ground : Ground) : Prop :=
  ∀ q m, Lawful ground q m → w.begins q m = w₀.begins q m

variable {w₀ : Watch}

theorem telling_run [Stops ε] (w : Watch) (q : Part) (x : EStateM ε Machine α) (m : Machine) :
    w.telling q x m = match x (m.printing (w.begins q m)) with
      | .ok a m => .ok a m
      | .error e m =>
        match Stops.interrupt e with
        | .fault f => .error e (m.printing (w.fails q f))
        | _ => .error e m := rfl

theorem Discreet.telling_run [Stops ε] (hw : w₀.Discreet) (q : Part) (x : EStateM ε Machine α)
    (m : Machine) : w₀.telling q x m = x (m.printing (w₀.begins q m)) := by
  rw [Watch.telling_run]
  cases x (m.printing (w₀.begins q m)) with
  | ok a m => rfl
  | error e m =>
    dsimp only
    split
    · rw [hw, Machine.printing_empty]
    · rfl

theorem Discreet.afterFault (hw : w.Discreet) (f : Fault) (qs : List Part) :
    w.afterFault f qs = "" := by
  induction qs with
  | nil => rfl
  | cons q qs ih =>
    unfold Watch.afterFault at ih ⊢
    rw [List.map_cons, String.join_cons, ih, hw q f, String.append_empty]

/-- A part that begins where both watches say the same. -/
theorem echo_telling [Stops ε] (hw : w₀.Discreet) {q : Part} {x x' : EStateM ε Machine α}
    {m : Machine} (hb : w.begins q m = w₀.begins q m)
    (hx : ∀ text, Echo w ground (m.printing text) (x (m.printing text)) (x' (m.printing text))) :
    Echo w ground m (w₀.telling q x m) (w.telling q x' m) := by
  have h := hx (w₀.begins q m)
  -- to print the note of a part changes nothing that the two runs are compared by
  have hk : Kept ground.base m (m.printing (w₀.begins q m)) :=
    .of_eq rfl rfl rfl rfl rfl rfl rfl rfl (.same rfl rfl)
  rw [hw.telling_run, Watch.telling_run, hb]
  cases hr : x (m.printing (w₀.begins q m)) with
  | ok a m₁ =>
    rw [hr] at h
    rw [h.2]
    exact .ok a (hk.trans h.1)
  | error e m₁ =>
    rw [hr] at h
    obtain ⟨hk₁, h⟩ := h
    refine ⟨hk.trans hk₁, ?_⟩
    -- a fault is the only ending in which the two texts differ, by what each watch says of it
    split at h
    · obtain ⟨qs, hqs⟩ := h
      rename_i f hf
      refine ⟨qs ++ [q], ?_⟩
      rw [hqs]
      simp only [hf, Machine.printing_append, Watch.afterFault_append]
    · rw [h]
      dsimp only
      split
      · rename_i hne _ f hf
        exact absurd hf (hne f)
      · rfl

end Watch

namespace Eval

variable {w₀ : Watch}

/-- The jobs of a run follow the jobs of another run with as much fuel. -/
structure Follow (w : Watch) (ground : Ground)
    (j j' : Jobs) : Prop where
  expression : Echoes w ground j.expression j'.expression
  unary : Echoes w ground j.unary j'.unary
  body : ∀ column, Echoes w ground (j.body column) (j'.body column)
  invoke : ∀ callee args site,
    Echoes w ground (j.invoke callee args site) (j'.invoke callee args site)

theorem Follow.watched {j j' : Jobs} (h : Follow w ground j j') (hw : w₀.Discreet)
    (ha : w₀.Agree w ground) : (w₀.jobs j).Echo w ground (w.jobs j') := by
  have inner {m : Machine} (hm : Grounds ground m) (text : String) :
      Grounds ground (m.printing text) := hm.of_eq rfl rfl rfl rfl rfl rfl rfl
  have part {ε α : Type} [Stops ε] {q : Part} (hq : q ≠ .body 1) {x x' : EStateM ε Machine α}
      (hx : Echoes w ground x x') :
      Echoes w ground (w₀.telling q x) (w.telling q x') := fun m hm =>
    Watch.echo_telling hw (ha q m ⟨hm, fun h => absurd h hq⟩) fun text => hx _ (inner hm text)
  refine ⟨part (by simp) h.expression, part (by simp) h.unary, fun column m hm => ?_,
    fun callee args site => part (by simp) (h.invoke callee args site)⟩
  exact Watch.echo_telling hw (ha _ m hm) fun text => h.body column _ (inner hm.1 text)

/-- By induction on the fuel, every part of the one run follows the same part of the other. -/
theorem follow_watched (hw : w₀.Discreet) (ha : w₀.Agree w ground) (fuel : Nat) :
    Follow w ground (watched w₀ fuel) (watched w fuel) := by
  induction fuel with
  | zero =>
    exact ⟨.lift echoes_exhausted, .lift echoes_exhausted, fun _ => echoes_exhausted,
      fun _ _ _ => .lift echoes_exhausted⟩
  | succ fuel ih =>
    have hj := ih.watched hw ha
    refine ⟨echoes_conditional hj fuel, echoes_unaryExpr hj fuel, fun column => ?_,
      echoes_invokeValue hj fuel⟩
    refine echoes_bodyBy (echoes_statementsBy (fun n m hm => ?_) column fuel)
    exact Watch.echo_telling hw (ha _ m ⟨hm, nofun⟩) fun text =>
      echoes_execute hj n _ (hm.of_eq rfl rfl rfl rfl rfl rfl rfl)

/-- The jobs of a run follow themselves. -/
theorem echo_jobs (ground : Ground) (fuel : Nat) : (jobs fuel).Echo {} ground (jobs fuel) := by
  have agree : Watch.Agree {} {} ground := fun _ _ _ => rfl
  have follow := (follow_watched (fun _ _ => rfl) agree fuel).watched (fun _ _ => rfl) agree
  rwa [watched_silent, jobs_silent] at follow

end Eval

/-! ### Programs -/

namespace Machine

/-- The machine at the beginning of the program at `cursor`. -/
def starting (m : Machine) (cursor : Cursor) : Machine :=
  { m with sources := m.sources + 1, thread := { cursor, scope := m.globals } }

theorem kept_starting {base m : Machine} (ho : m.thread.mode.owner = none) (cursor : Cursor) :
    Kept base m (m.starting cursor) :=
  .of_eq rfl rfl rfl rfl rfl rfl rfl ho.symm (.same rfl rfl)

/-- How the run of a program ends whose body has ended. -/
def ended : EStateM.Result Fault Machine Status → Except Fault Unit × Machine
  | .ok status m => ((ending m.world status).mapError .failure, m)
  | .error fault m => (.error fault, m)

/-- Runs a program in the outermost scope, its body by `body`. -/
def runBy (body : Run Status) (m : Machine) (text : String) : Except Fault Unit × Machine :=
  match Cursor.ofSource ⟨m.sources, text.toList⟩ with
  | .error fault => (.error (.failure (.ofLex fault)), { m with sources := m.sources + 1 })
  | .ok cursor => ended (body (m.starting cursor))

/-- Runs a program in the outermost scope under a watch. -/
def runWatched (w : Watch) (m : Machine) (text : String) (fuel : Nat := plentyOfFuel) :
    Except Fault Unit × Machine :=
  runBy ((Eval.watched w fuel).body 1) m text

theorem runSource_eq_runBy (m : Machine) (text : String) (fuel : Nat) :
    m.runSource text fuel = runBy ((Eval.jobs fuel).body 1) m text := by
  unfold runSource runBy
  dsimp only
  cases Cursor.ofSource ⟨m.sources, text.toList⟩ with
  | error fault => rfl
  | ok cursor =>
    dsimp only [starting]
    cases (Eval.jobs fuel).body 1
      { m with sources := m.sources + 1, thread := { cursor, scope := m.globals } } <;> rfl

@[simp] theorem runWatched_silent (m : Machine) (text : String) (fuel : Nat) :
    m.runWatched {} text fuel = m.runSource text fuel := by
  rw [runWatched, Eval.watched_silent, runSource_eq_runBy]

variable {w₀ : Watch} {m : Machine}

/-- Two watches that say the same of every beginning make the same run of a program, up to what is
said about the fault it ends with. -/
theorem runWatched_agree (hw : w₀.Discreet) (ha : w₀.Agree w ground)
    (hm : Grounds ground m) (ho : m.thread.mode.owner = none) (text : String) (fuel : Nat) :
    Kept ground.base m (m.runWatched w₀ text fuel).2 ∧
    (m.runWatched w text fuel = m.runWatched w₀ text fuel ∨
      ∃ f qs, (m.runWatched w₀ text fuel).1 = .error f ∧
        m.runWatched w text fuel =
          (.error f, (m.runWatched w₀ text fuel).2.printing (w.afterFault f qs))) := by
  unfold runWatched runBy
  cases Cursor.ofSource ⟨m.sources, text.toList⟩ with
  | error fault => exact ⟨.of_eq rfl rfl rfl rfl rfl rfl rfl rfl (.same rfl rfl), .inl rfl⟩
  | ok cursor =>
    dsimp only
    have h := (Eval.follow_watched hw ha fuel).body 1 _ (hm.kept (kept_starting ho cursor))
    -- only behind a fault is anything printed that the other run has not printed
    cases hr : (Eval.watched w₀ fuel).body 1 (m.starting cursor) with
    | ok status m₁ =>
      rw [hr] at h
      rw [h.2]
      exact ⟨(kept_starting ho cursor).trans h.1, .inl rfl⟩
    | error f m₁ =>
      rw [hr] at h
      obtain ⟨hk, qs, hqs⟩ := h
      rw [hqs]
      exact ⟨(kept_starting ho cursor).trans hk, .inr ⟨f, qs, rfl, rfl⟩⟩

/-- If nothing is said at faults either, the two runs are the same. -/
theorem runWatched_congr (hw₀ : w₀.Discreet) (hw : w.Discreet) (ha : w₀.Agree w ground)
    (hm : Grounds ground m) (ho : m.thread.mode.owner = none) (text : String) (fuel : Nat) :
    m.runWatched w text fuel = m.runWatched w₀ text fuel := by
  obtain h | ⟨f, qs, hf, h⟩ := (runWatched_agree hw₀ ha hm ho text fuel).2
  · exact h
  · rw [h, hw.afterFault, printing_empty, ← hf]

end Machine

end Rewind
