/-
Values are kept apart.

Whatever programs do, no container is stored twice: not in two variables, attributes, defaults of
parameters, results, slots of gather tasks, tapes or namespaces, and not twice in one of them.  So
values behave as if every assignment made a copy, although containers are changed in place.

* `keeps_watched`, `Session.safe` — evaluation keeps values apart, however it is watched;
* `Machine.storage`, `Machine.Apart` — what is stored, and that nothing is stored twice;
* `place_unique`, `look_of_nodup` — what is at a place of what is stored;
* `duplicateTo_eq_of_nests` — a copy needs no more depth than the value has;
* `containers_apart` — in all runs of a session containers are stored once.
-/
import Rewind.Proofs.Aftermath
import Rewind.Proofs.Housekeeping

namespace Rewind

/-! ### Watched runs -/

section Watches

variable {ε α : Type} [Stops ε] {w₀ w : Watch}

/-- Wherever values are kept apart, both watches say the same, and neither says anything at faults. -/
structure Watch.Concur (w₀ w : Watch) : Prop where
  discreet₀ : w₀.Discreet
  discreet : w.Discreet
  begins : ∀ q (m : Machine) (R : Hand), m.Safe R → w.begins q m = w₀.begins q m

theorem Keeps.telling (hw : w₀.Concur w) (q : Part) {H : Hand} {post : α → Hand}
    {x x' : EStateM ε Machine α} (hx : Keeps H x x' post) :
    Keeps H (w₀.telling q x) (w.telling q x') post := by
  intro m R hm
  rw [hw.discreet₀.telling_run, hw.discreet.telling_run, hw.begins q m _ hm]
  exact hx (m.printing _) R (hm.of_same rfl rfl rfl (fun _ => id) rfl)

theorem Jobs.Keep.watched {j j' : Jobs} (hj : j.Keep j') (hw : w₀.Concur w) :
    (w₀.jobs j).Keep (w.jobs j') :=
  ⟨hj.expression.telling hw _, hj.unary.telling hw _, fun column => (hj.body column).telling hw _,
    fun callee args site => (hj.invoke callee args site).telling hw _⟩

namespace Eval

/-- By induction on the fuel, every part of a run keeps values apart. -/
theorem keeps_watched (hw : w₀.Concur w) (fuel : Nat) :
    (Eval.watched w₀ fuel).Keep (Eval.watched w fuel) := by
  induction fuel with
  | zero =>
    exact ⟨.lift keeps_exhausted, .lift keeps_exhausted, fun _ => keeps_exhausted,
      fun _ _ _ => .lift keeps_exhausted⟩
  | succ fuel ih =>
    have hj := ih.watched hw
    refine ⟨keeps_conditional hj fuel, keeps_unaryExpr hj fuel, fun column => ?_,
      keeps_invokeValue hj fuel⟩
    exact keeps_bodyBy (keeps_statementsBy (fun n => (keeps_execute hj n).telling hw _) column fuel)

end Eval

namespace Machine

variable {m : Machine}

theorem Safe.starting (hm : m.Safe 0) (cursor : Cursor) : (m.starting cursor).Safe 0 :=
  hm.change rfl (add_le_add_left (by
    rw [stock_eq, stock_eq]
    exact add_le_add_right (Multiset.zero_le _) _) 0) rfl (fun r hr => by
      rw [mem_tasks] at hr ⊢
      exact hr.imp_left (absurd · nofun)) rfl

/-- A program that begins in a safe machine ends in one, and is the same run under both watches. -/
theorem Safe.runWatched (hm : m.Safe 0) (hw : w₀.Concur w) (text : String) (fuel : Nat) :
    m.runWatched w text fuel = m.runWatched w₀ text fuel ∧
      (m.runWatched w₀ text fuel).2.Safe 0 := by
  unfold Machine.runWatched runBy
  cases Cursor.ofSource ⟨m.sources, text.toList⟩ with
  | error fault => exact ⟨rfl, hm.of_same rfl rfl rfl (fun _ => id) rfl⟩
  | ok cursor =>
    dsimp only
    have h := (Eval.keeps_watched hw fuel).body 1 _ 0 (hm.starting cursor)
    cases hr : (Eval.watched w₀ fuel).body 1 (m.starting cursor) with
    | ok status m₁ =>
      rw [hr] at h
      rw [h.1]
      exact ⟨rfl, h.2.2.left⟩
    | error f m₁ =>
      rw [hr] at h
      rw [h.1]
      exact ⟨rfl, h.2.2.left⟩

theorem Safe.runSource (hm : m.Safe 0) (text : String) (fuel : Nat) :
    (m.runSource text fuel).2.Safe 0 := by
  have silent : Watch.Concur {} {} := ⟨fun _ _ => rfl, fun _ _ => rfl, fun _ _ _ _ => rfl⟩
  have run := (hm.runWatched silent text fuel).2
  rwa [runWatched_silent] at run

/-- Nothing is stored in the beginning. -/
theorem safe_new (env : Environment) : (Machine.new env).Safe 0 := by
  have empty (v : Value) : (Machine.new env).world.heap.inside v = [] := by
    cases v <;> rfl
  have sound : (Machine.new env).world.heap.Sound := by
    refine ⟨fun v i hi => ?_, fun v => ⟨1, fun i hi => ?_⟩⟩ <;>
    · rw [empty v] at hi
      contradiction
  have opened : (Machine.new env).world.opened = 0 := rfl
  have stock : (Machine.new env).world.stock + ((Machine.new env).stock + 0) = 0 := rfl
  have nobody (r : Ref .coroutine) : (Machine.new env).world.coroutines.get r = default := by
    simp [Machine.new, Arena.get, Arena.get?]
  have none {α : Type} {p : α → Prop} : ∀ a ∈ ([] : List α), p a := List.forall_mem_nil p
  have zero {α : Type} {p : α → Prop} : ∀ a ∈ (0 : Multiset α), p a := none
  refine ⟨⟨⟨?_, none⟩, World.accounts_of_empty nobody rfl _⟩, rfl, none⟩
  rw [opened, stock]
  exact ⟨⟨sound, zero, Multiset.nodup_zero⟩, zero⟩

end Machine

theorem Session.safe {env : Environment} {m : Machine} (h : Session env m) : m.Safe 0 := by
  induction h with
  | new => exact Machine.safe_new env
  | text text fuel _ ih => exact ih.runSource text fuel
  | @file m path fuel _ ih =>
    unfold Machine.runFile
    split
    · exact ih
    · rename_i text _
      have here : ({ m with directory := Path.parent? path } : Machine).Safe 0 :=
        ih.of_same rfl rfl rfl (fun _ => id) rfl
      exact here.runSource text fuel

end Watches

/-! ### What is stored -/

/-- The values of a gather task's slots that have been filled. -/
def CoroutineKind.slotted : CoroutineKind → List Value
  | gather g => g.slots.filterMap (·.map Outcome.carried)
  | _ => []

/-- The values of the outcomes on a tape. -/
def Tape.carried (t : Tape) : List Value := t.entries.toList.map Outcome.carried

/-- The values of a coroutine: its result and its exception, what is in its slots, and what is on its
tape. -/
def Coroutine.storage (c : Coroutine) : Multiset Value :=
  {c.result} + ↑(c.exception.map (·.value)).toList + ↑c.kind.slotted + ↑c.tape.carried

/-- The defaults of a function's parameters. -/
def Function.defaults (f : Function) : List Value :=
  match f.body with
  | .script s => defaultsOf s.params
  | .native _ => []

/-- All that is stored in a machine: in variables and members of blueprints, in attributes of objects,
as defaults of parameters, in coroutines, as namespaces of modules, and on the tapes of the thread that
runs and of those that wait. -/
def Machine.storage (m : Machine) : Multiset Value :=
  m.world.scopes.total (fun s => ↑s.vars.values) + m.world.objects.total (fun o => ↑o.attrs.values) +
    m.world.functions.total (fun f => ↑f.defaults) + m.world.coroutines.total Coroutine.storage +
    ↑(m.modules.map (·.2)) + (↑(m.thread :: m.callers) : Multiset Thread).bind (fun t => ↑t.tape.carried)

/-- Containers are stored once: no container is in two of the values that are stored, or at two places
of one of them.  And all containers nest. -/
structure Machine.Apart (m : Machine) : Prop where
  knows : ∀ v ∈ m.storage, m.world.heap.Knows v
  sound : m.world.heap.Sound
  once : (m.world.heap.forest m.storage).Nodup

theorem Arena.total_mono {k : CellKind} {α β : Type} {f g : α → Multiset β} (h : ∀ x, f x ≤ g x)
    (a : Arena k α) : a.total f ≤ a.total g := by
  unfold Arena.total
  generalize (↑a.cells.toList : Multiset α) = cells
  induction cells using Multiset.induction with
  | empty => exact le_rfl
  | cons x cells ih =>
    rw [Multiset.cons_bind, Multiset.cons_bind]
    exact add_le_add (h x) ih

theorem Hand.own_bind {α : Type} (s : Multiset α) (f : α → Hand) :
    Hand.own (s.bind f) = s.bind fun x => (f x).own := Multiset.bind_assoc

theorem Hand.own_total {k : CellKind} {α : Type} (f : α → Hand) (a : Arena k α) :
    Hand.own (a.total f) = a.total fun x => (f x).own := Hand.own_bind _ f

theorem CoroutineKind.slotted_le (kind : CoroutineKind) : (↑kind.slotted : Multiset Value) ≤ kind.hand.own := by
  cases kind with
  | gather g =>
    refine le_of_eq ?_
    show _ = Hand.own ((↑g.slots : Multiset (Option Outcome)).bind _)
    rw [Hand.own_bind]
    show (↑(g.slots.filterMap (·.map Outcome.carried)) : Multiset Value) = _
    induction g.slots with
    | nil => rfl
    | cons slot slots ih =>
      rw [← Multiset.cons_coe, Multiset.cons_bind, ← ih]
      cases slot with
      | none => exact (zero_add _).symm
      | some o => rfl
  | _ => exact Multiset.zero_le _

theorem Coroutine.storage_le (c : Coroutine) : c.storage ≤ c.hand.own := by
  have slots := c.kind.slotted_le
  simp only [Coroutine.hand, Hand.own_add, Hand.own_singleton, Grip.own_owned, Hand.own_ofValues,
    Tape.hand, Coroutine.storage, Tape.carried]
  refine add_le_add_left ((add_le_add_right slots _).trans (Multiset.le_add_right _ _)) _

theorem Function.defaults_le (f : Function) : (↑f.defaults : Multiset Value) ≤ f.hand.own := by
  unfold Function.defaults Function.hand
  cases f.body with
  | script s => exact (Hand.own_ofValues _).ge
  | native n => exact Multiset.zero_le _

namespace Machine

variable {m : Machine} {R : Hand}

theorem storage_le (m : Machine) :
    m.storage ≤ m.world.opened + (m.world.stock + (m.stock + R)).own := by
  have functions := Arena.total_mono Function.defaults_le m.world.functions
  have coroutines := Arena.total_mono Coroutine.storage_le m.world.coroutines
  have world : m.world.functions.total (fun f => (↑f.defaults : Multiset Value)) +
      m.world.coroutines.total Coroutine.storage ≤ m.world.stock.own := by
    rw [World.stock, Hand.own_add, Hand.own_add, Hand.own_total, Hand.own_total, Hand.own_total]
    exact add_le_add (functions.trans (Multiset.le_add_right _ _)) coroutines
  have machine : (↑(m.modules.map (·.2)) : Multiset Value) +
      (↑(m.thread :: m.callers) : Multiset Thread).bind (fun t => ↑t.tape.carried) ≤ m.stock.own := by
    rw [← Multiset.cons_coe, Multiset.cons_bind, stock, Hand.own_add, Hand.own_add, Hand.own_ofValues,
      Hand.own_bind, Thread.hand, Hand.own_add, Hand.own_add]
    simp only [Tape.hand, Hand.own_ofValues]
    rw [add_comm (Multiset.ofList m.thread.tape.carried), ← add_assoc]
    exact add_le_add_right ((Multiset.le_add_right _ _).trans (Multiset.le_add_right _ _)) _
  have parts := add_le_add_right (add_le_add world machine) m.world.opened
  rw [Hand.own_add, Hand.own_add]
  refine le_trans (le_of_eq ?_) (parts.trans ?_)
  · simp only [storage, World.opened, add_assoc]
  · exact add_le_add_right (add_le_add_right (Multiset.le_add_right _ _) _) _

/-- In a machine that is safe whatever is held, containers are stored once. -/
theorem Safe.apart (hm : m.Safe R) : m.Apart := by
  have guards := hm.world.holds.grants.guards
  have stored := m.storage_le (R := R)
  exact ⟨fun v hv => guards.knows v (Multiset.mem_of_le stored hv), guards.sound,
    Multiset.nodup_of_le (Heap.forest_mono stored) guards.nodup⟩

end Machine

namespace Heap

variable {h h' : Heap} {u v : Value} {vs : List Value} {c : Cell}

/-! ### Places -/

/-- What is at a place in some values is in the tree of the one that the place begins with. -/
theorem mem_tree_of_look (hs : h.Sound) {i : Nat} {place : List Nat}
    (hv : h.look vs (i :: place) = some v) (hc : v.box? = some c) :
    ∃ root, vs[i]? = some root ∧ c ∈ h.tree root := by
  induction place generalizing vs i with
  | nil => exact ⟨v, hv, mem_tree_of_box? hs hc⟩
  | cons j place ih =>
    obtain ⟨root, hr, hv⟩ := Option.bind_eq_some_iff.1 hv
    obtain ⟨item, hi, hm⟩ := ih hv
    exact ⟨root, hr, Multiset.mem_of_le (tree_le_of_mem_inside hs (List.mem_of_getElem? hi)) hm⟩

/-- Values at different places of a list are two of them. -/
theorem pair_le_of_getElem? {i j : Nat} (hi : vs[i]? = some u) (hj : vs[j]? = some v) (hij : i ≠ j) :
    u ::ₘ {v} ≤ (↑vs : Multiset Value) := by
  induction vs generalizing i j with
  | nil => contradiction
  | cons w vs ih =>
    rw [← Multiset.cons_coe]
    cases i with
    | zero =>
      obtain ⟨j, rfl⟩ := Nat.exists_eq_succ_of_ne_zero hij.symm
      obtain rfl : w = u := Option.some.inj hi
      exact Multiset.cons_le_cons _ (Multiset.singleton_le.2 (List.mem_of_getElem? hj))
    | succ i =>
      cases j with
      | zero =>
        obtain rfl : w = v := Option.some.inj hj
        rw [← Multiset.cons_zero, Multiset.cons_swap]
        exact Multiset.cons_le_cons _ (Multiset.singleton_le.2 (List.mem_of_getElem? hi))
      | succ j => exact (ih hi hj (by omega)).trans (Multiset.le_cons_self _ _)

/-- If no cell occurs twice in the trees of some values, none is in two of them. -/
theorem not_mem_two_of_nodup {vs : Multiset Value} (hn : (h.forest vs).Nodup) (hle : u ::ₘ {v} ≤ vs)
    (hu : c ∈ h.tree u) : c ∉ h.tree v := by
  have two := Multiset.nodup_of_le (forest_mono hle) hn
  rw [forest_cons, forest_singleton, Multiset.nodup_add] at two
  exact Multiset.disjoint_left.1 two.2.2 hu

/-- If no cell occurs twice in the trees of some values, no container is at two places in them. -/
theorem place_unique (hs : h.Sound) (hn : (h.forest ↑vs).Nodup) {p q : List Nat}
    (hp : h.look vs p = some u) (hq : h.look vs q = some v) (hu : u.box? = some c)
    (hv : v.box? = some c) : p = q := by
  induction p generalizing vs q with
  | nil => contradiction
  | cons i p ih =>
    cases q with
    | nil => contradiction
    | cons j q =>
      obtain ⟨x, hx, hcx⟩ := mem_tree_of_look hs hp hu
      obtain ⟨y, hy, hcy⟩ := mem_tree_of_look hs hq hv
      have same : i = j := by
        by_contra hij
        exact not_mem_two_of_nodup hn (pair_le_of_getElem? hx hy hij) hcx hcy
      subst same
      obtain rfl : x = y := Option.some.inj (hx.symm.trans hy)
      have inner : (h.forest ↑(h.inside x)).Nodup := by
        have root := Multiset.nodup_of_le (tree_le_forest (List.mem_of_getElem? hx)) hn
        rw [tree_eq hs] at root
        exact Multiset.nodup_of_le (Multiset.le_add_left _ _) root
      -- the container is the root of the tree, where nothing below is, or both places go on
      have below {w : Value} {k : Nat} {place : List Nat} (hw : h.look (h.inside x) (k :: place) = some w)
          (hc : w.box? = some c) (hroot : x.box? = some c) : False := by
        obtain ⟨item, hi, hm⟩ := mem_tree_of_look hs hw hc
        exact not_mem_tree_of_mem_inside hs hroot (List.mem_of_getElem? hi) hm
      cases p with
      | nil =>
        obtain rfl : x = u := Option.some.inj (hx.symm.trans hp)
        cases q with
        | nil => rfl
        | cons k q =>
          rw [look, hx] at hq
          exact (below hq hv hu).elim
      | cons k p =>
        rw [look, hx] at hp
        cases q with
        | nil =>
          obtain rfl : x = v := Option.some.inj (hx.symm.trans hq)
          exact (below hp hu hv).elim
        | cons l q =>
          rw [look, hx] at hq
          rw [ih inner hp hq]

section Changes

variable (hs : h.Sound) (hsame : ∀ x, x ≠ u → h'.contents? x = h.contents? x) (hu : u.box? = some c)

include hs hsame hu

/-- A change of a container leaves alone what it is not in. -/
theorem contents?_of_not_mem {x : Value} (hx : c ∉ h.tree x) : h'.contents? x = h.contents? x := by
  refine hsame x ?_
  rintro rfl
  exact hx (mem_tree_of_box? hs hu)

theorem look_of_not_mem {i : Nat} (hc : ∀ x ∈ vs[i]?, c ∉ h.tree x) (place : List Nat) :
    h'.look vs (i :: place) = h.look vs (i :: place) ∧
      ∀ x ∈ h.look vs (i :: place), h'.contents? x = h.contents? x := by
  induction place generalizing vs i with
  | nil => exact ⟨rfl, fun x hx => contents?_of_not_mem hs hsame hu (hc x hx)⟩
  | cons j place ih =>
    simp only [look]
    cases hx : vs[i]? with
    | none => exact ⟨rfl, nofun⟩
    | some x =>
      have outside := hc x hx
      have inner (y : Value) (hy : y ∈ (h.inside x)[j]?) : c ∉ h.tree y := fun hm =>
        outside (Multiset.mem_of_le (tree_le_of_mem_inside hs (List.mem_of_getElem? hy)) hm)
      have kept : h'.inside x = h.inside x := by
        rw [inside, inside, contents?_of_not_mem hs hsame hu outside]
      simp only [Option.bind_some, kept]
      exact ih inner

end Changes

/-- If no cell occurs twice in the trees of some values, a change of a container in one of them leaves
alone all that is in the others. -/
theorem look_of_nodup (hs : h.Sound) (hn : (h.forest ↑vs).Nodup) {i j : Nat} (hij : i ≠ j)
    {p : List Nat} (hl : h.look vs (i :: p) = some u) (hu : u.box? = some c)
    (hsame : ∀ x, x ≠ u → h'.contents? x = h.contents? x) (q : List Nat) :
    h'.look vs (j :: q) = h.look vs (j :: q) ∧
      ∀ x ∈ h.look vs (j :: q), h'.contents? x = h.contents? x := by
  obtain ⟨x, hx, hcx⟩ := mem_tree_of_look hs hl hu
  refine look_of_not_mem hs hsame hu (fun y hy hcy => ?_) q
  exact not_mem_two_of_nodup hn (pair_le_of_getElem? hx hy hij) hcx hcy

/-! ### Nesting -/

theorem Within.tree_le (hs : h.Sound) (hu : h.Within v u) : h.tree u ≤ h.tree v := by
  induction hu with
  | self => exact le_rfl
  | inside _ hi ih => exact (tree_le_of_mem_inside hs hi).trans ih

/-- No container is in what it contains. -/
theorem not_within_of_mem_inside (hs : h.Sound) (hi : u ∈ h.inside v) : ¬ h.Within u v := by
  intro hw
  cases hv : v.box? with
  | none =>
    rw [inside_of_box? hv] at hi
    contradiction
  | some c =>
    exact not_mem_tree_of_mem_inside hs hv hi
      (Multiset.mem_of_le (hw.tree_le hs) (mem_tree_of_box? hs hv))

/-! ### Copies -/

/-- Values are copied in the same way if each of them is. -/
theorem mapM_congr {d : Nat} {f g : Value → StateM Heap Value} {l : List Value}
    (hf : ∀ (v : Value) (h : Heap), h.Sound → h.Knows v → h.Nests d v →
      f v h = g v h ∧ h.Fresh (f v h).2 {(f v h).1})
    (hs : h.Sound) (hk : ∀ v ∈ l, h.Knows v) (hn : ∀ v ∈ l, h.Nests d v) :
    l.mapM f h = l.mapM g h := by
  induction l generalizing h with
  | nil => rfl
  | cons v l ih =>
    obtain ⟨hkv, hkl⟩ := List.forall_mem_cons.1 hk
    obtain ⟨hnv, hnl⟩ := List.forall_mem_cons.1 hn
    obtain ⟨same, first⟩ := hf v h hs hkv hnv
    have run (k : Value → StateM Heap Value) : (v :: l).mapM k h =
        ((k v h).1 :: (l.mapM k (k v h).2).1, (l.mapM k (k v h).2).2) := by
      rw [List.mapM_cons]
      rfl
    rw [run f, run g, ← same, ih first.sound (fun w hw => first.grown.knows (hkl w hw))
      fun w hw => first.grown.nests hs (hkl w hw) (hnl w hw)]

/-- A copy needs no more depth than the value has. -/
theorem duplicateTo_eq_of_nests {n : Nat} (hs : h.Sound) (hk : h.Knows v) (hn : h.Nests depth v)
    (hd : depth ≤ n) : duplicateTo n v h = duplicateTo depth v h := by
  induction depth generalizing n v h with
  | zero => rw [duplicateTo_of_none (contents?_of_box? hn), duplicateTo_of_none (contents?_of_box? hn)]
  | succ depth ih =>
    obtain ⟨n, rfl⟩ : ∃ k, n = k + 1 := ⟨n - 1, by omega⟩
    -- what is inside nests one level less deep
    have below {items : List Value} (hi : h.inside v = items) :
        items.mapM (duplicateTo n) h = items.mapM (duplicateTo depth) h :=
      mapM_congr (d := depth)
        (fun u h hs hk hu => ⟨ih hs hk hu (by omega), fresh_duplicateTo hs hk (hu.mono (by omega))⟩) hs (fun i hm => hs.knows v i (hi ▸ hm)) fun i hm => hn i (hi ▸ hm)
    cases hc : h.contents? v with
    | none => rw [duplicateTo_of_none hc, duplicateTo_of_none hc]
    | some c =>
      cases v with
      | array r =>
        obtain ⟨items, hr, rfl⟩ := Option.map_eq_some_iff.1 hc
        rw [duplicateTo_array hr, duplicateTo_array hr, below (by simp [inside, hc])]
      | tuple r =>
        obtain ⟨items, hr, rfl⟩ := Option.map_eq_some_iff.1 hc
        rw [duplicateTo_tuple hr, duplicateTo_tuple hr, below (by simp [inside, hc])]
      | dict r =>
        obtain ⟨entries, hr, rfl⟩ := Option.map_eq_some_iff.1 hc
        rw [duplicateTo_dict hr, duplicateTo_dict hr, below (by simp [inside, hc])]
      | _ => contradiction

/-- Any bound on the depth of a copy that is not too small gives the same copy. -/
theorem duplicateTo_eq (hs : h.Sound) (hk : h.Knows v) {n : Nat} (hn : h.size < n) :
    duplicateTo n v h = duplicate v h := duplicateTo_eq_of_nests hs hk (nests_size (hs.nests v)) hn

end Heap

/-! ### All runs -/

/-- In all runs of a session, containers are stored once wherever a statement begins: a watch that is
silent there is silent throughout.  And where they are stored once, no container is at two places in what
is stored, none is in what it contains, copies need no bound on their depth, and a change of a container
is not seen from anywhere else. -/
theorem containers_apart {env : Environment} {m : Machine} (hm : Session env m) (text : String)
    (fuel : Nat) :
    (m.runSource text fuel).2.Apart ∧
    (∀ w : Watch, w.Discreet → (∀ q m', m'.Apart → w.begins q m' = "") →
      m.runWatched w text fuel = m.runSource text fuel) ∧
    ∀ (m' : Machine) (h : Heap) (roots : List Value), m'.Apart → m'.world.heap = h →
      m'.storage = ↑roots →
      (∀ p q u v (c : Cell), h.look roots p = some u → h.look roots q = some v → u.box? = some c →
        v.box? = some c → p = q) ∧
      (∀ u v, u ∈ h.inside v → ¬ h.Within u v) ∧
      (∀ v ∈ roots, ∀ n > h.size, Heap.duplicateTo n v h = Heap.duplicate v h) ∧
      ∀ i j p u (c : Cell) (h' : Heap), i ≠ j → h.look roots (i :: p) = some u → u.box? = some c →
        (∀ x, x ≠ u → h'.contents? x = h.contents? x) →
          ∀ q, h'.look roots (j :: q) = h.look roots (j :: q) ∧
            ∀ x ∈ h.look roots (j :: q), h'.contents? x = h.contents? x := by
  refine ⟨(hm.safe.runSource text fuel).apart, fun w hw silent => ?_, ?_⟩
  · have concur : Watch.Concur {} w :=
      ⟨fun _ _ => rfl, hw, fun q m' R safe => silent q m' safe.apart⟩
    rw [(hm.safe.runWatched concur text fuel).1, Machine.runWatched_silent]
  · rintro m' _ roots ⟨knows, sound, once⟩ rfl all
    -- nothing but the distinctness of the roots' containers is needed from here on
    rw [all] at knows once
    exact ⟨fun p q u v c hp hq hu hv => Heap.place_unique sound once hp hq hu hv,
      fun u v hi => Heap.not_within_of_mem_inside sound hi,
      fun v hv n hn => Heap.duplicateTo_eq sound (knows v (Multiset.mem_coe.2 hv)) hn,
      fun i j p u c h' hij hl hu hsame => Heap.look_of_nodup sound once hij hl hu hsame⟩

/-- A watch that says where a container is stored twice. -/
def sharing : Watch where
  begins _ m := if (m.world.heap.forest m.storage).Nodup then "" else "shared\n"

/-- A program that changes an array inside another one, of which it has a copy. -/
def changesCopy : String :=
  "let: a = [1, [2]]\nlet: b = [a, a]\nlet: b[0][1][0] = 5\nshow(b)\nshow(a)\n"

theorem containers_apart_of_changesCopy :
    Session {} (Machine.new {}) ∧
    ((Machine.new {}).runSource changesCopy 12).2.Apart ∧
    (Machine.new {}).runWatched sharing changesCopy 12 =
      (Machine.new {}).runSource changesCopy 12 ∧
    account ((Machine.new {}).runSource changesCopy 12) =
      ("[[1, [5]], [1, [2]]]\n[1, [2]]\n", none) :=
  ⟨.new, (containers_apart .new changesCopy 12).1,
    (containers_apart .new changesCopy 12).2.1 sharing (fun _ _ => rfl) fun _ _ h => if_pos h.once,
    by decide +kernel⟩

end Rewind
