/-
The arguments of a call find their parameters.

Arguments are bound in three passes over one scope: those by position, those by name, and copies of
defaults for what is left.  Every pass only adds bindings of new names behind the old ones, so the
scope of the callee is known binding by binding, and nothing but that scope and the heap changes.

* `Fits` — the arguments fit the parameters;
* `Bindings`, `Defaults` — what the scope of the callee then holds;
* `bindArguments_of_fits`, `bindArguments_of_not_fits` — the two ways of binding arguments;
* `argument_binding` — the call of a function written in the program, with any arguments.
-/
import Rewind.Proofs.Calls
import Rewind.Proofs.Entries
import Rewind.Proofs.Footprint
import Rewind.Proofs.Turns

namespace Rewind

/-! ### A scope that is being filled -/

/-- The scope `r` is there and holds these bindings, in this order. -/
structure Bindings (r : Ref .scope) (w : World) (bound : List (String × Value)) : Prop where
  made : r.index < w.scopes.size
  indexed : (w.scopes.get r).vars.Indexed
  entries : w.scopes.entries r = bound

/-- Only the bindings of the scope `r` and the heap differ, and what was in the heap still is. -/
structure Fills (r : Ref .scope) (w w' : World) : Prop where
  rest : w' = { w with scopes := w'.scopes, heap := w'.heap }
  size : w'.scopes.size = w.scopes.size
  others : ∀ s, s ≠ r → w'.scopes.get? s = w.scopes.get? s
  place : w'.scopes.get r = { w.scopes.get r with vars := (w'.scopes.get r).vars }
  grown : w.heap.Extends w'.heap

namespace Fills

variable {r : Ref .scope} {w w₁ w₂ : World}

theorem refl (r : Ref .scope) (w : World) : Fills r w w := ⟨rfl, rfl, fun _ _ => rfl, rfl, .refl _⟩

theorem trans (h : Fills r w w₁) (h' : Fills r w₁ w₂) : Fills r w w₂ :=
  ⟨by rw [h'.rest, h.rest], h'.size.trans h.size, fun s hs => (h'.others s hs).trans (h.others s hs),
    by rw [h'.place, h.place], h.grown.trans h'.grown⟩

theorem change (f : Dict Value → Dict Value) (hr : r.index < w.scopes.size) :
    Fills r w (w.onScopes (·.modify r fun s => { s with vars := f s.vars })) := by
  refine ⟨rfl, Arena.size_modify _ _ _, fun s hs => ?_, ?_, .refl _⟩
  · exact (Arena.get?_modify _ _ _ _).trans (if_neg hs)
  · obtain ⟨s, hs⟩ : ∃ s, w.scopes.get? r = some s := ⟨_, Array.getElem?_eq_getElem hr⟩
    simp [World.onScopes, Arena.get, Arena.get?_modify, hs]

theorem define (name : String) (v : Value) (hr : r.index < w.scopes.size) :
    Fills r w (w.onScopes (·.define r name v)) :=
  .change (·.set name v) hr

theorem clear (hr : r.index < w.scopes.size) : Fills r w (w.onScopes (·.clear r)) :=
  .change (·.drain.2) hr

theorem copy (r : Ref .scope) (v : Value) :
    Fills r w { w with heap := (Heap.duplicate v w.heap).2 } :=
  ⟨rfl, rfl, fun _ _ => rfl, rfl, Heap.extends_duplicate v w.heap⟩

end Fills

/-- Binds names in the scope `r`, one after the other. -/
def World.defineAll (w : World) (r : Ref .scope) (new : List (String × Value)) : World :=
  w.onScopes fun s => new.foldl (fun s e => s.define r e.1 e.2) s

namespace Bindings

variable {r : Ref .scope} {w : World} {bound : List (String × Value)} (h : Bindings r w bound)

include h

theorem keys : (w.scopes.get r).vars.keys = bound.map (·.1) := by
  rw [← h.entries]
  rfl

theorem hasLocal_iff {name : String} :
    w.scopes.hasLocal r name = true ↔ name ∈ bound.map (·.1) := by
  rw [← h.keys]
  exact h.indexed.contains_iff

theorem getLocal?_eq_some {name : String} {v : Value} :
    w.scopes.getLocal? r name = some v ↔ (name, v) ∈ bound := by
  rw [← h.entries]
  exact h.indexed.get?_eq_some

theorem define {name : String} (v : Value) (hn : name ∉ bound.map (·.1)) :
    Bindings r (w.onScopes (·.define r name v)) (bound ++ [(name, v)]) := by
  rw [← h.keys] at hn
  obtain ⟨s, hs⟩ : ∃ s, w.scopes.get? r = some s := ⟨_, Array.getElem?_eq_getElem h.made⟩
  have got : (w.onScopes (·.define r name v)).scopes.get r =
      { w.scopes.get r with vars := (w.scopes.get r).vars.set name v } := by
    simp [World.onScopes, Scopes.define, Arena.get, Arena.get?_modify, hs]
  refine ⟨h.made.trans_eq (Arena.size_modify _ _ _).symm, ?_, ?_⟩
  · rw [got]
    exact h.indexed.set hn
  · show ((w.onScopes (·.define r name v)).scopes.get r).vars.toList = _
    rw [got, h.indexed.toList_set hn, ← h.entries]
    rfl

/-- Bindings of names that are all new. -/
theorem define_all (new : List (String × Value)) (hn : ((bound ++ new).map (·.1)).Nodup) :
    Bindings r (w.defineAll r new) (bound ++ new) ∧ Fills r w (w.defineAll r new) := by
  induction new generalizing w bound with
  | nil => exact ⟨by rwa [List.append_nil], .refl r w⟩
  | cons e new ih =>
    obtain ⟨name, v⟩ := e
    have hnew : name ∉ bound.map (·.1) := fun hm => by
      rw [List.map_append, List.nodup_append'] at hn
      exact List.disjoint_left.1 hn.2.2 hm (List.mem_cons_self ..)
    have step := h.define v hnew
    obtain ⟨hb, hf⟩ := ih step (by simpa using hn)
    rw [List.append_assoc] at hb
    exact ⟨hb, (Fills.define name v h.made).trans hf⟩

theorem copy (v : Value) : Bindings r { w with heap := (Heap.duplicate v w.heap).2 } bound :=
  ⟨h.made, h.indexed, h.entries⟩

end Bindings

/-! ### Arguments that fit -/

namespace CallArgs

/-- The parameters that have no argument. -/
def missing (args : CallArgs) (params : List Param) : List Param :=
  (params.drop args.positional.length).filter fun p => p.name ∉ args.named.map (·.1)

/-- There are no more arguments by position than parameters, every argument by name is for a
parameter of its own behind those, and what is left has a default. -/
structure Fits (args : CallArgs) (params : List Param) : Prop where
  positional : args.positional.length ≤ params.length
  named : ∀ a ∈ args.named, a.1 ∈ (params.drop args.positional.length).map (·.name)
  once : (args.named.map (·.1)).Nodup
  complete : ∀ p ∈ args.missing params, p.default.isSome

/-- The receiver as `self`, and the arguments by position. -/
def placed (args : CallArgs) (params : List Param) (receiver : Option Value) :
    List (String × Value) :=
  receiver.toList.map ("self", ·) ++ (params.map (·.name)).zip args.positional

/-- The receiver as `self`, the arguments by position, and those by name. -/
def given (args : CallArgs) (params : List Param) (receiver : Option Value) :
    List (String × Value) :=
  args.placed params receiver ++ args.named.map fun a => (a.1, a.2.1)

end CallArgs

/-- Copies of the defaults of some parameters: each holds the same as its default, and in a sound
heap they have all of their containers to themselves. -/
structure Defaults (h h' : Heap) (params : List Param) (copies : List Value) : Prop where
  alike : List.Forall₂ (fun p v => ∃ d, p.default = some d ∧ h'.Mirrors d v) params copies
  fresh : h.Sound → (∀ p ∈ params, ∀ d, p.default = some d → h.Knows d) → h.Fresh h' ↑copies

namespace Defaults

variable {h h' : Heap} {params : List Param} {copies : List Value}

theorem nil (h : Heap) : Defaults h h [] [] := ⟨.nil, fun hs _ => .flat hs (by simp)⟩

theorem cons {p : Param} {d : Value} (hd : p.default = some d)
    (hc : Defaults (Heap.duplicate d h).2 h' params copies)
    (he : (Heap.duplicate d h).2.Extends h') :
    Defaults h h' (p :: params) ((Heap.duplicate d h).1 :: copies) := by
  refine ⟨.cons ⟨d, hd, (Heap.mirrors_duplicate d h).mono he⟩ hc.alike, fun hs hk => ?_⟩
  obtain ⟨hkp, hk⟩ := List.forall_mem_cons.1 hk
  have first := Heap.fresh_duplicate hs (hkp d hd)
  have others := hc.fresh first.sound fun q hq d hd => first.grown.knows (hk q hq d hd)
  exact first.append others

end Defaults

namespace Eval

variable {r : Ref .scope} {w : World} {bound : List (String × Value)}

/-! ### By name -/

/-- The name is one of a parameter behind the first `given` ones, and nothing is bound to it. -/
def Free (params : List Param) (given : Nat) (bound : List (String × Value)) (name : String) :
    Prop :=
  (∃ place, params.findIdx? (·.name == name) = some place ∧ given ≤ place) ∧
    name ∉ bound.map (·.1)

/-- The names of all arguments are free, and different. -/
def AllFree (params : List Param) (given : Nat) (bound : List (String × Value))
    (args : List (String × Value × Token)) : Prop :=
  (args.map (·.1)).Nodup ∧ ∀ a ∈ args, Free params given bound a.1

theorem allFree_cons {params : List Param} {given : Nat} {a : String × Value × Token}
    {args : List (String × Value × Token)} :
    AllFree params given bound (a :: args) ↔
      Free params given bound a.1 ∧ AllFree params given (bound ++ [(a.1, a.2.1)]) args := by
  simp only [AllFree, Free, List.map_cons, List.nodup_cons, List.forall_mem_cons, List.map_append,
    List.mem_append, List.map_nil, List.mem_singleton, not_or, List.mem_map]
  constructor
  · rintro ⟨⟨hn, hd⟩, ha, hf⟩
    exact ⟨ha, hd, fun b hb => ⟨(hf b hb).1, (hf b hb).2, fun he => hn ⟨b, hb, he⟩⟩⟩
  · rintro ⟨ha, hd, hf⟩
    refine ⟨⟨?_, hd⟩, ha, fun b hb => ⟨(hf b hb).1, (hf b hb).2.1⟩⟩
    rintro ⟨b, hb, he⟩
    exact (hf b hb).2.2 he

theorem bindNamed_cons_of_free (function : String) {params : List Param} {given : Nat}
    {a : String × Value × Token} (args : List (String × Value × Token)) (h : Bindings r w bound)
    (hf : Free params given bound a.1) :
    bindNamed function params given r (a :: args) w =
      bindNamed function params given r args (w.onScopes (·.define r a.1 a.2.1)) := by
  obtain ⟨name, v, site⟩ := a
  obtain ⟨⟨place, hp, hg⟩, hn⟩ := hf
  have local_eq : w.scopes.hasLocal r name = false := by
    rw [← Bool.not_eq_true, h.hasLocal_iff]
    exact hn
  simp only [bindNamed, hp]
  show (if (decide (place < given) || w.scopes.hasLocal r name) = true then _ else _ :
    EStateM Objection World Unit) w = _
  rw [local_eq, if_neg (by simpa using hg)]
  rfl

theorem bindNamed_cons_of_not_free (function : String) {params : List Param} {given : Nat}
    {a : String × Value × Token} (args : List (String × Value × Token)) (h : Bindings r w bound)
    (hf : ¬ Free params given bound a.1) :
    ∃ e, bindNamed function params given r (a :: args) w = .error e w := by
  obtain ⟨name, v, site⟩ := a
  cases hp : params.findIdx? (·.name == name) with
  | none => exact ⟨(.unknownParameter function name, site), by simp only [bindNamed, hp]; rfl⟩
  | some place =>
    refine ⟨(.repeatedArgument name function, site), ?_⟩
    simp only [bindNamed, hp]
    show (if (decide (place < given) || w.scopes.hasLocal r name) = true then _ else _ :
      EStateM Objection World Unit) w = _
    rw [if_pos ?_]
    · rfl
    · rw [Bool.or_eq_true, decide_eq_true_iff, h.hasLocal_iff, or_iff_not_imp_left, Nat.not_lt]
      intro hg
      by_contra hn
      exact hf ⟨⟨place, hp, hg⟩, hn⟩

/-- Arguments by name that are all free are bound one behind the other. -/
theorem bindNamed_of_allFree (function : String) {params : List Param} {given : Nat}
    {args : List (String × Value × Token)} (h : Bindings r w bound)
    (hf : AllFree params given bound args) :
    ∃ w', bindNamed function params given r args w = .ok () w' ∧ Fills r w w' ∧
      w'.heap = w.heap ∧ Bindings r w' (bound ++ args.map fun a => (a.1, a.2.1)) := by
  induction args generalizing w bound with
  | nil => exact ⟨w, rfl, .refl r w, rfl, by simpa using h⟩
  | cons a args ih =>
    obtain ⟨ha, hf⟩ := allFree_cons.1 hf
    obtain ⟨w', hr, hfill, hheap, hb⟩ := ih (h.define a.2.1 ha.2) hf
    refine ⟨w', ?_, (Fills.define _ _ h.made).trans hfill, hheap, ?_⟩
    · rw [bindNamed_cons_of_free function args h ha, hr]
    · rwa [List.append_assoc] at hb

theorem bindNamed_of_not_allFree (function : String) {params : List Param} {given : Nat}
    {args : List (String × Value × Token)} (h : Bindings r w bound)
    (hf : ¬ AllFree params given bound args) :
    ∃ e w', bindNamed function params given r args w = .error e w' ∧ Fills r w w' := by
  induction args generalizing w bound with
  | nil => exact absurd ⟨.nil, by simp⟩ hf
  | cons a args ih =>
    by_cases ha : Free params given bound a.1
    · have hrest := fun hr => hf (allFree_cons.2 ⟨ha, hr⟩)
      obtain ⟨e, w', hr, hfill⟩ := ih (h.define a.2.1 ha.2) hrest
      refine ⟨e, w', ?_, (Fills.define _ _ h.made).trans hfill⟩
      rw [bindNamed_cons_of_free function args h ha, hr]
    · obtain ⟨e, hr⟩ := bindNamed_cons_of_not_free function args h ha
      exact ⟨e, w, hr, .refl r w⟩

/-! ### Defaults -/

/-- The parameters to which nothing is bound. -/
def unbound (bound : List (String × Value)) (params : List Param) : List Param :=
  params.filter fun p => p.name ∉ bound.map (·.1)

theorem unbound_cons_of_mem {p : Param} (params : List Param) (hp : p.name ∈ bound.map (·.1)) :
    unbound bound (p :: params) = unbound bound params := by
  simp only [unbound, List.filter_cons, hp, not_true_eq_false, decide_false, if_false,
    Bool.false_eq_true]

theorem unbound_cons_of_not_mem {p : Param} (params : List Param)
    (hp : p.name ∉ bound.map (·.1)) :
    unbound bound (p :: params) = p :: unbound bound params := by
  simp only [unbound, List.filter_cons, hp, not_false_eq_true, decide_true, if_true]

theorem unbound_append (bound : List (String × Value)) {params : List Param} {name : String}
    (v : Value) (hn : name ∉ params.map (·.name)) :
    unbound (bound ++ [(name, v)]) params = unbound bound params := by
  refine List.filter_congr fun p hp => ?_
  have hne : p.name ≠ name := fun he => hn (he ▸ List.mem_map_of_mem hp)
  simp [hne]

theorem bindDefaults_cons (function : String) (site : Token) (p : Param) (params : List Param)
    (h : Bindings r w bound) :
    bindDefaults function r site (p :: params) w =
      if p.name ∈ bound.map (·.1) then bindDefaults function r site params w
      else match p.default with
        | none => .error (.missingArgument p.name function, site) w
        | some d => bindDefaults function r site params
          (World.onScopes { w with heap := (Heap.duplicate d w.heap).2 }
            (·.define r p.name (Heap.duplicate d w.heap).1)) := by
  simp only [bindDefaults]
  show (if (!w.scopes.hasLocal r p.name) = true then _ else _ : EStateM Objection World Unit) w = _
  by_cases hp : p.name ∈ bound.map (·.1)
  · rw [if_pos hp, h.hasLocal_iff.2 hp, if_neg (by simp)]
  · have local_eq : w.scopes.hasLocal r p.name = false := by
      rw [← Bool.not_eq_true, h.hasLocal_iff]
      exact hp
    rw [if_neg hp, local_eq, if_pos (by simp)]
    cases p.default with
    | none => rfl
    | some d => rfl

/-- If all parameters that are not bound have defaults, copies of these are bound. -/
theorem bindDefaults_of_complete (function : String) (site : Token) {params : List Param}
    (h : Bindings r w bound) (hn : (params.map (·.name)).Nodup)
    (hc : ∀ p ∈ unbound bound params, p.default.isSome) :
    ∃ w' copies, bindDefaults function r site params w = .ok () w' ∧ Fills r w w' ∧
      Bindings r w' (bound ++ ((unbound bound params).map (·.name)).zip copies) ∧
      Defaults w.heap w'.heap (unbound bound params) copies := by
  induction params generalizing w bound with
  | nil => exact ⟨w, [], rfl, .refl r w, by simpa [unbound] using h, .nil w.heap⟩
  | cons p params ih =>
    obtain ⟨hp, hn⟩ := List.nodup_cons.1 hn
    rw [bindDefaults_cons function site p params h]
    by_cases hb : p.name ∈ bound.map (·.1)
    · rw [unbound_cons_of_mem params hb] at hc ⊢
      rw [if_pos hb]
      exact ih h hn hc
    · rw [unbound_cons_of_not_mem params hb] at hc ⊢
      obtain ⟨d, hd⟩ := Option.isSome_iff_exists.1 (hc p (List.mem_cons_self ..))
      -- what is bound is a copy of the default, which is left to the next call as it is
      rw [if_neg hb, hd]
      have next := (h.copy d).define (Heap.duplicate d w.heap).1 hb
      have same := unbound_append bound (Heap.duplicate d w.heap).1 hp
      obtain ⟨w', copies, hr, hf, hbound, hcopies⟩ := ih next hn
        (same ▸ fun q hq => hc q (List.mem_cons_of_mem p hq))
      rw [same] at hbound hcopies
      refine ⟨w', (Heap.duplicate d w.heap).1 :: copies, hr, ?_, ?_, .cons hd hcopies hf.grown⟩
      · exact (Fills.copy r d).trans ((Fills.define _ _ (h.copy d).made).trans hf)
      · rwa [List.append_assoc] at hbound

theorem bindDefaults_of_not_complete (function : String) (site : Token) {params : List Param}
    (h : Bindings r w bound) (hn : (params.map (·.name)).Nodup)
    (hc : ¬ ∀ p ∈ unbound bound params, p.default.isSome) :
    ∃ e w', bindDefaults function r site params w = .error e w' ∧ Fills r w w' := by
  induction params generalizing w bound with
  | nil => exact absurd (by simp [unbound]) hc
  | cons p params ih =>
    obtain ⟨hp, hn⟩ := List.nodup_cons.1 hn
    rw [bindDefaults_cons function site p params h]
    by_cases hb : p.name ∈ bound.map (·.1)
    · rw [unbound_cons_of_mem params hb] at hc
      rw [if_pos hb]
      exact ih h hn hc
    · rw [unbound_cons_of_not_mem params hb] at hc
      rw [if_neg hb]
      cases hd : p.default with
      | none => exact ⟨_, w, rfl, .refl r w⟩
      | some d =>
        have next := (h.copy d).define (Heap.duplicate d w.heap).1 hb
        have same := unbound_append bound (Heap.duplicate d w.heap).1 hp
        -- this one has a default, so the one that is missing comes later
        have hrest : ¬ ∀ q ∈ unbound bound params, q.default.isSome := fun hall => by
          refine hc (List.forall_mem_cons.2 ⟨?_, hall⟩)
          rw [hd]
          rfl
        obtain ⟨e, w', hr, hf⟩ := ih next hn (same ▸ hrest)
        exact ⟨e, w', hr, (Fills.copy r d).trans ((Fills.define _ _ (h.copy d).made).trans hf)⟩

/-! ### All passes together -/

section Passes

variable {params : List Param} {receiver : Option Value} {args : CallArgs}

/-- The names of the parameters a call has to fill are different, and `self` is none of them if the
receiver is bound to it. -/
structure Fillable (params : List Param) (receiver : Option Value) : Prop where
  distinct : (params.map (·.name)).Nodup
  self : receiver.isSome → "self" ∉ params.map (·.name)

theorem fillable_openParams (receiver : Option Value) (distinct : (params.map (·.name)).Nodup)
    (self : "self" ∉ params.tail.map (·.name)) : Fillable (openParams params receiver) receiver := by
  unfold openParams
  cases receiver with
  | none => exact ⟨distinct, by simp⟩
  | some v =>
    cases params with
    | nil => exact ⟨.nil, by simp⟩
    | cons p rest =>
      by_cases hp : p.name = "self"
      · simp only [hp, beq_self_eq_true, if_true]
        exact ⟨(List.nodup_cons.1 distinct).2, fun _ => self⟩
      · simp only [beq_iff_eq, hp, if_false]
        refine ⟨distinct, fun _ hm => ?_⟩
        obtain hm | hm := List.mem_cons.1 hm
        · exact hp hm.symm
        · exact self hm

theorem names_placed : (args.placed params receiver).map (·.1) =
    (receiver.toList.map fun _ => "self") ++
      (params.take args.positional.length).map (·.name) := by
  simp only [CallArgs.placed, List.map_append, List.map_map, Function.comp_def, List.map_take]
  congr 1
  generalize params.map (·.name) = names
  generalize args.positional = positional
  induction names generalizing positional with
  | nil => simp
  | cons name names ih =>
    cases positional with
    | nil => simp
    | cons v positional => simpa using ih positional

theorem Fillable.not_mem_placed (h : Fillable params receiver) (args : CallArgs) {name : String}
    (hn : name ∈ (params.drop args.positional.length).map (·.name)) :
    name ∉ (args.placed params receiver).map (·.1) := by
  rw [names_placed, List.mem_append, not_or]
  have hd := h.distinct
  rw [← List.take_append_drop args.positional.length params, List.map_append,
    List.nodup_append'] at hd
  refine ⟨fun hs => ?_, fun ht => List.disjoint_left.1 hd.2.2 ht hn⟩
  obtain ⟨v, hv, rfl⟩ := List.mem_map.1 hs
  have hsome : receiver.isSome := by
    rw [Option.mem_toList.1 hv]
    rfl
  rw [List.map_drop] at hn
  exact h.self hsome (List.mem_of_mem_drop hn)

/-- An argument by name is for a parameter that has none yet exactly if it names one behind those
filled by position. -/
theorem Fillable.free_iff (h : Fillable params receiver) {name : String} :
    Free params args.positional.length (args.placed params receiver) name ↔
      name ∈ (params.drop args.positional.length).map (·.name) := by
  constructor
  · rintro ⟨⟨place, hp, hg⟩, -⟩
    obtain ⟨hlt, hname, -⟩ := List.findIdx?_eq_some_iff_getElem.1 hp
    refine List.mem_map.2 ⟨params[place], ?_, by simpa using hname⟩
    exact List.mem_drop_iff_getElem.2 ⟨place - args.positional.length, by omega, by
      simp [Nat.add_sub_cancel' hg]⟩
  · intro hn
    refine ⟨?_, h.not_mem_placed args hn⟩
    obtain ⟨p, hp, rfl⟩ := List.mem_map.1 hn
    obtain ⟨i, hi, rfl⟩ := List.mem_drop_iff_getElem.1 hp
    refine ⟨args.positional.length + i, ?_, Nat.le_add_right ..⟩
    refine List.findIdx?_eq_some_iff_getElem.2 ⟨by omega, by simp, fun k hk => ?_⟩
    have hd := List.pairwise_iff_getElem.1 h.distinct k (args.positional.length + i)
      (by rw [List.length_map]; omega) (by rw [List.length_map]; omega) hk
    simpa using hd

theorem Fillable.allFree_iff (h : Fillable params receiver) :
    AllFree params args.positional.length (args.placed params receiver) args.named ↔
      (args.named.map (·.1)).Nodup ∧
        ∀ a ∈ args.named, a.1 ∈ (params.drop args.positional.length).map (·.name) := by
  simp only [AllFree, h.free_iff]

/-- What is left for the defaults. -/
theorem Fillable.unbound_given (h : Fillable params receiver) (args : CallArgs) :
    unbound (args.given params receiver) params = args.missing params := by
  unfold unbound CallArgs.missing CallArgs.given
  conv_lhs => rw [← List.take_append_drop args.positional.length params, List.filter_append]
  have filled : (params.take args.positional.length).filter (fun p => p.name ∉
      (args.placed params receiver ++ args.named.map fun a => (a.1, a.2.1)).map (·.1)) = [] := by
    refine List.filter_eq_nil_iff.2 fun p hp => ?_
    rw [decide_eq_true_iff, not_not, List.map_append, names_placed]
    exact List.mem_append_left _ (List.mem_append_right _ (List.mem_map_of_mem hp))
  rw [List.take_append_drop, filled, List.nil_append]
  refine List.filter_congr fun p hp => ?_
  have hn := h.not_mem_placed args (List.mem_map_of_mem hp)
  simp only [List.map_append, List.mem_append, List.map_map, hn, false_or, Function.comp_def]

/-- The passes over the parameters that are left to the caller. -/
theorem bindArguments_run (function : String) (site : Token) (all : List Param) :
    bindArguments function all r receiver args site w =
      let params := openParams all receiver
      let w₁ := w.defineAll r (receiver.toList.map ("self", ·))
      if params.length < args.positional.length then
        .error (.tooManyArguments function params.length args.positional.length, site) w₁
      else (do
        bindNamed function params args.positional.length r args.named
        bindDefaults function r site params : EStateM Objection World Unit)
        (w₁.defineAll r ((params.map (·.name)).zip args.positional)) := by
  have fold (s : Scopes) (params : List Param) (vs : List Value) :
      ((params.map (·.name)).zip vs).foldl (fun s e => s.define r e.1 e.2) s =
        (params.zip vs).foldl (fun s x => s.define r x.1.name x.2) s := by
    rw [List.zip_map_left, List.foldl_map]
    rfl
  simp only [World.defineAll, fold]
  unfold bindArguments
  -- a method gives its receiver the name `self` first
  cases receiver with
  | none =>
    show (if _ then _ else _ : EStateM Objection World Unit) w = _
    split <;> rfl
  | some v =>
    show (if _ then _ else _ : EStateM Objection World Unit) (w.onScopes (·.define r "self" v)) = _
    split <;> rfl

/-- Every parameter is filled once. -/
theorem Fillable.names_given (h : Fillable params receiver) (hf : args.Fits params) :
    ((args.given params receiver).map (·.1) ++ (args.missing params).map (·.name)).Perm
      ((receiver.toList.map fun _ => "self") ++ params.map (·.name)) := by
  have hd : ((params.drop args.positional.length).map (·.name)).Nodup := by
    rw [List.map_drop]
    exact h.distinct.sublist (List.drop_sublist _ _)
  have hm : ((args.missing params).map (·.name)).Nodup :=
    hd.sublist ((List.filter_sublist (l := params.drop args.positional.length)).map _)
  -- the names behind the positional ones: each is given once, or is missing
  have rest : (args.named.map (·.1) ++ (args.missing params).map (·.name)).Perm
      ((params.drop args.positional.length).map (·.name)) := by
    refine (List.perm_ext_iff_of_nodup ?_ hd).2 fun name => ?_
    · refine List.nodup_append'.2 ⟨hf.once, hm, List.disjoint_left.2 fun _ hn hm => ?_⟩
      obtain ⟨p, hp, rfl⟩ := List.mem_map.1 hm
      exact of_decide_eq_true (List.mem_filter.1 hp).2 hn
    · rw [List.mem_append]
      constructor
      · rintro (hn | hm)
        · obtain ⟨a, ha, rfl⟩ := List.mem_map.1 hn
          exact hf.named a ha
        · exact List.map_subset _ (List.filter_subset_self _) hm
      · intro hn
        obtain ⟨p, hp, rfl⟩ := List.mem_map.1 hn
        by_cases hp' : p.name ∈ args.named.map (·.1)
        · exact .inl hp'
        · exact .inr (List.mem_map_of_mem (List.mem_filter.2 ⟨hp, by simpa using hp'⟩))
  have split : params.map (·.name) = (params.take args.positional.length).map (·.name) ++
      (params.drop args.positional.length).map (·.name) := by
    rw [← List.map_append, List.take_append_drop]
  rw [CallArgs.given, List.map_append, names_placed, List.map_map, split, List.append_assoc,
    List.append_assoc]
  exact (rest.append_left _).append_left _

/-- The receiver and the arguments by position can be bound, unless there are too many. -/
theorem Fillable.bindings_placed (h : Fillable params receiver) (args : CallArgs)
    (hw : Bindings r w []) :
    let w₁ := w.defineAll r (receiver.toList.map ("self", ·))
    let w₂ := w₁.defineAll r ((params.map (·.name)).zip args.positional)
    Fills r w w₁ ∧ Fills r w w₂ ∧ w₂.heap = w.heap ∧
      Bindings r w₂ (args.placed params receiver) := by
  have hn : ((args.placed params receiver).map (·.1)).Nodup := by
    rw [names_placed, List.map_take, List.nodup_append']
    refine ⟨?_, h.distinct.sublist (List.take_sublist _ _), List.disjoint_left.2 fun name hs hp => ?_⟩
    · cases receiver <;> simp
    · obtain ⟨v, hv, rfl⟩ := List.mem_map.1 hs
      refine h.self ?_ (List.mem_of_mem_take hp)
      rw [Option.mem_toList.1 hv]
      rfl
  have hself : (([] ++ receiver.toList.map fun v => ("self", v) : List (String × Value)).map
      (·.1)).Nodup := by
    cases receiver <;> simp
  -- first the receiver, then the positional arguments by the names of the parameters
  obtain ⟨hb₁, hf₁⟩ := hw.define_all _ hself
  rw [List.nil_append] at hb₁
  rw [CallArgs.placed] at hn
  obtain ⟨hb₂, hf₂⟩ := hb₁.define_all _ hn
  exact ⟨hf₁, hf₁.trans hf₂, rfl, hb₂⟩

variable (function : String) (site : Token) {all : List Param}

/-- Arguments that fit are bound, and the defaults of the parameters that are left. -/
theorem bindArguments_of_fits (h : Fillable (openParams all receiver) receiver)
    (hw : Bindings r w []) (hf : args.Fits (openParams all receiver)) :
    ∃ w' copies, bindArguments function all r receiver args site w = .ok () w' ∧ Fills r w w' ∧
      Bindings r w' (args.given (openParams all receiver) receiver ++
        ((args.missing (openParams all receiver)).map (·.name)).zip copies) ∧
      Defaults w.heap w'.heap (args.missing (openParams all receiver)) copies := by
  obtain ⟨-, hfill, hheap, hb⟩ := h.bindings_placed args hw
  obtain ⟨w₁, hr₁, hf₁, hheap₁, hb₁⟩ :=
    bindNamed_of_allFree function hb (h.allFree_iff.2 ⟨hf.once, hf.named⟩)
  have left := h.unbound_given args
  obtain ⟨w₂, copies, hr₂, hf₂, hb₂, hd⟩ := bindDefaults_of_complete function site hb₁ h.distinct
    (left ▸ hf.complete)
  rw [← CallArgs.given, left] at hb₂ 
  rw [← CallArgs.given, left, hheap₁, hheap] at hd
  refine ⟨w₂, copies, ?_, hfill.trans (hf₁.trans hf₂), hb₂, hd⟩
  rw [bindArguments_run]
  dsimp only
  rw [if_neg (Nat.not_lt.2 hf.positional)]
  show EStateM.bind _ _ _ = _
  unfold EStateM.bind
  rw [hr₁]
  exact hr₂

/-- Arguments that do not fit are objected to. -/
theorem bindArguments_of_not_fits (h : Fillable (openParams all receiver) receiver)
    (hw : Bindings r w []) (hf : ¬ args.Fits (openParams all receiver)) :
    ∃ e w', bindArguments function all r receiver args site w = .error e w' ∧ Fills r w w' := by
  obtain ⟨hself, hfill, hheap, hb⟩ := h.bindings_placed args hw
  rw [bindArguments_run]
  dsimp only
  by_cases hl : (openParams all receiver).length < args.positional.length
  · rw [if_pos hl]
    exact ⟨_, _, rfl, hself⟩
  rw [if_neg hl]
  show ∃ e w', EStateM.bind _ _ _ = _ ∧ _
  unfold EStateM.bind
  by_cases hn : AllFree (openParams all receiver) args.positional.length
      (args.placed (openParams all receiver) receiver) args.named
  · obtain ⟨w₁, hr₁, hf₁, -, hb₁⟩ := bindNamed_of_allFree function hb hn
    rw [hr₁]
    obtain ⟨hd, hm⟩ := h.allFree_iff.1 hn
    have left := h.unbound_given args
    have incomplete : ¬ ∀ p ∈ args.missing (openParams all receiver), p.default.isSome :=
      fun hc => hf ⟨Nat.not_lt.1 hl, hm, hd, hc⟩
    obtain ⟨e, w₂, hr₂, hf₂⟩ := bindDefaults_of_not_complete function site hb₁ h.distinct
      (left ▸ incomplete)
    exact ⟨e, w₂, hr₂, hfill.trans (hf₁.trans hf₂)⟩
  · obtain ⟨e, w₁, hr₁, hf₁⟩ := bindNamed_of_not_allFree function hb hn
    rw [hr₁]
    exact ⟨e, w₁, rfl, hfill.trans hf₁⟩

end Passes

end Eval

/-! ### Calls -/

/-- The machines differ only in their scopes and heaps, and the scopes and containers of the first
one are as they were. -/
structure Machine.Opens (m m' : Machine) : Prop where
  rest : m' = { m with
    world := { m.world with scopes := m'.world.scopes, heap := m'.world.heap } }
  scopes : ∀ s, s.index < m.world.scopes.size → m'.world.scopes.get? s = m.world.scopes.get? s
  heap : m.world.heap.Extends m'.world.heap

/-- The scope of a callee, new in `m'`: it stands in the scope of the function and binds each of the
parameters, and `self` if there is a receiver, to its argument or to a copy of its default. -/
structure CallArgs.Received (args : CallArgs) (body : Script) (receiver : Option Value)
    (m m' : Machine) (callee : Ref .scope) : Prop where
  new : callee = m.world.scopes.next
  parent : m'.world.scopes.parent callee = some body.scope
  names : ((m'.world.scopes.entries callee).map (·.1)).Perm
    ((receiver.toList.map fun _ => "self") ++
      (Eval.openParams body.params receiver).map (·.name))
  values : ∃ copies,
    let params := Eval.openParams body.params receiver
    m'.world.scopes.entries callee =
      args.given params receiver ++ ((args.missing params).map (·.name)).zip copies ∧
      Defaults m.world.heap m'.world.heap (args.missing params) copies
  looked : ∀ name v, m'.world.scopes.getLocal? callee name = some v ↔
    (name, v) ∈ m'.world.scopes.entries callee

namespace Eval

section Calls

variable {m : Machine} {body : Script} {receiver : Option Value} {args : CallArgs} {site : Token}

/-- A world with a new scope inside the one of a function. -/
def calleeWorld (w : World) (body : Script) : World :=
  { w with scopes := w.scopes.push { parent := some body.scope } }

theorem argumentScope_run (f : Function) (m : Machine) :
    argumentScope f body receiver args site m =
      match bindArguments f.name body.params m.world.scopes.next receiver args site
          (calleeWorld m.world body) with
      | .ok () w => .ok m.world.scopes.next { m with world := w }
      | .error (c, token) w => complain c token
          { m with world := w.onScopes (·.clear m.world.scopes.next) } := by
  simp only [argumentScope, newScope, tryWorld, onWorld, bind, EStateM.bind]
  have made : { m.world with scopes := m.world.scopes.push { parent := some body.scope } } =
      calleeWorld m.world body := rfl
  rw [made]
  cases bindArguments f.name body.params m.world.scopes.next receiver args site
    (calleeWorld m.world body) <;> rfl

theorem bindings_calleeWorld (w : World) (body : Script) :
    Bindings w.scopes.next (calleeWorld w body) [] := by
  have got : (calleeWorld w body).scopes.get w.scopes.next = { parent := some body.scope } := by
    simp [calleeWorld, Arena.get, Arena.get?_push_next]
  refine ⟨?_, ?_, ?_⟩
  · simp [calleeWorld, Arena.next, Arena.size, Arena.push]
  · rw [got]
    exact Dict.indexed_empty
  · show ((calleeWorld w body).scopes.get w.scopes.next).vars.toList = []
    rw [got]
    rfl

/-- Filling a new scope leaves the others alone. -/
theorem opens_of_fills {w : World} (h : Fills m.world.scopes.next (calleeWorld m.world body) w) :
    m.Opens { m with world := w } := by
  refine ⟨?_, fun s hs => ?_, h.grown⟩
  · rw [h.rest]
    rfl
  · have hne : s ≠ m.world.scopes.next := fun he => by
      subst he
      exact Nat.lt_irrefl _ hs
    exact (h.others s hne).trans (Arena.get?_push_of_lt _ _ hs)

/-- Arguments that fit are received in a new scope. -/
theorem argumentScope_of_fits (f : Function) (site : Token)
    (h : Fillable (openParams body.params receiver) receiver)
    (hf : args.Fits (openParams body.params receiver)) (m : Machine) :
    ∃ w, m.Opens { m with world := w } ∧
      args.Received body receiver m { m with world := w } m.world.scopes.next ∧
      ∀ m', m'.world = m.world → argumentScope f body receiver args site m' =
        .ok m.world.scopes.next { m' with world := w } := by
  obtain ⟨w, copies, hr, hfill, hb, hd⟩ :=
    bindArguments_of_fits f.name site h (bindings_calleeWorld m.world body) hf
  refine ⟨w, opens_of_fills hfill, ⟨rfl, ?_, ?_, ⟨copies, hb.entries, hd⟩, fun name v => ?_⟩,
    fun m' hm => ?_⟩
  · show (w.scopes.get _).parent = _
    rw [hfill.place]
    simp [calleeWorld, Arena.get, Arena.get?_push_next]
  · show ((w.scopes.entries _).map (·.1)).Perm _
    have names := h.names_given hf
    rw [hb.entries, List.map_append, List.map_fst_zip]
    · exact names
    · rw [List.length_map, hd.alike.length_eq]
  · exact hb.getLocal?_eq_some.trans (by rw [hb.entries])
  · rw [argumentScope_run, hm, hr]

/-- Arguments that do not fit raise an exception. -/
theorem argumentScope_of_not_fits (f : Function) (site : Token)
    (h : Fillable (openParams body.params receiver) receiver)
    (hf : ¬ args.Fits (openParams body.params receiver)) (m : Machine) :
    ∃ e w, m.Opens { m with world := w } ∧ ∀ m', m'.world = m.world →
      argumentScope f body receiver args site m' = .error (.raised e) { m' with world := w } := by
  obtain ⟨⟨c, token⟩, w, hr, hfill⟩ :=
    bindArguments_of_not_fits f.name site h (bindings_calleeWorld m.world body) hf
  have made : m.world.scopes.next.index < w.scopes.size := by
    rw [hfill.size]
    exact (bindings_calleeWorld m.world body).made
  refine ⟨⟨.str c.message, token.line, token.column⟩, _,
    opens_of_fills (hfill.trans (.clear made)), fun m' hm => ?_⟩
  rw [argumentScope_run, hm, hr]
  rfl

/-- What a call gives when the body of the function has come to its end. -/
def ending (name : String) : Except Fault Status → Eval Held
  | .error fault => throw (.fault fault)
  | .ok (.leaving (.result v)) => return .fresh v
  | .ok (.leaving (.raised r)) => throw (.raised r)
  | .ok .yielded => fail (.internal (.suspendedFunction name))
  | .ok _ => return Held.null

/-- The body of a function that has received its arguments in the scope `callee`, run in its place. -/
def runCallee (j : Jobs) (name : String) (body : Script) (owner : Option (Ref .blueprint))
    (callee : Ref .scope) : Eval Held := do
  match Cursor.at? body.source body.entry with
  | .error failure => fail failure
  | .ok cursor =>
    ending name (← inCallee cursor callee (.functionBody owner) (j.body (body.column + 4)))

/-- A coroutine in the scope `callee`, whose body has not begun. -/
def coroutineOf (r : Ref .function) (name : String) (owner : Option (Ref .blueprint))
    (callee : Ref .scope) : Eval Held := do
  return .fresh (.coroutine (← newCoroutine name (.script r owner) (some callee)))

variable {r : Ref .function}

theorem pinning_congr {p : Pin} {x y : Eval α} {m' : Machine} (hp : m'.pinned = m.pinned)
    (h : x { m with pinned := p :: m.pinned } = y { m' with pinned := p :: m'.pinned }) :
    pinning p x m = pinning p y m' := by
  unfold pinning
  dsimp only
  rw [h, hp]

theorem pinning_of_error {p : Pin} {x : Eval α} {e : Interrupt} {m' : Machine}
    (h : x { m with pinned := p :: m.pinned } = .error e m') :
    pinning p x m = .error e { m' with pinned := m.pinned } := by
  unfold pinning
  dsimp only
  rw [h]

theorem callScript_run (j : Jobs) (owner : Option (Ref .blueprint))
    (hb : (m.world.functions.get r).body = .script body)
    (hd : m.callDepth < m.environment.maxCallDepth) :
    callScript j r receiver owner args site m =
      holding [.function r] (do
        runCallee j (m.world.functions.get r).name body owner
          (← argumentScope (m.world.functions.get r) body receiver args site)) m := by
  refine pinning_congr rfl ?_
  rw [ask_bind, hb]
  refine (bind_of_ok (get_run _)).trans ?_
  rw [if_neg (Nat.not_le.2 hd)]
  refine congrFun (bind_congr fun callee => ?_) _
  unfold runCallee
  cases Cursor.at? body.source body.entry with
  | error failure => rfl
  | ok cursor =>
    refine bind_congr fun result => ?_
    obtain fault | (_ | _ | (_ | _ | _ | _)) := result <;> rfl

theorem spawn_run (owner : Option (Ref .blueprint))
    (hb : (m.world.functions.get r).body = .script body) :
    spawn r receiver owner args site m = (do
      coroutineOf r (m.world.functions.get r).name owner
        (← argumentScope (m.world.functions.get r) body receiver args site) : Eval Held) m := by
  unfold spawn
  rw [ask_bind, hb]
  rfl

theorem callFunction_run (j : Jobs) (n : Nat) (owner : Option (Ref .blueprint))
    (hb : (m.world.functions.get r).body = .script body) :
    callFunction j n r receiver owner args site m =
      (if body.isAsync then spawn r receiver owner args site
        else callScript j r receiver owner args site) m := by
  unfold callFunction
  rw [ask_bind, hb]

/-- At the greatest depth no function is called, whatever the arguments are. -/
theorem callScript_of_deep (j : Jobs) (owner : Option (Ref .blueprint))
    (hb : (m.world.functions.get r).body = .script body)
    (hd : m.environment.maxCallDepth ≤ m.callDepth) :
    callScript j r receiver owner args site m = .error (.fault (.failure (.system (.callDepth
      m.environment.maxCallDepth (m.world.functions.get r).name site.line)))) m := by
  unfold callScript holding pinning
  dsimp only
  rw [ask_bind, hb]
  dsimp only
  rw [bind_of_ok (get_run _), if_pos hd]
  rfl

/-- The call of a function written in the program.  Its arguments fit the parameters exactly if they
are received in a new scope, in which the body then runs, or in which a coroutine keeps them; if
they do not fit, an exception is raised, and nothing has come of the call.  At the greatest depth
the call of a plain function ends the run before its arguments are looked at. -/
theorem argument_binding (m : Machine) (r : Ref .function) (body : Script)
    (receiver : Option Value) (args : CallArgs) (site : Token)
    (hb : (m.world.functions.get r).body = .script body)
    (distinct : (body.params.map (·.name)).Nodup) (self : "self" ∉ body.params.tail.map (·.name)) :
    (args.Fits (openParams body.params receiver) → ∃ callee m₁, m.Opens m₁ ∧
      args.Received body receiver m m₁ callee ∧ ∀ j n owner,
        (body.isAsync = true → callFunction j n r receiver owner args site m =
          coroutineOf r (m.world.functions.get r).name owner callee m₁) ∧
        (body.isAsync = false → m.callDepth < m.environment.maxCallDepth →
          callFunction j n r receiver owner args site m = holding [.function r]
            (runCallee j (m.world.functions.get r).name body owner callee) m₁)) ∧
    (¬ args.Fits (openParams body.params receiver) → ∃ e m₁, m.Opens m₁ ∧ ∀ j n owner,
      body.isAsync = true ∨ m.callDepth < m.environment.maxCallDepth →
        callFunction j n r receiver owner args site m = .error (.raised e) m₁) ∧
    (body.isAsync = false → m.environment.maxCallDepth ≤ m.callDepth → ∀ j n owner,
      callFunction j n r receiver owner args site m = .error (.fault (.failure (.system (.callDepth
        m.environment.maxCallDepth (m.world.functions.get r).name site.line)))) m) := by
  have fillable := fillable_openParams receiver distinct self
  refine ⟨fun hf => ?_, fun hf => ?_, fun ha hd j n owner => ?_⟩
  · obtain ⟨w, hopens, hreceived, hrun⟩ :=
      argumentScope_of_fits (m.world.functions.get r) site fillable hf m
    refine ⟨_, _, hopens, hreceived, fun j n owner => ⟨fun ha => ?_, fun ha hd => ?_⟩⟩
    · rw [callFunction_run j n owner hb, if_pos ha, spawn_run owner hb]
      exact bind_of_ok (hrun m rfl)
    · rw [callFunction_run j n owner hb, ha, if_neg (by simp), callScript_run j owner hb hd]
      exact pinning_congr rfl (bind_of_ok (hrun { m with pinned := _ :: m.pinned } rfl))
  · obtain ⟨e, w, hopens, hrun⟩ :=
      argumentScope_of_not_fits (m.world.functions.get r) site fillable hf m
    have stops (m' : Machine) (hm : m'.world = m.world) (next : Ref .scope → Eval Held) :
        (argumentScope (m.world.functions.get r) body receiver args site >>= next) m' =
          .error (.raised e) { m' with world := w } := by
      show EStateM.bind _ _ _ = _
      unfold EStateM.bind
      rw [hrun m' hm]
    refine ⟨e, _, hopens, fun j n owner hd => ?_⟩
    rw [callFunction_run j n owner hb]
    cases ha : body.isAsync with
    | true =>
      rw [if_pos rfl, spawn_run owner hb]
      exact stops m rfl _
    | false =>
      have hd := hd.resolve_left (by simp [ha])
      rw [if_neg (by simp), callScript_run j owner hb hd]
      exact pinning_of_error (stops { m with pinned := _ :: m.pinned } rfl _)
  · rw [callFunction_run j n owner hb, ha, if_neg (by simp), callScript_of_deep j owner hb hd]

/-- The body of `funct: f(self, a, b = [1])`. -/
def greetingBody : Script where
  params := [⟨"self", none⟩, ⟨"a", none⟩, ⟨"b", some (.array ⟨0⟩)⟩]
  isAsync := false
  source := default
  entry := ⟨0, 0, 0, 0⟩
  column := 0
  scope := ⟨0⟩

/-- A session with that function and its default. -/
def greetingMachine : Machine where
  world :=
    { heap := (Heap.newArray #[.int 1] {}).2
      scopes := ⟨#[{}]⟩
      functions := ⟨#[⟨"f", .script greetingBody⟩]⟩ }

theorem sound_greeting : greetingMachine.world.heap.Sound := by
  have empty : Heap.Sound {} := by
    have nothing (v : Value) : Heap.inside {} v = [] := by
      cases v <;> rfl
    exact ⟨fun v i hi => by simp [nothing] at hi, fun v => ⟨1, fun i hi => by simp [nothing] at hi⟩⟩
  refine (Heap.adds_newArray #[.int 1] {}).sound empty fun i hi => ?_
  obtain rfl := List.mem_singleton.1 hi
  exact Heap.knows_of_box? rfl

/-- A method called with one argument binds `self`, the argument, and a copy of its default. -/
theorem argument_binding_of_greeting : ∃ callee m₁ copy,
    greetingMachine.Opens m₁ ∧
    m₁.world.scopes.entries callee = [("self", .int 7), ("a", .int 5), ("b", copy)] ∧
    m₁.world.heap.Mirrors (.array ⟨0⟩) copy ∧
    greetingMachine.world.heap.Fresh m₁.world.heap ↑[copy] ∧
    ∀ j n owner, callFunction j n ⟨0⟩ (some (.int 7)) owner ⟨[.int 5], []⟩ default greetingMachine =
      holding [.function ⟨0⟩] (runCallee j "f" greetingBody owner callee) m₁ := by
  obtain ⟨callee, m₁, opens, received, runs⟩ :=
    (argument_binding greetingMachine ⟨0⟩ greetingBody (some (.int 7)) ⟨[.int 5], []⟩ default rfl
      (by decide) (by decide)).1 ⟨by decide, by simp, by simp, by decide⟩
  obtain ⟨copies, entries, alike, fresh⟩ := received.values
  have left : CallArgs.missing ⟨[.int 5], []⟩ (openParams greetingBody.params (some (.int 7))) =
      [⟨"b", some (.array ⟨0⟩)⟩] := rfl
  rw [left] at alike fresh entries
  obtain _ | ⟨⟨d, hd, same⟩, rest⟩ := alike
  cases rest
  obtain rfl := Option.some.inj hd
  refine ⟨callee, m₁, _, opens, entries, same, fresh sound_greeting fun p hp d hd => ?_,
    fun j n owner => (runs j n owner).2 rfl (by decide)⟩
  obtain rfl := List.mem_singleton.1 hp
  obtain rfl := Option.some.inj hd
  exact fun _ => by simp [greetingMachine, Heap.newArray, Heap.contents?, Arena.get?, Arena.push]

end Calls

end Eval

end Rewind
