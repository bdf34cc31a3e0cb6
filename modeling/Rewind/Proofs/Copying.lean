/-
What a copy has in common with the original.

Containers are copied whenever a value is handed on.  A copy holds the same as the original, down to
the values that are no containers, and copying only adds containers to the heap, so that what holds
the same goes on doing so.

* `Heap.Contents`, `Heap.contents?` — what is in a container;
* `Heap.Extends` — a heap with more containers;
* `Heap.Mirrors`, `Heap.MirrorsOutcome` — two values, or two outcomes, hold the same;
* `mirrors_duplicate`, `mirrors_duplicateOutcome` — a copy holds the same as the original.
-/
import Rewind.Heap
import Mathlib.Data.List.Forall2

namespace Rewind

/-- The keys stay, and the values are the new ones. -/
theorem Dict.withValues_lists {α : Type} (d : Dict α) {values : List α}
    (h : values.length = d.values.length) :
    (d.withValues values).keys = d.keys ∧ (d.withValues values).values = values := by
  have hl : values.length = d.keys.length := by
    rw [h, Dict.values, Dict.keys, List.length_map, List.length_map]
  exact ⟨List.map_fst_zip (Nat.le_of_eq hl.symm), List.map_snd_zip (Nat.le_of_eq hl)⟩

namespace Heap

/-- What is in a container: its values in order, and the keys of a dictionary. -/
structure Contents where
  kind : ValueKind
  keys : List String
  items : List Value

/-- What is in the container a value stands for. -/
def contents? (h : Heap) : Value → Option Contents
  | .array r => (h.arrays.get? r).map fun items => ⟨.array, [], items.toList⟩
  | .tuple r => (h.tuples.get? r).map fun items => ⟨.tuple, [], items.toList⟩
  | .dict r => (h.dicts.get? r).map fun entries => ⟨.dictionary, entries.keys, entries.values⟩
  | _ => none

/-- All containers of the first heap are in the second one, with the same in them. -/
def Extends (h h' : Heap) : Prop :=
  ∀ (v : Value) (c : Contents), h.contents? v = some c → h'.contents? v = some c

/-- Two values are the same, or containers that hold the same down to the depth `depth`, where there
are the same values in both. -/
def MirrorsTo (h : Heap) : (depth : Nat) → Value → Value → Prop
  | 0, v, v' => v = v'
  | depth + 1, v, v' => v = v' ∨ ∃ kind keys items items',
      h.contents? v = some ⟨kind, keys, items⟩ ∧ h.contents? v' = some ⟨kind, keys, items'⟩ ∧
        List.Forall₂ (MirrorsTo h depth) items items'

/-- Two values hold the same. -/
def Mirrors (h : Heap) (v v' : Value) : Prop := ∃ depth, h.MirrorsTo depth v v'

/-- Two exceptions of one place that hold the same. -/
def MirrorsRaised (h : Heap) (r r' : Raised) : Prop :=
  r.line = r'.line ∧ r.column = r'.column ∧ h.Mirrors r.value r'.value

/-- Two outcomes hold the same. -/
def MirrorsOutcome (h : Heap) : Outcome → Outcome → Prop
  | .ok v, .ok v' => h.Mirrors v v'
  | .error r, .error r' => h.MirrorsRaised r r'
  | _, _ => False

/-! ### Heaps with more containers -/

theorem Extends.refl (h : Heap) : h.Extends h := fun _ _ => id

theorem Extends.trans {h₁ h₂ h₃ : Heap} (h : h₁.Extends h₂) (h' : h₂.Extends h₃) :
    h₁.Extends h₃ := fun v c hc => h' v c (h v c hc)

theorem extends_newArray (items : Array Value) (h : Heap) : h.Extends (newArray items h).2 := by
  intro v c hc
  cases v with
  | array r =>
    obtain ⟨a, ha, rfl⟩ := Option.map_eq_some_iff.1 hc
    have hr : r.index < h.arrays.size := (Array.getElem?_eq_some_iff.1 ha).1
    simp [newArray, contents?, Arena.get?_push_of_lt _ _ hr, ha]
  | _ => exact hc

theorem extends_newTuple (items : Array Value) (h : Heap) : h.Extends (newTuple items h).2 := by
  intro v c hc
  cases v with
  | tuple r =>
    obtain ⟨a, ha, rfl⟩ := Option.map_eq_some_iff.1 hc
    have hr : r.index < h.tuples.size := (Array.getElem?_eq_some_iff.1 ha).1
    simp [newTuple, contents?, Arena.get?_push_of_lt _ _ hr, ha]
  | _ => exact hc

theorem extends_newDict (entries : Dict Value) (h : Heap) :
    h.Extends (newDict entries h).2 := by
  intro v c hc
  cases v with
  | dict r =>
    obtain ⟨d, hd, rfl⟩ := Option.map_eq_some_iff.1 hc
    have hr : r.index < h.dicts.size := (Array.getElem?_eq_some_iff.1 hd).1
    simp [newDict, contents?, Arena.get?_push_of_lt _ _ hr, hd]
  | _ => exact hc

/-! ### Values that hold the same -/

namespace MirrorsTo

variable {h h' : Heap} {depth : Nat} {v v' v'' : Value}

theorem refl (h : Heap) (depth : Nat) (v : Value) : h.MirrorsTo depth v v := by
  cases depth with
  | zero => rfl
  | succ depth => exact .inl rfl

theorem symm (hm : h.MirrorsTo depth v v') : h.MirrorsTo depth v' v := by
  induction depth generalizing v v' with
  | zero => exact Eq.symm hm
  | succ depth ih =>
    obtain rfl | ⟨kind, keys, items, items', hc, hc', hi⟩ := hm
    · exact .inl rfl
    · exact .inr ⟨kind, keys, items', items, hc', hc, (hi.imp fun _ _ hm => ih hm).flip⟩

theorem trans (hm : h.MirrorsTo depth v v') (hm' : h.MirrorsTo depth v' v'') :
    h.MirrorsTo depth v v'' := by
  induction depth generalizing v v' v'' with
  | zero => exact Eq.trans hm hm'
  | succ depth ih =>
    obtain rfl | ⟨kind, keys, items, items', hc, hc', hi⟩ := hm
    · exact hm'
    · obtain rfl | ⟨kind', keys', items₁, items'', hc₁, hc'', hi'⟩ := hm'
      · exact .inr ⟨kind, keys, items, items', hc, hc', hi⟩
      · obtain ⟨rfl, rfl, rfl⟩ := Contents.mk.inj (Option.some.inj (hc'.symm.trans hc₁))
        refine .inr ⟨kind, keys, items, items'', hc, hc'', ?_⟩
        clear hc hc' hc₁ hc''
        induction hi generalizing items'' with
        | nil =>
          cases hi'
          exact .nil
        | cons hx _ ihl =>
          cases hi' with
          | cons hy hl => exact .cons (ih hx hy) (ihl _ hl)

/-- Two values that hold the same do so to any greater depth. -/
theorem deepen (hm : h.MirrorsTo depth v v') : h.MirrorsTo (depth + 1) v v' := by
  induction depth generalizing v v' with
  | zero => exact .inl hm
  | succ depth ih =>
    obtain rfl | ⟨kind, keys, items, items', hc, hc', hi⟩ := hm
    · exact .inl rfl
    · exact .inr ⟨kind, keys, items, items', hc, hc', hi.imp fun _ _ hm => ih hm⟩

theorem of_le {depth' : Nat} (hm : h.MirrorsTo depth v v') (hd : depth ≤ depth') :
    h.MirrorsTo depth' v v' := by
  induction hd with
  | refl => exact hm
  | step _ ih => exact ih.deepen

theorem mono (hm : h.MirrorsTo depth v v') (he : h.Extends h') : h'.MirrorsTo depth v v' := by
  induction depth generalizing v v' with
  | zero => exact hm
  | succ depth ih =>
    obtain rfl | ⟨kind, keys, items, items', hc, hc', hi⟩ := hm
    · exact .inl rfl
    · exact .inr ⟨kind, keys, items, items', he v _ hc, he v' _ hc', hi.imp fun _ _ hm => ih hm⟩

end MirrorsTo

namespace Mirrors

variable {h h' : Heap} {v v' v'' : Value}

theorem refl (h : Heap) (v : Value) : h.Mirrors v v := ⟨0, rfl⟩

theorem symm (hm : h.Mirrors v v') : h.Mirrors v' v := by
  obtain ⟨depth, hm⟩ := hm
  exact ⟨depth, hm.symm⟩

theorem trans (hm : h.Mirrors v v') (hm' : h.Mirrors v' v'') : h.Mirrors v v'' := by
  obtain ⟨depth, hm⟩ := hm
  obtain ⟨depth', hm'⟩ := hm'
  exact ⟨max depth depth', (hm.of_le (Nat.le_max_left _ _)).trans (hm'.of_le (Nat.le_max_right _ _))⟩

theorem mono (hm : h.Mirrors v v') (he : h.Extends h') : h'.Mirrors v v' := by
  obtain ⟨depth, hm⟩ := hm
  exact ⟨depth, hm.mono he⟩

/-- What holds the same as a container is a container of the kind. -/
theorem contents {kind : ValueKind} {keys : List String} {items : List Value}
    (hm : h.Mirrors v v') (hc : h.contents? v = some ⟨kind, keys, items⟩) :
    ∃ items', h.contents? v' = some ⟨kind, keys, items'⟩ ∧
      List.Forall₂ h.Mirrors items items' := by
  obtain ⟨depth, hm⟩ := hm
  have self : ∃ items', h.contents? v = some ⟨kind, keys, items'⟩ ∧
      List.Forall₂ h.Mirrors items items' := ⟨items, hc, List.forall₂_same.2 fun x _ => refl h x⟩
  cases depth with
  | zero =>
    obtain rfl : v = v' := hm
    exact self
  | succ depth =>
    obtain rfl | ⟨kind', keys', items₁, items', hc₁, hc', hi⟩ := hm
    · exact self
    · obtain ⟨rfl, rfl, rfl⟩ := Contents.mk.inj (Option.some.inj (hc.symm.trans hc₁))
      exact ⟨items', hc', hi.imp fun _ _ hm => ⟨depth, hm⟩⟩

end Mirrors

namespace MirrorsOutcome

variable {h h' : Heap} {o o' o'' : Outcome}

theorem refl (h : Heap) (o : Outcome) : h.MirrorsOutcome o o := by
  cases o with
  | ok v => exact Mirrors.refl h v
  | error r => exact ⟨rfl, rfl, Mirrors.refl h r.value⟩

theorem symm (hm : h.MirrorsOutcome o o') : h.MirrorsOutcome o' o := by
  cases o <;> cases o'
  · obtain ⟨hl, hc, hv⟩ := hm
    exact ⟨hl.symm, hc.symm, hv.symm⟩
  · exact hm
  · exact hm
  · exact Mirrors.symm hm

theorem trans (hm : h.MirrorsOutcome o o') (hm' : h.MirrorsOutcome o' o'') :
    h.MirrorsOutcome o o'' := by
  cases o <;> cases o' <;> cases o''
  case error.error.error =>
    obtain ⟨hl, hc, hv⟩ := hm
    obtain ⟨hl', hc', hv'⟩ := hm'
    exact ⟨hl.trans hl', hc.trans hc', hv.trans hv'⟩
  case ok.ok.ok => exact Mirrors.trans hm hm'
  all_goals
    first
      | exact hm.elim
      | exact hm'.elim

theorem mono (hm : h.MirrorsOutcome o o') (he : h.Extends h') : h'.MirrorsOutcome o o' := by
  cases o <;> cases o'
  · obtain ⟨hl, hc, hv⟩ := hm
    exact ⟨hl, hc, hv.mono he⟩
  · exact hm
  · exact hm
  · exact Mirrors.mono hm he

/-- What holds the same as an exception is one. -/
theorem error_right {r : Raised} (hm : h.MirrorsOutcome (.error r) o) : ∃ r', o = .error r' := by
  cases o with
  | ok v => exact hm.elim
  | error r' => exact ⟨r', rfl⟩

end MirrorsOutcome

/-! ### Copies -/

/-- Values are copied one after the other. -/
theorem mapM_mirrors {f : Value → StateM Heap Value} {depth : Nat}
    (hf : ∀ v h, h.Extends (f v h).2 ∧ (f v h).2.MirrorsTo depth v (f v h).1) (l : List Value)
    (h : Heap) : h.Extends (l.mapM f h).2 ∧
      List.Forall₂ ((l.mapM f h).2.MirrorsTo depth) l (l.mapM f h).1 := by
  induction l generalizing h with
  | nil => exact ⟨Extends.refl h, .nil⟩
  | cons v l ih =>
    obtain ⟨he, hm⟩ := hf v h
    obtain ⟨he', hm'⟩ := ih (f v h).2
    have hrun : (v :: l).mapM f h =
        ((f v h).1 :: (l.mapM f (f v h).2).1, (l.mapM f (f v h).2).2) := by
      rw [List.mapM_cons]
      rfl
    rw [hrun]
    exact ⟨he.trans he', .cons (hm.mono he') hm'⟩

/-- A new container with copies of what is in another one holds the same. -/
theorem mirrorsTo_of_contents {h h' : Heap} {depth : Nat} {v v' : Value} {kind : ValueKind}
    {keys : List String} {items items' : List Value}
    (hc : h.contents? v = some ⟨kind, keys, items⟩) (he : h.Extends h')
    (hc' : h'.contents? v' = some ⟨kind, keys, items'⟩)
    (hi : List.Forall₂ (h'.MirrorsTo depth) items items') : h'.MirrorsTo (depth + 1) v v' :=
  .inr ⟨kind, keys, items, items', he v _ hc, hc', hi⟩

section Runs

variable {h : Heap} {depth : Nat}

theorem duplicateTo_array {r : Ref .array} {items : Array Value}
    (hr : h.arrays.get? r = some items) :
    let p := items.toList.mapM (duplicateTo depth) h
    duplicateTo (depth + 1) (.array r) h = newArray p.1.toArray p.2 := by
  simp only [duplicateTo, bind, StateT.bind, get, getThe, MonadStateOf.get, StateT.get, pure, hr,
    Array.mapM_eq_mapM_toList]
  rfl

theorem duplicateTo_tuple {r : Ref .tuple} {items : Array Value}
    (hr : h.tuples.get? r = some items) :
    let p := items.toList.mapM (duplicateTo depth) h
    duplicateTo (depth + 1) (.tuple r) h = newTuple p.1.toArray p.2 := by
  simp only [duplicateTo, bind, StateT.bind, get, getThe, MonadStateOf.get, StateT.get, pure, hr,
    Array.mapM_eq_mapM_toList]
  rfl

theorem duplicateTo_dict {r : Ref .dict} {entries : Dict Value}
    (hr : h.dicts.get? r = some entries) :
    let p := entries.values.mapM (duplicateTo depth) h
    duplicateTo (depth + 1) (.dict r) h = newDict (entries.withValues p.1) p.2 := by
  simp only [duplicateTo, bind, StateT.bind, get, getThe, MonadStateOf.get, StateT.get, pure, hr]
  rfl

/-- What is no container, or leads nowhere, stands for itself. -/
theorem duplicateTo_of_none {v : Value} (hv : h.contents? v = none) :
    duplicateTo depth v h = (v, h) := by
  cases depth with
  | zero => rfl
  | succ depth =>
    cases v with
    | array r | tuple r | dict r =>
      have hr := Option.map_eq_none_iff.1 hv
      simp only [duplicateTo, bind, StateT.bind, get, getThe, MonadStateOf.get, StateT.get, pure, hr]
      rfl
    | _ => rfl

end Runs

/-- A copy holds the same as the original. -/
theorem mirrors_duplicateTo (depth : Nat) (v : Value) (h : Heap) :
    h.Extends (duplicateTo depth v h).2 ∧
      (duplicateTo depth v h).2.MirrorsTo depth v (duplicateTo depth v h).1 := by
  induction depth generalizing v h with
  | zero => exact ⟨Extends.refl h, rfl⟩
  | succ depth ih =>
    -- the copies of what is in a container, and the new container they are put into
    have copied (new : List Value → StateM Heap Value) {h : Heap} {kind : ValueKind}
        {keys : List String} {items : List Value} (hc : h.contents? v = some ⟨kind, keys, items⟩)
        (hrun : duplicateTo (depth + 1) v h = new (items.mapM (duplicateTo depth) h).1
          (items.mapM (duplicateTo depth) h).2)
        (hnew : ∀ items' h', items'.length = items.length → h'.Extends (new items' h').2 ∧
          (new items' h').2.contents? (new items' h').1 = some ⟨kind, keys, items'⟩) :
        h.Extends (duplicateTo (depth + 1) v h).2 ∧
          (duplicateTo (depth + 1) v h).2.MirrorsTo (depth + 1) v
            (duplicateTo (depth + 1) v h).1 := by
      obtain ⟨he, hm⟩ := mapM_mirrors ih items h
      obtain ⟨he', hc'⟩ := hnew _ (items.mapM (duplicateTo depth) h).2 hm.length_eq.symm
      rw [hrun]
      exact ⟨he.trans he', mirrorsTo_of_contents hc (he.trans he') hc'
        (hm.imp fun _ _ hm => hm.mono he')⟩
    cases hc : h.contents? v with
    | none =>
      rw [duplicateTo_of_none hc]
      exact ⟨Extends.refl h, .refl h _ v⟩
    | some c =>
      cases v with
      | array r =>
        obtain ⟨items, hr, rfl⟩ := Option.map_eq_some_iff.1 hc
        refine copied (fun l => newArray l.toArray) hc (duplicateTo_array hr)
          fun items' h' _ => ⟨extends_newArray _ h', ?_⟩
        simp [newArray, contents?, Arena.get?_push_next]
      | tuple r =>
        obtain ⟨items, hr, rfl⟩ := Option.map_eq_some_iff.1 hc
        refine copied (fun l => newTuple l.toArray) hc (duplicateTo_tuple hr)
          fun items' h' _ => ⟨extends_newTuple _ h', ?_⟩
        simp [newTuple, contents?, Arena.get?_push_next]
      | dict r =>
        obtain ⟨entries, hr, rfl⟩ := Option.map_eq_some_iff.1 hc
        refine copied (fun l => newDict (entries.withValues l)) hc (duplicateTo_dict hr)
          fun items' h' hl => ⟨extends_newDict _ h', ?_⟩
        obtain ⟨hk, hv⟩ := Dict.withValues_lists entries hl
        simp [newDict, contents?, Arena.get?_push_next, hk, hv]
      | _ => contradiction

theorem extends_duplicate (v : Value) (h : Heap) : h.Extends (duplicate v h).2 :=
  (mirrors_duplicateTo (h.size + 1) v h).1

theorem mirrors_duplicate (v : Value) (h : Heap) :
    (duplicate v h).2.Mirrors v (duplicate v h).1 :=
  ⟨h.size + 1, (mirrors_duplicateTo (h.size + 1) v h).2⟩

theorem extends_duplicateOutcome (o : Outcome) (h : Heap) :
    h.Extends (duplicateOutcome o h).2 := by
  cases o with
  | ok v => exact extends_duplicate v h
  | error r => exact extends_duplicate r.value h

theorem mirrors_duplicateOutcome (o : Outcome) (h : Heap) :
    (duplicateOutcome o h).2.MirrorsOutcome o (duplicateOutcome o h).1 := by
  cases o with
  | ok v => exact mirrors_duplicate v h
  | error r => exact ⟨rfl, rfl, mirrors_duplicate r.value h⟩

end Heap

end Rewind
