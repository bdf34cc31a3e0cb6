/-
The containers of a value.

A container holds values, among them other containers.  In a sound heap containers nest: none is
inside itself, not even by way of others, so the containers of a value form a finite tree.  Two
values share nothing if no cell occurs in both trees.

* `Value.box?`, `Heap.inside` — the cell of a container, and the values in it;
* `Heap.Within`, `Heap.look` — what is in a value at any depth, and what is at a place;
* `Heap.tree`, `Heap.forest` — the cells of all containers in a value, and in several;
* `Heap.Sound` — every container nests, and what is in it is in the heap;
* `nests_size` — containers nest no deeper than there are containers;
* `Heap.Fresh`, `fresh_duplicate` — a copy has all of its containers to itself;
* `Heap.Puts`, `Puts.sound`, `Puts.tree_le` — a value is put into a container.
-/
import Mathlib.Data.Multiset.Bind
import Mathlib.Data.Multiset.Count
import Mathlib.Data.Fintype.Sum
import Mathlib.Algebra.Order.Monoid.Unbundled.Pow
import Rewind.Lifetime
import Rewind.Proofs.Copying

namespace Rewind

/-- The cell of the container a value refers to. -/
def Value.box? : Value → Option Cell
  | array r => some r.cell
  | tuple r => some r.cell
  | dict r => some r.cell
  | _ => none

theorem Value.eq_of_box? {v v' : Value} {c : Cell} (h : v.box? = some c) (h' : v'.box? = some c) :
    v = v' := by
  cases v <;> cases v' <;> simp_all [Value.box?, Ref.cell]
  all_goals
    rename_i r r'
    obtain ⟨i⟩ := r
    obtain ⟨i'⟩ := r'
    subst h
    simp_all

namespace Heap

/-! ### Trees -/

/-- The values in a container. -/
def inside (h : Heap) (v : Value) : List Value := ((h.contents? v).map (·.items)).getD []

/-- A value is in another one, by way of the containers in between. -/
inductive Within (h : Heap) (v : Value) : Value → Prop
  | self : Within h v v
  | inside {u i : Value} : Within h v u → i ∈ h.inside u → Within h v i

/-- What is at a place: which of the values, which of the items in that one, and so on. -/
def look (h : Heap) : List Value → List Nat → Option Value
  | _, [] => none
  | vs, [i] => vs[i]?
  | vs, i :: j :: place => vs[i]?.bind fun v => look h (h.inside v) (j :: place)

/-- The value is no container, or one of this heap. -/
def Knows (h : Heap) (v : Value) : Prop := v.box? ≠ none → h.contents? v ≠ none

/-- The containers of a value nest at most so deep. -/
def Nests (h : Heap) : (depth : Nat) → Value → Prop
  | 0, v => v.box? = none
  | depth + 1, v => ∀ i ∈ h.inside v, Nests h depth i

/-- What is in the containers of the heap is in the heap, and all containers nest. -/
structure Sound (h : Heap) : Prop where
  knows : ∀ v, ∀ i ∈ h.inside v, h.Knows i
  nests : ∀ v, ∃ depth, h.Nests depth v

/-- The cells of the containers in a value, down to a depth. -/
def treeTo (h : Heap) : (depth : Nat) → Value → Multiset Cell
  | 0, _ => 0
  | depth + 1, v => ↑v.box?.toList + (↑(h.inside v) : Multiset Value).bind (treeTo h depth)

/-- The cells of the containers in a value. -/
def tree (h : Heap) (v : Value) : Multiset Cell := h.treeTo (h.size + 1) v

/-- The cells of the containers in some values, as often as they occur. -/
def forest (h : Heap) (vs : Multiset Value) : Multiset Cell := vs.bind h.tree

variable {h h' : Heap} {v v' : Value} {depth : Nat}

theorem box?_of_contents? {c : Contents} (hc : h.contents? v = some c) : v.box? ≠ none := by
  cases v with
  | array r | tuple r | dict r => simp [Value.box?]
  | _ => exact nomatch hc

theorem contents?_of_box? (hv : v.box? = none) : h.contents? v = none := by
  cases hc : h.contents? v with
  | none => rfl
  | some c => exact absurd hv (box?_of_contents? hc)

theorem inside_of_box? (hv : v.box? = none) : h.inside v = [] := by
  rw [inside, contents?_of_box? hv]
  rfl

theorem knows_of_box? (hv : v.box? = none) : h.Knows v := fun h => absurd hv h

theorem Nests.succ (hn : h.Nests depth v) : h.Nests (depth + 1) v := by
  induction depth generalizing v with
  | zero =>
    intro i hi
    rw [inside_of_box? hn] at hi
    exact absurd hi List.not_mem_nil
  | succ depth ih => exact fun i hi => ih (hn i hi)

theorem Nests.mono {depth' : Nat} (hn : h.Nests depth v) (hd : depth ≤ depth') :
    h.Nests depth' v := by
  induction hd with
  | refl => exact hn
  | step _ ih => exact ih.succ

/-- If all of some values nest, they do so to one depth. -/
theorem exists_nests {vs : List Value} (hv : ∀ v ∈ vs, ∃ depth, h.Nests depth v) :
    ∃ depth, ∀ v ∈ vs, h.Nests depth v := by
  induction vs with
  | nil => exact ⟨0, nofun⟩
  | cons v vs ih =>
    obtain ⟨⟨d, hd⟩, hvs⟩ := List.forall_mem_cons.1 hv
    obtain ⟨d', hd'⟩ := ih hvs
    refine ⟨max d d', List.forall_mem_cons.2 ⟨hd.mono (Nat.le_max_left _ _), fun w hw => ?_⟩⟩
    exact (hd' w hw).mono (Nat.le_max_right _ _)

/-! ### How deep containers nest -/

/-- The value nests so deep and no less. -/
def Height (h : Heap) (depth : Nat) (v : Value) : Prop :=
  h.Nests depth v ∧ ∀ d, h.Nests d v → depth ≤ d

theorem exists_height (hv : ∃ depth, h.Nests depth v) : ∃ depth, h.Height depth v := by
  classical
  exact ⟨Nat.find hv, Nat.find_spec hv, fun d hd => Nat.find_min' hv hd⟩

/-- In a container of some height there is a value of the height below. -/
theorem exists_height_pred (hv : h.Height (depth + 2) v) : ∃ i, h.Height (depth + 1) i := by
  by_contra hne
  have lesser : h.Nests (depth + 1) v := by
    intro i hi
    obtain ⟨d, hd⟩ := exists_height ⟨depth + 1, hv.1 i hi⟩
    have hle : d ≤ depth + 1 := hd.2 _ (hv.1 i hi)
    have hd' : d ≠ depth + 1 := fun h => hne ⟨i, h ▸ hd⟩
    exact hd.1.mono (by omega)
  exact absurd (hv.2 _ lesser) (by omega)

theorem exists_height_of_le {k : Nat} (hv : h.Height (depth + 1) v) (hk : k ≤ depth) :
    ∃ u, h.Height (k + 1) u := by
  induction depth generalizing v with
  | zero => exact ⟨v, by rwa [Nat.le_zero.1 hk]⟩
  | succ depth ih =>
    obtain rfl | hk := Nat.eq_or_lt_of_le hk
    · exact ⟨v, hv⟩
    · obtain ⟨i, hi⟩ := exists_height_pred hv
      exact ih hi (by omega)

/-- The cells of the heap. -/
def cells (h : Heap) : Finset Cell :=
  (Finset.range h.arrays.size).image (⟨.array, ·⟩) ∪ (Finset.range h.tuples.size).image (⟨.tuple, ·⟩) ∪
    (Finset.range h.dicts.size).image (⟨.dict, ·⟩)

theorem card_cells_le (h : Heap) : h.cells.card ≤ h.size := by
  unfold cells size
  refine (Finset.card_union_le _ _).trans (Nat.add_le_add ((Finset.card_union_le _ _).trans ?_) ?_)
  · exact Nat.add_le_add (Finset.card_image_le.trans_eq (Finset.card_range _))
      (Finset.card_image_le.trans_eq (Finset.card_range _))
  · exact Finset.card_image_le.trans_eq (Finset.card_range _)

/-- A container is in the heap exactly if its cell is. -/
theorem mem_cells_iff {c : Cell} (hv : v.box? = some c) :
    c ∈ h.cells ↔ h.contents? v ≠ none := by
  cases v <;> simp only [Value.box?, Option.some.injEq, reduceCtorEq] at hv
  all_goals
    subst hv
    simp [cells, contents?, Ref.cell, Arena.get?, Arena.size]

/-- Containers nest no deeper than there are containers. -/
theorem nests_size (hv : ∃ depth, h.Nests depth v) : h.Nests (h.size + 1) v := by
  obtain ⟨H, hH⟩ := exists_height hv
  refine hH.1.mono ?_
  by_contra hlt
  -- the values of the heights between two and that of `v` have cells of their own
  have each : ∀ k, ∃ c, k < h.size + 1 → ∃ u, u.box? = some c ∧ h.Height (k + 2) u ∧ c ∈ h.cells := by
    intro k
    by_cases hk : k < h.size + 1
    · obtain ⟨d, rfl⟩ : ∃ d, H = d + 1 := ⟨H - 1, by omega⟩
      obtain ⟨u, hu⟩ := exists_height_of_le (k := k + 1) hH (by omega)
      cases hc : h.contents? u with
      | none =>
        have shallow : h.Nests 1 u := fun i hi => by simp [inside, hc] at hi
        exact absurd (hu.2 1 shallow) (by omega)
      | some x =>
        obtain ⟨c, hb⟩ := Option.ne_none_iff_exists'.1 (box?_of_contents? hc)
        exact ⟨c, fun _ => ⟨u, hb, hu, (mem_cells_iff hb).2 (by simp [hc])⟩⟩
    · exact ⟨⟨.array, 0⟩, fun h => absurd h hk⟩
  choose cell hcell using each
  have card : (Finset.range (h.size + 1)).card ≤ h.cells.card := by
    refine Finset.card_le_card_of_injOn cell (fun k hk => ?_) fun k hk l hl heq => ?_
    · obtain ⟨u, -, -, hc⟩ := hcell k (Finset.mem_range.1 hk)
      exact hc
    · obtain ⟨u, hu, hk, -⟩ := hcell k (Finset.mem_range.1 hk)
      obtain ⟨u', hu', hl, -⟩ := hcell l (Finset.mem_range.1 hl)
      obtain rfl := Value.eq_of_box? (heq ▸ hu) hu'
      have := hk.2 _ hl.1
      have := hl.2 _ hk.1
      omega
  rw [Finset.card_range] at card
  have := card_cells_le h
  omega

/-! ### The tree of a value -/

theorem treeTo_of_box? (hv : v.box? = none) : h.treeTo depth v = 0 := by
  cases depth with
  | zero => rfl
  | succ depth => simp [treeTo, hv, inside_of_box? hv]

theorem treeTo_succ (hn : h.Nests depth v) : h.treeTo (depth + 1) v = h.treeTo depth v := by
  induction depth generalizing v with
  | zero => exact treeTo_of_box? hn
  | succ depth ih =>
    rw [treeTo, treeTo, Multiset.bind_congr fun i hi => ih (hn i (Multiset.mem_coe.1 hi))]

/-- The tree of a container has its cell at the root and the trees of what is inside below. -/
theorem tree_eq (hs : h.Sound) (v : Value) :
    h.tree v = ↑v.box?.toList + h.forest ↑(h.inside v) := by
  have hn := nests_size (hs.nests v)
  rw [tree, ← treeTo_succ hn, treeTo]
  rfl

theorem mem_tree_of_box? {c : Cell} (hs : h.Sound) (hv : v.box? = some c) : c ∈ h.tree v := by
  rw [tree_eq hs, hv]
  exact Multiset.mem_add.2 (.inl (by simp))

theorem tree_of_box? (hv : v.box? = none) : h.tree v = 0 := treeTo_of_box? hv

@[simp] theorem forest_zero : h.forest 0 = 0 := rfl

@[simp] theorem forest_cons (vs : Multiset Value) :
    h.forest (v ::ₘ vs) = h.tree v + h.forest vs := Multiset.cons_bind _ _ _

@[simp] theorem forest_add (vs ws : Multiset Value) :
    h.forest (vs + ws) = h.forest vs + h.forest ws := Multiset.add_bind _ _ _

@[simp] theorem forest_singleton (v : Value) : h.forest {v} = h.tree v := Multiset.singleton_bind _ _

theorem mem_forest {c : Cell} {vs : Multiset Value} :
    c ∈ h.forest vs ↔ ∃ v ∈ vs, c ∈ h.tree v := Multiset.mem_bind

theorem forest_mono {vs ws : Multiset Value} (hle : vs ≤ ws) : h.forest vs ≤ h.forest ws := by
  obtain ⟨us, rfl⟩ := Multiset.le_iff_exists_add.1 hle
  rw [forest_add]
  exact Multiset.le_add_right _ _

theorem tree_le_forest {vs : Multiset Value} (hv : v ∈ vs) : h.tree v ≤ h.forest vs := by
  rw [← forest_singleton]
  exact forest_mono (Multiset.singleton_le.2 hv)

theorem tree_le_of_mem_inside {i : Value} (hs : h.Sound) (hi : i ∈ h.inside v) :
    h.tree i ≤ h.tree v := by
  rw [tree_eq hs v]
  exact (tree_le_forest (Multiset.mem_coe.2 hi)).trans (Multiset.le_add_left _ _)

/-- What occurs in the tree of a value nests no deeper than it. -/
theorem Nests.of_mem_tree {c : Cell} (hs : h.Sound) (hn : h.Nests depth v) (hc : c ∈ h.tree v)
    (hv' : v'.box? = some c) : h.Nests depth v' := by
  induction depth generalizing v with
  | zero =>
    rw [tree_of_box? hn] at hc
    exact absurd hc (Multiset.notMem_zero c)
  | succ depth ih =>
    rw [tree_eq hs, Multiset.mem_add] at hc
    obtain hc | hc := hc
    · rw [Multiset.mem_coe, Option.mem_toList] at hc
      rwa [Value.eq_of_box? hv' hc]
    · obtain ⟨i, hi, hc⟩ := mem_forest.1 hc
      exact (ih (hn i (Multiset.mem_coe.1 hi)) hc).succ

/-- No container is inside itself. -/
theorem not_mem_tree_of_mem_inside {c : Cell} {i : Value} (hs : h.Sound) (hv : v.box? = some c)
    (hi : i ∈ h.inside v) : c ∉ h.tree i := by
  intro hc
  obtain ⟨depth, hd⟩ := exists_height (hs.nests v)
  cases depth with
  | zero => exact absurd (hd.1.symm.trans hv) (by simp)
  | succ depth => exact absurd (hd.2 _ ((hd.1 i hi).of_mem_tree hs hc hv)) (by omega)

/-- The tree of a value of the heap is in the heap. -/
theorem mem_cells_of_mem_tree {c : Cell} (hs : h.Sound) (hk : h.Knows v) (hc : c ∈ h.tree v) :
    c ∈ h.cells := by
  obtain ⟨depth, hn⟩ := hs.nests v
  induction depth generalizing v with
  | zero =>
    rw [tree_of_box? hn] at hc
    exact absurd hc (Multiset.notMem_zero c)
  | succ depth ih =>
    rw [tree_eq hs, Multiset.mem_add] at hc
    obtain hc | hc := hc
    · rw [Multiset.mem_coe, Option.mem_toList] at hc
      exact (mem_cells_iff hc).2 (hk (by rw [hc]; exact Option.some_ne_none c))
    · obtain ⟨i, hi, hc⟩ := mem_forest.1 hc
      have hi := Multiset.mem_coe.1 hi
      exact ih (hs.knows v i hi) hc (hn i hi)

/-! ### Heaps with more containers -/

section Extends

variable (he : h.Extends h')

include he

theorem Extends.contents? (hk : h.Knows v) : h'.contents? v = h.contents? v := by
  cases hc : h.contents? v with
  | some c => exact he v c hc
  | none =>
    have hb : v.box? = none := by
      by_contra hb
      exact hk hb hc
    exact contents?_of_box? hb

theorem Extends.inside (hk : h.Knows v) : h'.inside v = h.inside v := by
  rw [Heap.inside, Heap.inside, he.contents? hk]

theorem Extends.knows (hk : h.Knows v) : h'.Knows v := fun hb => by
  rw [he.contents? hk]
  exact hk hb

theorem Extends.nests (hs : h.Sound) (hk : h.Knows v) (hn : h.Nests depth v) :
    h'.Nests depth v := by
  induction depth generalizing v with
  | zero => exact hn
  | succ depth ih =>
    intro i hi
    rw [he.inside hk] at hi
    exact ih (hs.knows v i hi) (hn i hi)

theorem Extends.tree (hs : h.Sound) (hs' : h'.Sound) (hk : h.Knows v) : h'.tree v = h.tree v := by
  obtain ⟨depth, hn⟩ := hs.nests v
  induction depth generalizing v with
  | zero => rw [tree_of_box? hn, tree_of_box? hn]
  | succ depth ih =>
    rw [tree_eq hs', tree_eq hs, he.inside hk]
    refine congrArg _ (Multiset.bind_congr fun i hi => ?_)
    have hi := Multiset.mem_coe.1 hi
    exact ih (hs.knows v i hi) (hn i hi)

theorem Extends.forest (hs : h.Sound) (hs' : h'.Sound) {vs : Multiset Value}
    (hk : ∀ v ∈ vs, h.Knows v) : h'.forest vs = h.forest vs :=
  Multiset.bind_congr fun v hv => he.tree hs hs' (hk v hv)

theorem Extends.cells : h.cells ⊆ h'.cells := by
  intro c hc
  obtain ⟨v, hv⟩ : ∃ v : Value, v.box? = some c := by
    obtain ⟨kind, index⟩ := c
    cases kind <;> simp [Heap.cells] at hc
    · exact ⟨.array ⟨index⟩, rfl⟩
    · exact ⟨.tuple ⟨index⟩, rfl⟩
    · exact ⟨.dict ⟨index⟩, rfl⟩
  rw [mem_cells_iff hv] at hc ⊢
  rwa [he.contents? fun _ => hc]

end Extends

/-! ### New containers -/

/-- One new container with some values in it. -/
structure Adds (h h' : Heap) (v : Value) (items : List Value) : Prop where
  others : ∀ u, u ≠ v → h'.contents? u = h.contents? u
  absent : h.contents? v = none
  present : h'.contents? v ≠ none
  holds : h'.inside v = items

/-- Some values whose containers are new, and are in no other value nor twice in one. -/
structure Fresh (h h' : Heap) (vs : Multiset Value) : Prop where
  sound : h'.Sound
  grown : h.Extends h'
  knows : ∀ v ∈ vs, h'.Knows v
  nodup : (h'.forest vs).Nodup
  new : ∀ c ∈ h'.forest vs, c ∉ h.cells

namespace Adds

variable {items : List Value} (ha : h.Adds h' v items)

include ha

theorem grown : h.Extends h' := by
  intro u c hc
  have hu : u ≠ v := by
    rintro rfl
    rw [ha.absent] at hc
    exact nomatch hc
  rw [ha.others u hu, hc]

theorem sound (hs : h.Sound) (hk : ∀ i ∈ items, h.Knows i) : h'.Sound := by
  have he := ha.grown
  constructor
  · intro u i hi
    by_cases hu : u = v
    · subst hu
      rw [ha.holds] at hi
      exact he.knows (hk i hi)
    · rw [inside, ha.others u hu] at hi
      exact he.knows (hs.knows u i hi)
  · intro u
    by_cases hu : u = v
    · subst hu
      obtain ⟨depth, hd⟩ : ∃ depth, ∀ i ∈ items, h.Nests depth i :=
        exists_nests fun i _ => hs.nests i
      refine ⟨depth + 1, fun i hi => ?_⟩
      rw [ha.holds] at hi
      exact he.nests hs (hk i hi) (hd i hi)
    · obtain ⟨depth, hd⟩ := hs.nests u
      refine ⟨depth + 1, fun i hi => ?_⟩
      rw [inside, ha.others u hu] at hi
      exact he.nests hs (hs.knows u i hi) (hd.succ i hi)

theorem tree (hs : h.Sound) (hk : ∀ i ∈ items, h.Knows i) :
    h'.tree v = ↑v.box?.toList + h.forest ↑items := by
  rw [tree_eq (ha.sound hs hk), ha.holds,
    ha.grown.forest hs (ha.sound hs hk) fun i hi => hk i (Multiset.mem_coe.1 hi)]

end Adds

namespace Fresh

variable {h₁ h₂ : Heap} {vs ws : Multiset Value}

theorem flat (hs : h.Sound) (hv : ∀ v ∈ vs, v.box? = none) : h.Fresh h vs := by
  have empty : h.forest vs = 0 := by
    rw [forest, Multiset.bind_congr fun v hm => tree_of_box? (hv v hm), Multiset.bind_zero]
  exact ⟨hs, .refl h, fun v hm => knows_of_box? (hv v hm), by simp [empty], by simp [empty]⟩

theorem append (h₁₂ : h.Fresh h₁ vs) (h₂₃ : h₁.Fresh h₂ ws) :
    h.Fresh h₂ (vs + ws) := by
  have same := h₂₃.grown.forest h₁₂.sound h₂₃.sound h₁₂.knows
  refine ⟨h₂₃.sound, h₁₂.grown.trans h₂₃.grown, fun v hv => ?_, ?_, fun c hc => ?_⟩
  · obtain hv | hv := Multiset.mem_add.1 hv
    · exact h₂₃.grown.knows (h₁₂.knows v hv)
    · exact h₂₃.knows v hv
  · rw [forest_add, same, Multiset.nodup_add]
    refine ⟨h₁₂.nodup, h₂₃.nodup, Multiset.disjoint_left.2 fun hc hc' => h₂₃.new _ hc' ?_⟩
    obtain ⟨v, hv, hc⟩ := mem_forest.1 hc
    exact mem_cells_of_mem_tree h₁₂.sound (h₁₂.knows v hv) hc
  · rw [forest_add, same, Multiset.mem_add] at hc
    obtain hc | hc := hc
    · exact h₁₂.new c hc
    · exact fun hc' => h₂₃.new c hc (h₁₂.grown.cells hc')

/-- A new container with values in it that are all new. -/
theorem container {items : List Value} (hf : h.Fresh h₁ ↑items)
    (ha : h₁.Adds h₂ v items) : h.Fresh h₂ {v} := by
  have hk : ∀ i ∈ items, h₁.Knows i := fun i hi => hf.knows i (Multiset.mem_coe.2 hi)
  have htree := ha.tree hf.sound hk
  have root : ∀ c, v.box? = some c → c ∉ h₁.cells := fun c hc hm =>
    (mem_cells_iff hc).1 hm ha.absent
  refine ⟨ha.sound hf.sound hk, hf.grown.trans ha.grown, ?_, ?_, ?_⟩
  · intro u hu
    rw [Multiset.mem_singleton.1 hu]
    exact fun _ => ha.present
  · rw [forest_singleton, htree, Multiset.nodup_add]
    refine ⟨?_, hf.nodup, Multiset.disjoint_left.2 fun hc hc' => ?_⟩
    · cases v.box? <;> simp
    · obtain ⟨i, hi, hc'⟩ := mem_forest.1 hc'
      exact root _ (Option.mem_toList.1 (Multiset.mem_coe.1 hc))
        (mem_cells_of_mem_tree hf.sound (hk i (Multiset.mem_coe.1 hi)) hc')
  · intro c hc
    rw [forest_singleton, htree, Multiset.mem_add] at hc
    obtain hc | hc := hc
    · exact fun hm => root c (Option.mem_toList.1 (Multiset.mem_coe.1 hc)) (hf.grown.cells hm)
    · exact hf.new c hc

end Fresh

theorem get?_push_of_ne {k : CellKind} {α : Type} (a : Arena k α) (x : α) {r : Ref k}
    (hr : r ≠ a.next) : (a.push x).get? r = a.get? r := by
  have hi : r.index ≠ a.cells.size := fun h => hr (congrArg Ref.mk h)
  simp only [Arena.get?, Arena.push, Array.getElem?_push, if_neg hi]

theorem adds_newArray (items : Array Value) (h : Heap) :
    h.Adds (newArray items h).2 (newArray items h).1 items.toList := by
  refine ⟨fun u hu => ?_, ?_, ?_, ?_⟩
  · cases u with
    | array r =>
      have hr : r ≠ h.arrays.next := fun heq => hu (congrArg Value.array heq)
      simp [newArray, contents?, get?_push_of_ne _ _ hr]
    | _ => rfl
  · simp [newArray, contents?, Arena.get?, Arena.next]
  · simp [newArray, contents?, Arena.get?_push_next]
  · simp [newArray, inside, contents?, Arena.get?_push_next]

theorem adds_newTuple (items : Array Value) (h : Heap) :
    h.Adds (newTuple items h).2 (newTuple items h).1 items.toList := by
  refine ⟨fun u hu => ?_, ?_, ?_, ?_⟩
  · cases u with
    | tuple r =>
      have hr : r ≠ h.tuples.next := fun heq => hu (congrArg Value.tuple heq)
      simp [newTuple, contents?, get?_push_of_ne _ _ hr]
    | _ => rfl
  · simp [newTuple, contents?, Arena.get?, Arena.next]
  · simp [newTuple, contents?, Arena.get?_push_next]
  · simp [newTuple, inside, contents?, Arena.get?_push_next]

theorem adds_newDict (entries : Dict Value) (h : Heap) :
    h.Adds (newDict entries h).2 (newDict entries h).1 entries.values := by
  refine ⟨fun u hu => ?_, ?_, ?_, ?_⟩
  · cases u with
    | dict r =>
      have hr : r ≠ h.dicts.next := fun heq => hu (congrArg Value.dict heq)
      simp [newDict, contents?, get?_push_of_ne _ _ hr]
    | _ => rfl
  · simp [newDict, contents?, Arena.get?, Arena.next]
  · simp [newDict, contents?, Arena.get?_push_next]
  · simp [newDict, inside, contents?, Arena.get?_push_next]

/-! ### Copies -/

/-- Copies of several values, made one after the other, have all of their containers to themselves. -/
theorem fresh_mapM {f : Value → StateM Heap Value}
    (hf : ∀ (v : Value) (h : Heap), h.Sound → h.Knows v → h.Nests depth v →
      h.Fresh (f v h).2 {(f v h).1})
    {l : List Value} (hs : h.Sound) (hk : ∀ v ∈ l, h.Knows v) (hn : ∀ v ∈ l, h.Nests depth v) :
    h.Fresh (l.mapM f h).2 ↑(l.mapM f h).1 := by
  induction l generalizing h with
  | nil => exact .flat hs nofun
  | cons v l ih =>
    obtain ⟨hkv, hkl⟩ := List.forall_mem_cons.1 hk
    obtain ⟨hnv, hnl⟩ := List.forall_mem_cons.1 hn
    have first := hf v h hs hkv hnv
    have others := ih first.sound (fun w hw => first.grown.knows (hkl w hw))
      fun w hw => first.grown.nests hs (hkl w hw) (hnl w hw)
    have hrun : (v :: l).mapM f h =
        ((f v h).1 :: (l.mapM f (f v h).2).1, (l.mapM f (f v h).2).2) := by
      rw [List.mapM_cons]
      rfl
    rw [hrun]
    exact first.append others

/-- The copy of a container is a new one, with copies of what is in it. -/
theorem adds_duplicateTo {c : Contents} (depth : Nat) (hc : h.contents? v = some c) :
    (c.items.mapM (duplicateTo depth) h).2.Adds (duplicateTo (depth + 1) v h).2
      (duplicateTo (depth + 1) v h).1 (c.items.mapM (duplicateTo depth) h).1 := by
  cases v with
  | array r =>
    obtain ⟨items, hr, rfl⟩ := Option.map_eq_some_iff.1 hc
    rw [duplicateTo_array hr]
    exact adds_newArray _ _
  | tuple r =>
    obtain ⟨items, hr, rfl⟩ := Option.map_eq_some_iff.1 hc
    rw [duplicateTo_tuple hr]
    exact adds_newTuple _ _
  | dict r =>
    obtain ⟨entries, hr, rfl⟩ := Option.map_eq_some_iff.1 hc
    have length := (mapM_mirrors (mirrors_duplicateTo depth) entries.values h).2.length_eq.symm
    have added := adds_newDict (entries.withValues (entries.values.mapM (duplicateTo depth) h).1)
      (entries.values.mapM (duplicateTo depth) h).2
    rw [(Dict.withValues_lists entries length).2] at added
    rw [duplicateTo_dict hr]
    exact added
  | _ => contradiction

theorem fresh_duplicateTo (hs : h.Sound) (hk : h.Knows v) (hn : h.Nests depth v) :
    h.Fresh (duplicateTo depth v h).2 {(duplicateTo depth v h).1} := by
  induction depth generalizing v h with
  | zero => exact .flat hs fun w hw => Multiset.mem_singleton.1 hw ▸ hn
  | succ depth ih =>
    cases hc : h.contents? v with
    | none =>
      have hb : v.box? = none := by
        by_contra hb
        exact hk hb hc
      rw [duplicateTo_of_none hc]
      exact .flat hs fun w hw => Multiset.mem_singleton.1 hw ▸ hb
    | some c =>
      have hi : h.inside v = c.items := by simp [inside, hc]
      have copies := fresh_mapM (fun v h hs hk hn => ih hs hk hn) hs
        (fun i hm => hs.knows v i (hi ▸ hm)) fun i hm => hn i (hi ▸ hm)
      exact copies.container (adds_duplicateTo depth hc)

/-- A copy has all of its containers to itself. -/
theorem fresh_duplicate (hs : h.Sound) (hk : h.Knows v) :
    h.Fresh (duplicate v h).2 {(duplicate v h).1} :=
  fresh_duplicateTo hs hk (nests_size (hs.nests v))

/-! ### Storing -/

/-- The value `v` is put into the container `u`, in place of what is not there any more. -/
structure Puts (h h' : Heap) (u v : Value) : Prop where
  others : ∀ w, w ≠ u → h'.contents? w = h.contents? w
  present : h'.contents? u = none ↔ h.contents? u = none
  inside_le : (↑(h'.inside u) : Multiset Value) ≤ v ::ₘ ↑(h.inside u)

namespace Puts

variable {u w : Value} {c : Cell} (hp : h.Puts h' u v)

include hp

theorem knows_iff : h'.Knows w ↔ h.Knows w := by
  unfold Knows
  by_cases hw : w = u
  · subst hw
    rw [ne_eq (h'.contents? w), hp.present]
  · rw [hp.others w hw]

theorem inside_of_ne (hw : w ≠ u) : h'.inside w = h.inside w := by
  rw [inside, inside, hp.others w hw]

theorem mem_inside {i : Value} (hi : i ∈ h'.inside u) : i = v ∨ i ∈ h.inside u := by
  have := Multiset.mem_of_le hp.inside_le (Multiset.mem_coe.2 hi)
  simpa using this

variable (hs : h.Sound) (hu : u.box? = some c)

include hs hu

/-- A value that does not have the container in it nests as before. -/
theorem nests (hw : c ∉ h.tree w) (hn : h.Nests depth w) : h'.Nests depth w := by
  induction depth generalizing w with
  | zero => exact hn
  | succ depth ih =>
    have hne : w ≠ u := by
      rintro rfl
      exact hw (by rw [tree_eq hs]; simp [hu])
    intro i hi
    rw [hp.inside_of_ne hne] at hi
    exact ih (fun hc => hw (Multiset.mem_of_le (tree_le_of_mem_inside hs hi) hc)) (hn i hi)

variable (hk : h.Knows v) (hv : c ∉ h.tree v)

include hk hv

theorem sound : h'.Sound := by
  -- what is in the container now has nothing of the container in it
  have apart {i : Value} (hi : i ∈ h'.inside u) : c ∉ h.tree i := by
    obtain rfl | hi := hp.mem_inside hi
    · exact hv
    · exact not_mem_tree_of_mem_inside hs hu hi
  have container : ∃ depth, h'.Nests depth u := by
    obtain ⟨depth, hd⟩ : ∃ depth, ∀ i ∈ h'.inside u, h.Nests depth i :=
      exists_nests fun i _ => hs.nests i
    exact ⟨depth + 1, fun i hi => hp.nests hs hu (apart hi) (hd i hi)⟩
  constructor
  · intro w i hi
    rw [hp.knows_iff]
    by_cases hw : w = u
    · subst hw
      obtain rfl | hi := hp.mem_inside hi
      · exact hk
      · exact hs.knows w i hi
    · rw [hp.inside_of_ne hw] at hi
      exact hs.knows w i hi
  · intro w
    obtain ⟨depth, hn⟩ := hs.nests w
    induction depth generalizing w with
    | zero => exact ⟨0, hn⟩
    | succ depth ih =>
      by_cases hw : w = u
      · exact hw ▸ container
      · obtain ⟨d, hd⟩ := exists_nests fun i hi => ih i (hn i (hp.inside_of_ne hw ▸ hi))
        exact ⟨d + 1, hd⟩

/-- A value that does not have the container in it is as before. -/
theorem tree (hw : c ∉ h.tree w) : h'.tree w = h.tree w := by
  have hs' := hp.sound hs hu hk hv
  obtain ⟨depth, hn⟩ := hs.nests w
  induction depth generalizing w with
  | zero => rw [tree_of_box? hn, tree_of_box? hn]
  | succ depth ih =>
    have hne : w ≠ u := by
      rintro rfl
      exact hw (by rw [tree_eq hs]; simp [hu])
    rw [tree_eq hs', tree_eq hs, hp.inside_of_ne hne]
    refine congrArg _ (Multiset.bind_congr fun i hi => ?_)
    have hi := Multiset.mem_coe.1 hi
    exact ih (fun hc => hw (Multiset.mem_of_le (tree_le_of_mem_inside hs hi) hc)) (hn i hi)

theorem forest {ws : Multiset Value} (hw : c ∉ h.forest ws) : h'.forest ws = h.forest ws :=
  Multiset.bind_congr fun w hm => hp.tree hs hu hk hv fun hc => hw (mem_forest.2 ⟨w, hm, hc⟩)

/-- The tree of the container has at most the tree of the value more. -/
theorem tree_container : h'.tree u ≤ h.tree u + h.tree v := by
  have hs' := hp.sound hs hu hk hv
  have apart : c ∉ h.forest ↑(h'.inside u) := by
    intro hc
    obtain ⟨i, hi, hc⟩ := mem_forest.1 hc
    obtain rfl | hi := hp.mem_inside (Multiset.mem_coe.1 hi)
    · exact hv hc
    · exact not_mem_tree_of_mem_inside hs hu hi hc
  have below := forest_mono (h := h) hp.inside_le
  rw [forest_cons, add_comm] at below
  rw [tree_eq hs', tree_eq hs u, hp.forest hs hu hk hv apart, add_assoc]
  exact add_le_add_right below _

omit hp hs hu hk hv in
theorem forest_le_of [DecidableEq Cell] {ws : Multiset Value}
    (hw : ∀ w ∈ ws, h'.tree w ≤ h.tree w + (h.tree w).count c • h.tree v) :
    h'.forest ws ≤ h.forest ws + (h.forest ws).count c • h.tree v := by
  induction ws using Multiset.induction with
  | empty => simp
  | cons w ws ih =>
    have first := hw w (Multiset.mem_cons_self w ws)
    have others := ih fun w' hm => hw w' (Multiset.mem_cons_of_mem hm)
    rw [forest_cons, forest_cons, Multiset.count_add, add_nsmul, add_add_add_comm]
    exact add_le_add first others

/-- The tree of any value has at most the tree of the new one more, as often as the container
occurs in it. -/
theorem tree_le [DecidableEq Cell] (w : Value) :
    h'.tree w ≤ h.tree w + (h.tree w).count c • h.tree v := by
  have hs' := hp.sound hs hu hk hv
  obtain ⟨depth, hn⟩ := hs.nests w
  induction depth generalizing w with
  | zero =>
    rw [tree_of_box? hn, tree_of_box? hn]
    simp
  | succ depth ih =>
    by_cases hw : w = u
    · subst hw
      have once : 1 ≤ (h.tree w).count c :=
        Multiset.one_le_count_iff_mem.2 (by rw [tree_eq hs]; simp [hu])
      refine (hp.tree_container hs hu hk hv).trans (add_le_add_right ?_ _)
      calc h.tree v = 1 • h.tree v := (one_nsmul _).symm
        _ ≤ (h.tree w).count c • h.tree v := nsmul_le_nsmul_left (Multiset.zero_le _) once
    · have below := forest_le_of fun i hi => ih i (hn i (Multiset.mem_coe.1 hi))
      rw [tree_eq hs', tree_eq hs w, hp.inside_of_ne hw, Multiset.count_add, add_nsmul, add_assoc]
      refine add_le_add_right (below.trans (add_le_add_right ?_ _)) _
      exact Multiset.le_add_left _ _

/-- If the container occurs in the trees of some values only once, these values and the new one have
the same containers together as before, or fewer. -/
theorem forest_le {ws : Multiset Value} (hn : (h.forest ws).Nodup) :
    h'.forest ws ≤ h.forest (v ::ₘ ws) := by
  classical
  have below := forest_le_of fun w (_ : w ∈ ws) => hp.tree_le hs hu hk hv w
  have once : (h.forest ws).count c ≤ 1 := Multiset.nodup_iff_count_le_one.1 hn c
  rw [forest_cons, add_comm]
  refine below.trans (add_le_add_right ?_ _)
  calc (h.forest ws).count c • h.tree v ≤ 1 • h.tree v := nsmul_le_nsmul_left (Multiset.zero_le _) once
    _ = h.tree v := one_nsmul _

end Puts

end Heap
end Rewind
