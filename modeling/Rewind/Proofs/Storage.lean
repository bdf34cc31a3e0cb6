/-
What the storages of a world hold.

Variables, attributes, defaults of parameters, results, slots of gather tasks and tapes are the
storages of values.  Some of them a program looks into: it may come upon the very containers that a
variable or an attribute holds.  Of the others it gets copies only, and the same is true of what an
evaluation has at hand: nobody else sees those containers.

* `Arena.total` — all values that the cells of an arena hold;
* `Guards` — no container is stored twice;
* `Heap.Shows` — a value that may be come upon, with no container in it that is out of sight;
* `Guards.move`, `Guards.grow`, `Guards.contain`, `Guards.put` — what storing and copying do.
-/
import Mathlib.Tactic.Abel
import Rewind.Proofs.Footprint

namespace Rewind

/-! ### Arenas and dictionaries -/

/-- What the items of a list hold, when one of them is changed. -/
theorem List.bind_modify {α β : Type} (f : α → Multiset β) (g : α → α) {l : List α} {i : Nat} {x : α}
    (h : l[i]? = some x) :
    (↑(l.modify i g) : Multiset α).bind f + f x = (↑l : Multiset α).bind f + f (g x) := by
  induction l generalizing i with
  | nil => simp at h
  | cons y l ih =>
    cases i with
    | zero =>
      obtain rfl : y = x := by simpa using h
      rw [List.modify_zero_cons, ← Multiset.cons_coe, ← Multiset.cons_coe, Multiset.cons_bind,
        Multiset.cons_bind]
      abel
    | succ i =>
      rw [List.modify_succ_cons, ← Multiset.cons_coe, ← Multiset.cons_coe, Multiset.cons_bind,
        Multiset.cons_bind, add_assoc, add_assoc, ih (by simpa using h)]

namespace Arena

variable {k : CellKind} {α : Type} {a : Arena k α} {r : Ref k} {x : α}

/-- What the cells hold together. -/
def total {β : Type} (f : α → Multiset β) (a : Arena k α) : Multiset β :=
  (↑a.cells.toList : Multiset α).bind f

variable {β : Type} (f : α → Multiset β)

theorem mem_cells (h : a.get? r = some x) : x ∈ a.cells.toList :=
  List.mem_of_getElem? ((Array.getElem?_toList).trans h)

theorem le_total (h : a.get? r = some x) : f x ≤ a.total f := by
  obtain ⟨rest, hr⟩ := Multiset.exists_cons_of_mem (Multiset.mem_coe.2 (mem_cells h))
  rw [total, hr, Multiset.cons_bind]
  exact Multiset.le_add_right _ _

theorem total_push (a : Arena k α) (x : α) : (a.push x).total f = a.total f + f x := by
  rw [total, push, Array.toList_push, ← Multiset.coe_add, Multiset.add_bind]
  simp [total]

theorem total_modify (g : α → α) (h : a.get? r = some x) :
    (a.modify r g).total f + f x = a.total f + f (g x) := by
  rw [total, modify, Array.toList_modify]
  exact List.bind_modify f g ((Array.getElem?_toList).trans h)

theorem modify_of_none (g : α → α) (h : a.get? r = none) : a.modify r g = a := by
  have hr : a.cells.size ≤ r.index := Array.getElem?_eq_none_iff.1 h
  obtain ⟨cells⟩ := a
  refine congrArg Arena.mk (Array.ext_getElem? fun i => ?_)
  rw [Array.getElem?_modify]
  split
  · rename_i hi
    rw [← hi, Array.getElem?_eq_none hr]
    rfl
  · rfl

/-- A change that adds no more than `d` to what a cell holds. -/
theorem total_modify_le {g : α → α} {d : Multiset β}
    (h : ∀ x, a.get? r = some x → f (g x) ≤ f x + d) : (a.modify r g).total f ≤ a.total f + d := by
  cases hx : a.get? r with
  | none =>
    rw [modify_of_none g hx]
    exact Multiset.le_add_right _ _
  | some x =>
    have total := total_modify f g hx
    refine le_of_add_le_add_right (a := f x) ?_
    rw [total, add_assoc, add_comm d]
    exact add_le_add_right (h x hx) _

/-- A change that takes `d` out of what a cell holds. -/
theorem total_modify_add_le {g : α → α} {d : Multiset β} (hx : a.get? r = some x)
    (h : f (g x) + d ≤ f x) : (a.modify r g).total f + d ≤ a.total f := by
  have total := total_modify f g hx
  refine le_of_add_le_add_right (a := f x) ?_
  rw [add_right_comm, total, add_assoc]
  exact add_le_add_right h _

/-- Cells that hold no more than before. -/
theorem total_modify_le_self {g : α → α} (h : ∀ x, a.get? r = some x → f (g x) ≤ f x) :
    (a.modify r g).total f ≤ a.total f := by
  simpa using total_modify_le f (d := 0) fun x hx => by simpa using h x hx

end Arena

namespace Dict

variable {α : Type}

theorem mem_values_of_get? {d : Dict α} {key : String} {v : α} (h : d.get? key = some v) :
    v ∈ d.values := by
  unfold get? at h
  split at h
  · obtain ⟨e, he, rfl⟩ := Option.map_eq_some_iff.1 h
    exact List.mem_map_of_mem (List.mem_of_getElem? ((Array.getElem?_toList).trans he))
  · contradiction

theorem coe_values (d : Dict α) :
    (↑d.values : Multiset α) = (↑d.entries.toList : Multiset (String × α)).bind ({·.2}) := by
  rw [Multiset.bind_singleton]
  rfl

/-- Setting a key brings in the new value, and may drop another one. -/
theorem values_set_le (d : Dict α) (key : String) (v : α) :
    (↑(d.set key v).values : Multiset α) ≤ v ::ₘ ↑d.values := by
  rw [coe_values, coe_values]
  unfold set exchange
  split
  · rename_i i hi
    dsimp only
    rw [Array.toList_modify]
    cases he : d.entries.toList[i]? with
    | none =>
      rw [List.modify_eq_self (List.getElem?_eq_none_iff.1 he)]
      exact Multiset.le_cons_self _ _
    | some e =>
      refine (Multiset.le_add_right _ {e.2}).trans
        ((List.bind_modify (fun e : String × α => ({e.2} : Multiset α)) _ he).trans_le ?_)
      rw [add_comm]
      rfl
  · dsimp only
    rw [Array.toList_push, ← Multiset.coe_add, Multiset.add_bind, add_comm]
    rfl

end Dict

/-! ### What is stored once -/

namespace Heap

/-- Nothing is stored twice: no container is in the trees of two of the values, and none twice in the
tree of one.  What is `hidden` is not looked into; what is `opened` may be. -/
structure Guards (h : Heap) (opened hidden : Multiset Value) : Prop where
  sound : h.Sound
  knows : ∀ v ∈ opened + hidden, h.Knows v
  nodup : (h.forest (opened + hidden)).Nodup

/-- A value that may be come upon: no container in it is out of sight. -/
structure Shows (h : Heap) (hidden : Multiset Value) (u : Value) : Prop where
  knows : h.Knows u
  apart : Disjoint (h.tree u) (h.forest hidden)

/-- What was stored once still is, what could be come upon still can, and nothing goes out of sight or
changes there. -/
structure Passes (h : Heap) (hidden : Multiset Value) (h' : Heap) (opened' hidden' : Multiset Value) :
    Prop where
  guards : h'.Guards opened' hidden'
  shows : ∀ u, h.Shows hidden u → h'.Shows hidden' u
  knows : ∀ u, h.Knows u → h'.Knows u
  /-- A container that there was and that is out of sight was so before, and has the same in it. -/
  frozen : ∀ u x c, h.contents? u = some x → u.box? = some c → c ∈ h'.forest hidden' →
    c ∈ h.forest hidden ∧ h'.contents? u = some x

variable {h h' : Heap} {opened opened' hidden hidden' : Multiset Value} {u v : Value}

theorem Shows.mono (hu : h.Shows hidden u) (hle : hidden' ≤ hidden) : h.Shows hidden' u :=
  ⟨hu.knows, hu.apart.mono_right (forest_mono hle)⟩

theorem shows_of_box? (hu : u.box? = none) : h.Shows hidden u :=
  ⟨knows_of_box? hu, by simp [tree_of_box? hu]⟩

/-- What is in a value that may be come upon may be come upon. -/
theorem Shows.inside (hs : h.Sound) (hu : h.Shows hidden u) (hv : v ∈ h.inside u) :
    h.Shows hidden v :=
  ⟨hs.knows u v hv, hu.apart.mono_left (tree_le_of_mem_inside hs hv)⟩

namespace Guards

variable (hg : h.Guards opened hidden)
include hg

theorem apart : Disjoint (h.forest opened) (h.forest hidden) := by
  have hn := hg.nodup
  rw [forest_add] at hn
  exact (Multiset.nodup_add.1 hn).2.2

/-- What is stored where programs look may be come upon. -/
theorem shows (hv : v ∈ opened) : h.Shows hidden v :=
  ⟨hg.knows v (Multiset.mem_add.2 (.inl hv)), hg.apart.mono_left (tree_le_forest hv)⟩

/-- Values change their place, or are dropped.  Nothing goes out of sight. -/
theorem move (hle : opened' + hidden' ≤ opened + hidden) (hd : hidden' ≤ hidden) :
    h.Passes hidden h opened' hidden' :=
  ⟨⟨hg.sound, fun v hv => hg.knows v (Multiset.mem_of_le hle hv),
    Multiset.nodup_of_le (forest_mono hle) hg.nodup⟩, fun _ hu => hu.mono hd, fun _ hu => hu,
    fun _ _ _ hx _ hc => ⟨Multiset.mem_of_le (forest_mono hd) hc, hx⟩⟩

/-- A value that is dropped from what is out of sight may be come upon. -/
theorem shows_dropped {d : Multiset Value} (hd : v ::ₘ d ≤ hidden) : h.Shows d v := by
  have hn := Multiset.nodup_of_le (forest_mono (hd.trans (Multiset.le_add_left _ opened))) hg.nodup
  rw [forest_cons] at hn
  exact ⟨hg.knows v (Multiset.mem_add.2 (.inr (Multiset.mem_of_le hd (Multiset.mem_cons_self v d)))),
    (Multiset.nodup_add.1 hn).2.2⟩

/-- New containers, which nobody has a hold of, change nothing. -/
theorem extend (he : h.Extends h') (hs : h'.Sound) : h.Passes hidden h' opened hidden := by
  have forest {vs : Multiset Value} (hv : ∀ v ∈ vs, h.Knows v) := he.forest hg.sound hs hv
  refine ⟨⟨hs, fun v hv => he.knows (hg.knows v hv), ?_⟩, fun u hu => ⟨he.knows hu.knows, ?_⟩,
    fun _ hu => he.knows hu, fun u x c hx _ hc => ⟨?_, he u x hx⟩⟩
  · rw [forest hg.knows]
    exact hg.nodup
  · rw [he.tree hg.sound hs hu.knows,
      forest fun v hv => hg.knows v (Multiset.mem_add.2 (.inr hv))]
    exact hu.apart
  · rwa [forest fun v hv => hg.knows v (Multiset.mem_add.2 (.inr hv))] at hc

/-- Values come in whose containers are all new. -/
theorem grow {vs : Multiset Value} (hf : h.Fresh h' vs) :
    h.Passes hidden h' opened (hidden + vs) := by
  obtain ⟨guards, shows, knows, frozen⟩ := hg.extend hf.grown hf.sound
  -- what was there before has none of the new containers
  have old {v : Value} {c : Cell} (hk : h.Knows v) (hc : c ∈ h'.tree v) : c ∉ h'.forest vs := by
    rw [hf.grown.tree hg.sound hf.sound hk] at hc
    exact fun hc' => hf.new c hc' (mem_cells_of_mem_tree hg.sound hk hc)
  refine ⟨⟨hf.sound, fun v hv => ?_, ?_⟩, fun u hu => ⟨knows u hu.knows, ?_⟩, knows,
    fun u x c hx hu hc => ?_⟩
  · rw [← add_assoc, Multiset.mem_add] at hv
    exact hv.elim (guards.knows v) (hf.knows v)
  · rw [← add_assoc, forest_add, Multiset.nodup_add]
    refine ⟨guards.nodup, hf.nodup, Multiset.disjoint_left.2 fun hc => ?_⟩
    obtain ⟨v, hv, hc⟩ := mem_forest.1 hc
    exact old (hg.knows v hv) hc
  · rw [forest_add]
    refine Multiset.disjoint_left.2 fun hc hc' => ?_
    obtain hc' | hc' := Multiset.mem_add.1 hc'
    · exact Multiset.disjoint_left.1 (shows u hu).apart hc hc'
    · exact old hu.knows hc hc'
  · rw [forest_add] at hc
    obtain hc | hc := Multiset.mem_add.1 hc
    · exact frozen u x c hx hu hc
    · exact absurd ((mem_cells_iff hu).2 (by simp [hx])) (hf.new c hc)

end Guards

/-- A new container takes the place of the values that go into it. -/
theorem Guards.contain {items : List Value} (ha : h.Adds h' v items)
    (hg : h.Guards opened (hidden + ↑items)) :
    h.Passes (hidden + ↑items) h' opened (hidden + {v}) := by
  have hk : ∀ i ∈ items, h.Knows i := fun i hi =>
    hg.knows i (by simp [hi])
  obtain ⟨guards, shows, knows, frozen⟩ := hg.extend ha.grown (ha.sound hg.sound hk)
  have htree : h'.tree v = ↑v.box?.toList + h'.forest ↑items := by
    rw [ha.tree hg.sound hk, ha.grown.forest hg.sound guards.sound fun i hi =>
      hk i (Multiset.mem_coe.1 hi)]
  -- the cell of the container is new
  have root {u : Value} {c : Cell} (hu : h.Knows u) (hc : c ∈ h'.tree u)
      (hr : c ∈ (↑v.box?.toList : Multiset Cell)) : False := by
    rw [ha.grown.tree hg.sound guards.sound hu] at hc
    exact (mem_cells_iff (Option.mem_toList.1 (Multiset.mem_coe.1 hr))).1
      (mem_cells_of_mem_tree hg.sound hu hc) ha.absent
  refine ⟨⟨guards.sound, fun u hu => ?_, ?_⟩, fun u hu => ⟨knows u hu.knows, ?_⟩, knows,
    fun u x c hx hu hc => ?_⟩
  · rw [← add_assoc, Multiset.mem_add, Multiset.mem_singleton] at hu
    obtain hu | rfl := hu
    · exact guards.knows u (by rw [← add_assoc]; exact Multiset.mem_add.2 (.inl hu))
    · exact fun _ => ha.present
  · have hn := guards.nodup
    rw [← add_assoc, forest_add] at hn ⊢
    rw [forest_singleton, htree, ← add_assoc, add_right_comm, Multiset.nodup_add]
    refine ⟨hn, ?_, Multiset.disjoint_left.2 fun hc hr => ?_⟩
    · cases v.box? <;> simp
    · rw [← forest_add, mem_forest] at hc
      obtain ⟨u, hu, hc⟩ := hc
      exact root (hg.knows u (by rwa [← add_assoc])) hc hr
  · have apart := (shows u hu).apart
    rw [forest_add] at apart ⊢
    rw [forest_singleton, htree]
    refine Multiset.disjoint_left.2 fun hc hc' => ?_
    obtain hc' | hc' := Multiset.mem_add.1 hc'
    · exact Multiset.disjoint_left.1 apart hc (Multiset.mem_add.2 (.inl hc'))
    · obtain hr | hc' := Multiset.mem_add.1 hc'
      · exact root hu.knows hc hr
      · exact Multiset.disjoint_left.1 apart hc (Multiset.mem_add.2 (.inr hc'))
  · refine frozen u x c hx hu ?_
    rw [forest_add, forest_singleton, htree, Multiset.mem_add, Multiset.mem_add] at hc
    rw [forest_add, Multiset.mem_add]
    refine hc.imp_right fun hc => hc.resolve_left fun hr => ?_
    obtain rfl := Value.eq_of_box? hu (Option.mem_toList.1 (Multiset.mem_coe.1 hr))
    exact absurd (ha.absent.symm.trans hx) (Option.some_ne_none x).symm

/-- A value is put into a container that may be come upon. -/
theorem Guards.put (hp : h.Puts h' u v) (hu : h.Shows (hidden + {v}) u)
    (hb : u.box? ≠ none) (hg : h.Guards opened (hidden + {v})) :
    h.Passes (hidden + {v}) h' opened hidden := by
  classical
  obtain ⟨c, hc⟩ := Option.ne_none_iff_exists'.1 hb
  have here : c ∈ h.tree u := by
    rw [tree_eq hg.sound]
    simp [hc]
  have out := Multiset.disjoint_left.1 hu.apart here
  rw [forest_add, Multiset.mem_add, forest_singleton, not_or] at out
  obtain ⟨out, hv⟩ := out
  have hk : h.Knows v := hg.knows v (by simp)
  have nodup := hg.nodup
  rw [← add_assoc, forest_add, Multiset.nodup_add, forest_singleton] at nodup
  have hidden_eq : h'.forest hidden = h.forest hidden := hp.forest hg.sound hc hk hv out
  refine ⟨⟨hp.sound hg.sound hc hk hv, fun w hw => ?_, ?_⟩, fun w hw => ⟨?_, ?_⟩, fun w hw => ?_,
    fun w x d hx hd hm => ?_⟩
  · exact hp.knows_iff.2 (hg.knows w (by rw [← add_assoc]; exact Multiset.mem_add.2 (.inl hw)))
  · refine Multiset.nodup_of_le (hp.forest_le hg.sound hc hk hv nodup.1) ?_
    rw [← Multiset.singleton_add, add_comm, add_assoc]
    exact hg.nodup
  · exact hp.knows_iff.2 hw.knows
  · rw [hidden_eq]
    have apart := hw.apart
    rw [forest_add] at apart
    refine Multiset.disjoint_left.2 fun hx hx' => ?_
    have hx := Multiset.mem_of_le (hp.tree_le hg.sound hc hk hv w) hx
    obtain hx | hx := Multiset.mem_add.1 hx
    · exact Multiset.disjoint_left.1 apart hx (Multiset.mem_add.2 (.inl hx'))
    · refine Multiset.disjoint_left.1 nodup.2.2 ?_ (Multiset.mem_of_mem_nsmul hx)
      rw [forest_add]
      exact Multiset.mem_add.2 (.inr hx')
  · exact hp.knows_iff.2 hw
  · rw [hidden_eq] at hm
    refine ⟨Multiset.mem_of_le (forest_mono (Multiset.le_add_right _ _)) hm, ?_⟩
    -- the container that has changed is in sight
    have other : w ≠ u := by
      rintro rfl
      obtain rfl : c = d := Option.some.inj (hc.symm.trans hd)
      exact out hm
    exact (hp.others w other).trans hx

end Heap

end Rewind
