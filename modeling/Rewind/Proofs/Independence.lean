/-
A copy is a value of its own.

A copy reads as the original does, at every place and to every depth, with the same functions,
blueprints, objects and coroutines in it, and none of its containers is the original's.  Whatever is
done to the containers of the one, the other goes on reading as it did.

* `Heap.Whole` — a value that is in the heap with all that is in it, and whose containers nest;
* `Heap.Image`, `Heap.image` — what is in a value, down to the values that are no containers;
* `image_duplicate`, `newly_duplicate` — a copy has the same image, and all of its containers are new;
* `World.textTo`, `World.Matches` — the text of a value to any depth, and two values that read the same;
* `Heap.Reworks` — containers are changed in place, one after the other;
* `copy_independent` — the copy of a value matches it, shares nothing with it, and neither sees what is
  done to the other.
-/
import Rewind.World
import Rewind.Proofs.Footprint

namespace Rewind

namespace Heap

/-! ### Values that are whole -/

/-- The value is no container or one of this heap, and so are all that are in it, which nest. -/
inductive Whole (h : Heap) : Value → Prop
  | intro {v : Value} (known : h.Knows v) (items : ∀ i ∈ h.inside v, Whole h i) : Whole h v

variable {h h' : Heap} {u v v' : Value} {depth n : Nat}

namespace Within

theorem trans (hu : h.Within v u) (hv : h.Within v' v) : h.Within v' u := by
  induction hu with
  | self => exact hv
  | inside _ hi ih => exact .inside ih hi

/-- What is in a value is the value, or is in something in it. -/
theorem cases_head (hu : h.Within v u) : u = v ∨ ∃ i ∈ h.inside v, h.Within i u := by
  induction hu with
  | self => exact .inl rfl
  | inside hu hi ih =>
    obtain rfl | ⟨j, hj, hw⟩ := ih
    · exact .inr ⟨_, hi, .self⟩
    · exact .inr ⟨j, hj, .inside hw hi⟩

/-- The same is in a value if nothing in it changes. -/
theorem congr (hsame : ∀ u, h.Within v u → h'.contents? u = h.contents? u) (hu : h'.Within v u) :
    h.Within v u := by
  induction hu with
  | self => exact .self
  | inside _ hi ih =>
    rw [Heap.inside, hsame _ ih] at hi
    exact .inside ih hi

end Within

namespace Whole

theorem known (hv : h.Whole v) : h.Knows v := by
  cases hv with
  | intro known _ => exact known

theorem items (hv : h.Whole v) : ∀ i ∈ h.inside v, h.Whole i := by
  cases hv with
  | intro _ items => exact items

theorem of_box? (hv : v.box? = none) : h.Whole v :=
  .intro (knows_of_box? hv) fun i hi => by
    rw [inside_of_box? hv] at hi
    exact absurd hi List.not_mem_nil

theorem nests (hv : h.Whole v) : ∃ depth, h.Nests depth v := by
  induction hv with
  | intro _ _ ih =>
    obtain ⟨depth, hd⟩ := exists_nests ih
    exact ⟨depth + 1, hd⟩

theorem within (hv : h.Whole v) (hu : h.Within v u) : h.Whole u := by
  induction hu with
  | self => exact hv
  | inside _ hi ih => exact ih.items _ hi

/-- What is whole stays so if nothing in it changes. -/
theorem congr (hv : h.Whole v) (hsame : ∀ u, h.Within v u → h'.contents? u = h.contents? u) :
    h'.Whole v := by
  induction hv with
  | @intro v known _ ih =>
    have here : h'.contents? v = h.contents? v := hsame v .self
    refine .intro (fun hb => here ▸ known hb) fun i hi => ?_
    rw [Heap.inside, here] at hi
    exact ih i hi fun u hu => hsame u (hu.trans (.inside .self hi))

/-- The containers of a value nest as before if nothing in it changes. -/
theorem nests_congr (hn : h.Nests depth v)
    (hsame : ∀ u, h.Within v u → h'.contents? u = h.contents? u) : h'.Nests depth v := by
  induction depth generalizing v with
  | zero => exact hn
  | succ depth ih =>
    intro i hi
    rw [Heap.inside, hsame v .self] at hi
    exact ih (hn i hi) fun u hu => hsame u (hu.trans (.inside .self hi))

/-- Nothing in a whole value changes in a heap with more containers. -/
theorem extends_same (hv : h.Whole v) (he : h.Extends h') (u : Value) (hu : h.Within v u) :
    h'.contents? u = h.contents? u := he.contents? (hv.within hu).known

theorem mono (hv : h.Whole v) (he : h.Extends h') : h'.Whole v := hv.congr (hv.extends_same he)

end Whole

/-! ### What is in a value -/

/-- What is in a value, down to the values that are no containers. -/
inductive Image where
  | flat (v : Value)
  | container (kind : ValueKind) (keys : List String) (items : List Image)

/-- What is in a value, down to a depth. -/
def imageTo (h : Heap) : (depth : Nat) → Value → Image
  | 0, v => .flat v
  | depth + 1, v =>
    match h.contents? v with
    | none => .flat v
    | some c => .container c.kind c.keys (c.items.map (imageTo h depth))

/-- What is in a value.  Containers that nest do so no deeper than there are containers. -/
def image (h : Heap) (v : Value) : Image := h.imageTo (h.size + 1) v

theorem imageTo_eq (hn : h.Nests depth v) (hd : depth ≤ n) : h.imageTo n v = h.imageTo depth v := by
  induction depth generalizing n v with
  | zero =>
    cases n with
    | zero => rfl
    | succ n => simp only [imageTo, contents?_of_box? hn]
  | succ depth ih =>
    obtain ⟨n, rfl⟩ : ∃ k, n = k + 1 := ⟨n - 1, by omega⟩
    rw [imageTo, imageTo]
    cases hc : h.contents? v with
    | none => rfl
    | some c =>
      refine congrArg _ (List.map_congr_left fun i hi => ih (hn i ?_) (by omega))
      simpa [Heap.inside, hc] using hi

theorem imageTo_eq_image (hn : h.Nests depth v) : h.imageTo depth v = h.image v := by
  have deep : h.Nests (h.size + 1) v := nests_size ⟨depth, hn⟩
  obtain hd | hd := Nat.le_total depth (h.size + 1)
  · exact (imageTo_eq hn hd).symm
  · exact imageTo_eq deep hd

theorem image_flat (hv : h.contents? v = none) : h.image v = .flat v := by
  rw [image, imageTo, hv]

theorem image_container {c : Contents} (hv : h.Whole v) (hc : h.contents? v = some c) :
    h.image v = .container c.kind c.keys (c.items.map h.image) := by
  obtain ⟨depth, hn⟩ := hv.nests
  rw [← imageTo_eq_image hn.succ, imageTo, hc]
  refine congrArg _ (List.map_congr_left fun i hi => imageTo_eq_image (hn.succ i ?_))
  simpa [Heap.inside, hc] using hi

/-- A value has the same image if nothing in it changes. -/
theorem image_congr (hv : h.Whole v) (hsame : ∀ u, h.Within v u → h'.contents? u = h.contents? u) :
    h'.image v = h.image v := by
  have hv' := hv.congr hsame
  induction hv with
  | @intro v known items ih =>
    have here : h'.contents? v = h.contents? v := hsame v .self
    cases hc : h.contents? v with
    | none => rw [image_flat hc, image_flat (here.trans hc)]
    | some c =>
      have inner (i : Value) (hi : i ∈ c.items) : i ∈ h.inside v := by simpa [Heap.inside, hc] using hi
      rw [image_container (.intro known items) hc, image_container hv' (here.trans hc)]
      refine congrArg _ (List.map_congr_left fun i hi => ?_)
      refine ih i (inner i hi) (fun u hu => hsame u (hu.trans (.inside .self (inner i hi)))) ?_
      exact hv'.items i (by rw [Heap.inside, here]; exact inner i hi)

/-- Whole values that hold the same have the same image. -/
theorem image_mirrors (hv : h.Whole v) (hv' : h.Whole v') (hm : h.Mirrors v v') :
    h.image v' = h.image v := by
  induction hv generalizing v' with
  | @intro v known items ih =>
    cases hc : h.contents? v with
    | none =>
      obtain ⟨_ | depth, hm⟩ := hm
      · rw [show v = v' from hm]
      · obtain rfl | ⟨_, _, _, _, hc', _⟩ := hm
        · rfl
        · exact nomatch hc.symm.trans hc'
    | some c =>
      obtain ⟨kind, keys, here⟩ := c
      obtain ⟨items', hc', hi⟩ := hm.contents hc
      rw [image_container (.intro known items) hc, image_container hv' hc']
      have inner (i : Value) (hi : i ∈ here) : i ∈ h.inside v := by simpa [Heap.inside, hc] using hi
      have inner' (i : Value) (hi : i ∈ items') : i ∈ h.inside v' := by simpa [Heap.inside, hc'] using hi
      congr 1
      clear hc hc'
      -- item by item; what is inside is whole as the container is
      induction hi with
      | nil => rfl
      | cons hx _ ihl =>
        rw [List.map_cons, List.map_cons, ih _ (inner _ List.mem_cons_self)
          (hv'.items _ (inner' _ List.mem_cons_self)) hx, ihl
          (fun i hi => inner i (List.mem_cons_of_mem _ hi))
          fun i hi => inner' i (List.mem_cons_of_mem _ hi)]

/-! ### Copies -/

/-- The value is whole, and its containers were not there before. -/
structure Newly (h h' : Heap) (v : Value) : Prop where
  whole : h'.Whole v
  new : ∀ u, h'.Within v u → u.box? ≠ none → h.contents? u = none

namespace Newly

variable {h₁ h₂ : Heap}

theorem of_box? (hv : v.box? = none) : h.Newly h' v := by
  refine ⟨.of_box? hv, fun u hu hb => ?_⟩
  obtain rfl | ⟨i, hi, _⟩ := hu.cases_head
  · exact absurd hv hb
  · rw [inside_of_box? hv] at hi
    exact absurd hi List.not_mem_nil

theorem mono (hn : h.Newly h₁ v) (he : h₁.Extends h₂) : h.Newly h₂ v :=
  ⟨hn.whole.mono he, fun u hu => hn.new u (hu.congr (hn.whole.extends_same he))⟩

theorem before (hn : h₁.Newly h₂ v) (he : h.Extends h₁) : h.Newly h₂ v := by
  refine ⟨hn.whole, fun u hu hb => ?_⟩
  cases hc : h.contents? u with
  | none => rfl
  | some c => exact nomatch (hn.new u hu hb).symm.trans (he u c hc)

/-- A new container with values in it whose containers are new. -/
theorem container {items : List Value} (ha : h₁.Adds h₂ v items) (he : h.Extends h₁)
    (hi : ∀ i ∈ items, h.Newly h₁ i) : h.Newly h₂ v := by
  have inner (i : Value) (hm : i ∈ h₂.inside v) : h.Newly h₂ i := by
    rw [ha.holds] at hm
    exact (hi i hm).mono ha.grown
  refine ⟨.intro (fun _ => ha.present) fun i hm => (inner i hm).whole, fun u hu hb => ?_⟩
  obtain rfl | ⟨i, hm, hw⟩ := hu.cases_head
  · cases hc : h.contents? u with
    | none => rfl
    | some c => exact nomatch ha.absent.symm.trans (he u c hc)
  · exact (inner i hm).new u hw hb

end Newly

/-- Values are copied one after the other. -/
theorem newly_mapM {f : Value → StateM Heap Value}
    (hf : ∀ (v : Value) (h : Heap), h.Whole v → h.Nests depth v →
      h.Extends (f v h).2 ∧ h.Newly (f v h).2 (f v h).1)
    {l : List Value} (hw : ∀ v ∈ l, h.Whole v) (hn : ∀ v ∈ l, h.Nests depth v) :
    h.Extends (l.mapM f h).2 ∧ ∀ v' ∈ (l.mapM f h).1, h.Newly (l.mapM f h).2 v' := by
  induction l generalizing h with
  | nil => exact ⟨.refl h, nofun⟩
  | cons v l ih =>
    obtain ⟨hwv, hwl⟩ := List.forall_mem_cons.1 hw
    obtain ⟨hnv, hnl⟩ := List.forall_mem_cons.1 hn
    obtain ⟨he, first⟩ := hf v h hwv hnv
    have nests (w : Value) (hm : w ∈ l) : (f v h).2.Nests depth w :=
      Whole.nests_congr (hnl w hm) ((hwl w hm).extends_same he)
    obtain ⟨he', others⟩ := ih (fun w hm => (hwl w hm).mono he) nests
    have hrun : (v :: l).mapM f h =
        ((f v h).1 :: (l.mapM f (f v h).2).1, (l.mapM f (f v h).2).2) := by
      rw [List.mapM_cons]
      rfl
    rw [hrun]
    exact ⟨he.trans he', List.forall_mem_cons.2
      ⟨first.mono he', fun w hm => (others w hm).before he⟩⟩

theorem newly_duplicateTo (hv : h.Whole v) (hn : h.Nests depth v) :
    h.Extends (duplicateTo depth v h).2 ∧
      h.Newly (duplicateTo depth v h).2 (duplicateTo depth v h).1 := by
  induction depth generalizing v h with
  | zero => exact ⟨.refl h, .of_box? hn⟩
  | succ depth ih =>
    cases hc : h.contents? v with
    | none =>
      have hb : v.box? = none := by
        by_contra hb
        exact hv.known hb hc
      rw [duplicateTo_of_none hc]
      exact ⟨.refl h, .of_box? hb⟩
    | some c =>
      have hi : h.inside v = c.items := by simp [Heap.inside, hc]
      obtain ⟨he, hn⟩ := newly_mapM (fun v h hv hn => ih hv hn) (fun i hm => hv.items i (hi ▸ hm))
        fun i hm => hn i (hi ▸ hm)
      have added := adds_duplicateTo depth hc
      exact ⟨he.trans added.grown, .container added he hn⟩

/-- All containers of a copy are new. -/
theorem newly_duplicate (hv : h.Whole v) : h.Newly (duplicate v h).2 (duplicate v h).1 :=
  (newly_duplicateTo hv (nests_size hv.nests)).2

/-- A copy has the image of the original. -/
theorem image_duplicate (hv : h.Whole v) :
    (duplicate v h).2.image (duplicate v h).1 = h.image v := by
  have he := extends_duplicate v h
  rw [image_mirrors (hv.mono he) (newly_duplicate hv).whole (mirrors_duplicate v h),
    image_congr hv (hv.extends_same he)]

/-! ### Changes in place -/

/-- Containers of which `A` holds are changed in place, one after the other, in any way.  Meanwhile new
containers are made. -/
inductive Reworks (A : Value → Prop) : Heap → Heap → Prop
  | done (h : Heap) : Reworks A h h
  | array {h h' : Heap} (r : Ref .array) (f : Array Value → Array Value) (hr : A (.array r))
    (rest : Reworks A { h with arrays := h.arrays.modify r f } h') : Reworks A h h'
  | dict {h h' : Heap} (r : Ref .dict) (f : Dict Value → Dict Value) (hr : A (.dict r))
    (rest : Reworks A { h with dicts := h.dicts.modify r f } h') : Reworks A h h'
  | newArray {h h' : Heap} (items : Array Value) (rest : Reworks A (newArray items h).2 h') :
    Reworks A h h'
  | newTuple {h h' : Heap} (items : Array Value) (rest : Reworks A (newTuple items h).2 h') :
    Reworks A h h'
  | newDict {h h' : Heap} (entries : Dict Value) (rest : Reworks A (newDict entries h).2 h') :
    Reworks A h h'

namespace Reworks

variable {A : Value → Prop}

/-- Other containers stay as they are. -/
theorem kept (hr : Reworks A h h') {c : Contents} (hu : ¬ A u) (hc : h.contents? u = some c) :
    h'.contents? u = some c := by
  induction hr with
  | done => exact hc
  | @array h h' r f hr _ ih =>
    refine ih ?_
    rw [← hc]
    cases u with
    | array s =>
      -- only containers of `A` are changed, and this one is none
      have hne : s ≠ r := fun he => hu (he ▸ hr)
      simp only [contents?, Arena.get?_modify, if_neg hne]
    | _ => rfl
  | @dict h h' r f hr _ ih =>
    refine ih ?_
    rw [← hc]
    cases u with
    | dict s =>
      have hne : s ≠ r := fun he => hu (he ▸ hr)
      simp only [contents?, Arena.get?_modify, if_neg hne]
    | _ => rfl
  | newArray items _ ih => exact ih (extends_newArray items _ u c hc)
  | newTuple items _ ih => exact ih (extends_newTuple items _ u c hc)
  | newDict entries _ ih => exact ih (extends_newDict entries _ u c hc)

/-- A whole value none of whose containers is changed stays as it is. -/
theorem same (hr : Reworks A h h') (hv : h.Whole v)
    (ha : ∀ u, h.Within v u → u.box? ≠ none → ¬ A u) (u : Value) (hu : h.Within v u) :
    h'.contents? u = h.contents? u := by
  cases hc : h.contents? u with
  | some c => exact hr.kept (ha u hu (box?_of_contents? hc)) hc
  | none =>
    have hb : u.box? = none := by
      by_contra hb
      exact (hv.within hu).known hb hc
    exact contents?_of_box? hb

end Reworks

/-! ### Values with the same image -/

/-- Two whole values, each in a heap of its own, with the same image. -/
structure Agree (h h' : Heap) (v v' : Value) : Prop where
  whole : h.Whole v
  whole' : h'.Whole v'
  image : h'.image v' = h.image v

/-- Values with the same image are the same, or containers with the same keys and with items of the same
images. -/
theorem Agree.cases (ha : h.Agree h' v v') :
    (v' = v ∧ v.box? = none) ∨ ∃ kind keys items items',
      h.contents? v = some ⟨kind, keys, items⟩ ∧ h'.contents? v' = some ⟨kind, keys, items'⟩ ∧
        List.Forall₂ (h.Agree h') items items' := by
  obtain ⟨hv, hv', hi⟩ := ha
  cases hc : h.contents? v with
  | none =>
    rw [image_flat hc] at hi
    cases hc' : h'.contents? v' with
    | none =>
      rw [image_flat hc'] at hi
      refine .inl ⟨Image.flat.inj hi, ?_⟩
      -- a container that is known has contents
      by_contra hb
      exact hv.known hb hc
    | some c' =>
      rw [image_container hv' hc'] at hi
      exact nomatch hi
  | some c =>
    rw [image_container hv hc] at hi
    cases hc' : h'.contents? v' with
    | none =>
      rw [image_flat hc'] at hi
      exact nomatch hi
    | some c' =>
      rw [image_container hv' hc'] at hi
      obtain ⟨kind, keys, items⟩ := c
      obtain ⟨kind', keys', items'⟩ := c'
      obtain ⟨rfl, rfl, same⟩ := Image.container.inj hi
      refine .inr ⟨_, _, items, items', rfl, rfl, ?_⟩
      have inner (i : Value) (hm : i ∈ items) : h.Whole i :=
        hv.items i (by simpa [Heap.inside, hc] using hm)
      have inner' (i : Value) (hm : i ∈ items') : h'.Whole i :=
        hv'.items i (by simpa [Heap.inside, hc'] using hm)
      clear hi hc hc'
      -- the two lists of images are equal, so there are as many items, and they agree one by one
      induction items generalizing items' with
      | nil =>
        obtain rfl := List.map_eq_nil_iff.1 same
        exact .nil
      | cons i items ih =>
        obtain ⟨i', rest, rfl, hi, hr⟩ := List.map_eq_cons_iff.1 same
        obtain ⟨wi, wr⟩ := List.forall_mem_cons.1 inner
        obtain ⟨wi', wr'⟩ := List.forall_mem_cons.1 inner'
        exact .cons ⟨wi, wi', hi⟩ (ih rest hr wr wr')

theorem kind_of_contents? {c : Contents} (hc : h.contents? v = some c) : v.kind = c.kind := by
  cases v with
  | array r | tuple r | dict r =>
    obtain ⟨_, _, rfl⟩ := Option.map_eq_some_iff.1 hc
    rfl
  | _ => exact nomatch hc

theorem Agree.kind (ha : h.Agree h' v v') : v'.kind = v.kind := by
  obtain ⟨rfl, _⟩ | ⟨kind, keys, items, items', hc, hc', _⟩ := ha.cases
  · rfl
  · rw [kind_of_contents? hc, kind_of_contents? hc']

theorem Agree.inside (ha : h.Agree h' v v') :
    List.Forall₂ (h.Agree h') (h.inside v) (h'.inside v') := by
  obtain ⟨rfl, hb⟩ | ⟨kind, keys, items, items', hc, hc', hi⟩ := ha.cases
  · rw [inside_of_box? hb, inside_of_box? hb]
    exact .nil
  · simpa [Heap.inside, hc, hc'] using hi

/-- Values with the same images have such values at the same places. -/
theorem look_of_agree {vs vs' : List Value} (hvs : List.Forall₂ (h.Agree h') vs vs')
    (place : List Nat) : Option.Rel (h.Agree h') (h.look vs place) (h'.look vs' place) := by
  have get {vs vs' : List Value} (hvs : List.Forall₂ (h.Agree h') vs vs') (i : Nat) :
      Option.Rel (h.Agree h') vs[i]? vs'[i]? := by
    induction hvs generalizing i with
    | nil => exact .none
    | cons hv _ ih =>
      cases i with
      | zero => exact .some hv
      | succ i => exact ih i
  -- along the place, one container after another
  induction place generalizing vs vs' with
  | nil => exact .none
  | cons i place ih =>
    cases place with
    | nil => exact get hvs i
    | cons j place =>
      rw [look, look]
      have here := get hvs i
      revert here
      generalize vs[i]? = v?
      generalize vs'[i]? = v'?
      intro here
      cases here with
      | none => exact .none
      | some ha => exact ih ha.inside

end Heap

namespace World

variable {w : World} {h' : Heap} {v v' : Value}

/-- The plain text of a value, written out to any depth. -/
def textTo (w : World) (depth : Nat) (v : Value) : String :=
  Id.run (render (pure w) (fun _ texts => texts) (fun _ => pure none) depth v)

/-- The text of a container, given the texts of what is in it. -/
def containerText (kind : ValueKind) (keys parts : List String) : String :=
  match kind with
  | .array => "[" ++ ", ".intercalate parts ++ "]"
  | .tuple => tupleText parts
  | _ => "\x7b" ++ ", ".intercalate
      (List.zipWith (fun key part => "\"" ++ key ++ "\": " ++ part) keys parts) ++ "\x7d"

theorem textTo_container {kind : ValueKind} {keys : List String} {items : List Value}
    (hc : w.heap.contents? v = some ⟨kind, keys, items⟩) (depth : Nat) :
    w.textTo (depth + 1) v = containerText kind keys (items.map (w.textTo depth)) := by
  have texts (vs : List Value) : Id.run (vs.mapM
      (render (pure w) (fun _ texts => texts) (fun _ => pure none) depth)) =
      vs.map (w.textTo depth) := List.idRun_mapM
  cases v with
  | array r =>
    obtain ⟨a, ha, hc⟩ := Option.map_eq_some_iff.1 hc
    obtain ⟨rfl, rfl, rfl⟩ := Heap.Contents.mk.inj hc
    have here : w.heap.array r = a := by rw [Heap.array, Arena.get, ha]; rfl
    rw [containerText, ← texts, ← here]
    rfl
  | tuple r =>
    obtain ⟨a, ha, hc⟩ := Option.map_eq_some_iff.1 hc
    obtain ⟨rfl, rfl, rfl⟩ := Heap.Contents.mk.inj hc
    have here : w.heap.tuple r = a := by rw [Heap.tuple, Arena.get, ha]; rfl
    rw [containerText, ← texts, ← here]
    rfl
  | dict r =>
    obtain ⟨d, hd, hc⟩ := Option.map_eq_some_iff.1 hc
    obtain ⟨rfl, rfl, rfl⟩ := Heap.Contents.mk.inj hc
    have here : w.heap.dict r = d := by rw [Heap.dict, Arena.get, hd]; rfl
    let entry (e : String × Value) : Id String := do
      return "\"" ++ e.1 ++ "\": " ++
        (← render (pure w) (fun _ texts => texts) (fun _ => pure none) depth e.2)
    -- keys and values taken apart and put together again are the entries
    have parts : List.zipWith (fun key part => "\"" ++ key ++ "\": " ++ part) d.keys
        (d.values.map (w.textTo depth)) = Id.run (d.toList.mapM entry) := by
      rw [List.idRun_mapM, Dict.keys, Dict.values, List.map_map, List.zipWith_map, List.zipWith_self]
      rfl
    calc w.textTo (depth + 1) (.dict r)
        = "\x7b" ++ ", ".intercalate (Id.run (d.toList.mapM entry)) ++ "\x7d" := by
          rw [← here]
          rfl
      _ = _ := congrArg (fun parts => "\x7b" ++ ", ".intercalate parts ++ "\x7d") parts.symm
  | _ => contradiction

theorem textTo_of_box? (hv : v.box? = none) (depth : Nat) : w.textTo (depth + 1) v = w.flatText v := by
  cases v <;> first | rfl | exact nomatch hv

theorem elided_eq (v : Value) : elided v =
    match v.kind with
    | .array => "[...]"
    | .tuple => "(...)"
    | .dictionary => "\x7b...\x7d"
    | .object => "<...>"
    | _ => "..." := by
  cases v <;> rfl

/-- Nothing but the heap is looked at for the containers in a value, and for all else everything but
the heap. -/
theorem textTo_of_agree (ha : w.heap.Agree h' v v') (depth : Nat) :
    ({ w with heap := h' } : World).textTo depth v' = w.textTo depth v := by
  induction depth generalizing v v' with
  | zero =>
    show elided v' = elided v
    rw [elided_eq, elided_eq, ha.kind]
  | succ depth ih =>
    obtain ⟨rfl, hb⟩ | ⟨kind, keys, items, items', hc, hc', hi⟩ := ha.cases
    · rw [textTo_of_box? hb, textTo_of_box? hb]
      cases v' <;> rfl
    · rw [textTo_container hc, textTo_container (w := { w with heap := h' }) hc']
      refine congrArg _ ?_
      clear hc hc'
      induction hi with
      | nil => rfl
      | cons hx _ ihl => rw [List.map_cons, List.map_cons, ih hx, ihl]

/-- Two values, each in a world of its own, that read the same: they are of one kind, count both as true or
both as false, have the same keys and to any depth the same text, and are the same unless they are
containers. -/
structure Matches (w w' : World) (v v' : Value) : Prop where
  kind : v'.kind = v.kind
  truthy : w'.heap.truthy v' = w.heap.truthy v
  keys : (w'.heap.contents? v').map (·.keys) = (w.heap.contents? v).map (·.keys)
  text : ∀ depth, w'.textTo depth v' = w.textTo depth v
  shared : v.box? = none → v' = v

/-- Two values read the same at every place. -/
def ReadsAs (w w' : World) (v v' : Value) : Prop :=
  ∀ place, Option.Rel (w.Matches w') (w.heap.look [v] place) (w'.heap.look [v'] place)

/-- A container counts as true if there is something in it. -/
theorem truthy_of_contents? {h : Heap} {c : Heap.Contents} (hc : h.contents? v = some c) :
    h.truthy v = !c.items.isEmpty := by
  cases v with
  | array r =>
    obtain ⟨a, ha, rfl⟩ := Option.map_eq_some_iff.1 hc
    simp [Heap.truthy, Heap.array, Arena.get, ha]
  | tuple r =>
    obtain ⟨a, ha, rfl⟩ := Option.map_eq_some_iff.1 hc
    simp [Heap.truthy, Heap.tuple, Arena.get, ha]
  | dict r =>
    obtain ⟨d, hd, rfl⟩ := Option.map_eq_some_iff.1 hc
    simp [Heap.truthy, Heap.dict, Arena.get, hd, Dict.isEmpty, Dict.values, Dict.toList]
  | _ => contradiction

theorem matches_of_agree (ha : w.heap.Agree h' v v') :
    w.Matches ({ w with heap := h' } : World) v v' := by
  refine ⟨ha.kind, ?_, ?_, textTo_of_agree ha, fun hb => ?_⟩
  all_goals obtain ⟨rfl, hb'⟩ | ⟨kind, keys, items, items', hc, hc', hi⟩ := ha.cases
  · cases v' <;> first | rfl | exact nomatch hb'
  · rw [truthy_of_contents? hc, truthy_of_contents? (h := h') hc']
    cases hi <;> rfl
  · rw [Heap.contents?_of_box? hb', Heap.contents?_of_box? hb']
  · rw [hc, hc']
    rfl
  · rfl
  · exact absurd hb (Heap.box?_of_contents? hc)

theorem readsAs_of_agree (ha : w.heap.Agree h' v v') :
    w.ReadsAs ({ w with heap := h' } : World) v v' := fun place => by
  have agree := Heap.look_of_agree (.cons ha .nil) place
  revert agree
  generalize w.heap.look [v] place = u?
  generalize h'.look [v'] place = u'?
  intro agree
  cases agree with
  | none => exact .none
  | some hu => exact .some (matches_of_agree hu)

end World

open World

/-- The copy of a value reads as the value does, and no container is in both of them.  Whatever changes in
place, the value reads as before as long as none of its containers is changed, and so does its copy. -/
theorem copy_independent (w : World) (v : Value) (hv : w.heap.Whole v) :
    let v' := (Heap.duplicate v w.heap).1
    let w' : World := { w with heap := (Heap.duplicate v w.heap).2 }
    w.ReadsAs w' v v' ∧
    (∀ u, w'.heap.Within v' u → w'.heap.Within v u → u.box? = none) ∧
    ∀ (A : Value → Prop) (h : Heap), Heap.Reworks A w'.heap h →
      ((∀ u, A u → w'.heap.Within v u → u.box? = none) → w.ReadsAs { w' with heap := h } v v) ∧
      ((∀ u, A u → w'.heap.Within v' u → u.box? = none) → w.ReadsAs { w' with heap := h } v v') := by
  intro v' w'
  have old : w'.heap.Whole v := hv.mono (Heap.extends_duplicate v w.heap)
  have copy : w.heap.Newly w'.heap v' := Heap.newly_duplicate hv
  have same : w'.heap.image v = w.heap.image v :=
    Heap.image_congr hv (hv.extends_same (Heap.extends_duplicate v w.heap))
  have image : w'.heap.image v' = w.heap.image v := Heap.image_duplicate hv
  refine ⟨readsAs_of_agree ⟨hv, copy.whole, image⟩, fun u hu' hu => ?_, fun A h hr => ⟨?_, ?_⟩⟩
  · -- a container in both would be old and new
    by_contra hb
    have hu := hu.congr (hv.extends_same (Heap.extends_duplicate v w.heap))
    exact (hv.within hu).known hb (copy.new u hu' hb)
  · intro ha
    -- a change that meets no container of the old value leaves its image as it was
    have kept := hr.same old fun u hu hb hA => hb (ha u hA hu)
    exact readsAs_of_agree ⟨hv, old.congr kept, (Heap.image_congr old kept).trans same⟩
  · intro ha
    have kept := hr.same copy.whole fun u hu hb hA => hb (ha u hA hu)
    exact readsAs_of_agree ⟨hv, copy.whole.congr kept, (Heap.image_congr copy.whole kept).trans image⟩

/-- An array with a number, and a dictionary in which there is another array. -/
def packed : World where
  heap :=
    { arrays := ⟨#[#[.int 1, .dict ⟨0⟩], #[.int 2]]⟩
      dicts := ⟨#[.ofList [("k", .array ⟨1⟩)]]⟩ }

theorem whole_packed : packed.heap.Whole (.array ⟨0⟩) := by
  have inner : packed.heap.Whole (.array ⟨1⟩) :=
    .intro (fun _ => nofun) fun i hi => by
      obtain rfl := List.mem_singleton.1 hi
      exact .of_box? rfl
  have dict : packed.heap.Whole (.dict ⟨0⟩) :=
    .intro (fun _ => nofun) fun i hi => by
      obtain rfl := List.mem_singleton.1 hi
      exact inner
  refine .intro (fun _ => nofun) fun i hi => ?_
  obtain rfl | hi := List.mem_cons.1 hi
  · exact .of_box? rfl
  · obtain rfl := List.mem_singleton.1 hi
    exact dict

/-- The heap with a copy, after the inner array of the copy has got one more item. -/
def repacked : Heap :=
  let h := (Heap.duplicate (.array ⟨0⟩) packed.heap).2
  { h with arrays := h.arrays.modify ⟨2⟩ (·.push (.int 5)) }

theorem copy_independent_of_packed :
    packed.heap.Whole (.array ⟨0⟩) ∧
    packed.ReadsAs { packed with heap := (Heap.duplicate (.array ⟨0⟩) packed.heap).2 } (.array ⟨0⟩)
      (Heap.duplicate (.array ⟨0⟩) packed.heap).1 ∧
    packed.ReadsAs { packed with heap := repacked } (.array ⟨0⟩) (.array ⟨0⟩) ∧
    packed.text (.array ⟨0⟩) = "[1, \x7b\"k\": [2]\x7d]" ∧
    ({ packed with heap := repacked } : World).text (Heap.duplicate (.array ⟨0⟩) packed.heap).1 =
      "[1, \x7b\"k\": [2, 5]\x7d]" := by
  have copy := copy_independent packed _ whole_packed
  have dict : (Heap.duplicate (.array ⟨0⟩) packed.heap).2.Within
      (Heap.duplicate (.array ⟨0⟩) packed.heap).1 (.dict ⟨1⟩) :=
    .inside .self (List.mem_of_getElem? (i := 1) (by with_unfolding_all rfl))
  have inner : (Heap.duplicate (.array ⟨0⟩) packed.heap).2.Within
      (Heap.duplicate (.array ⟨0⟩) packed.heap).1 (.array ⟨2⟩) :=
    .inside dict (List.mem_of_getElem? (i := 0) (by with_unfolding_all rfl))
  refine ⟨whole_packed, copy.1, ?_, by decide +kernel, by decide +kernel⟩
  exact (copy.2.2 _ repacked (.array ⟨2⟩ (·.push (.int 5)) inner (.done _))).1 copy.2.1

end Rewind
