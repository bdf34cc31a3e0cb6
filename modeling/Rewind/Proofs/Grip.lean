/-
What is held of values.

An evaluation has values of its own, whose containers nobody else can reach, and it has come upon
others, which it may read and whose containers it may change.  It may also just know a value, that it
can copy.  All that is held at one time is a hand.  What a hand allows does not depend on what else is
held, so every step can be looked at with an arbitrary hand besides.

* `Standing` — what may be held of a coroutine, which nothing takes back;
* `Grip`, `Hand` — what is held of a value, and of several;
* `Heap.Grants` — no container is stored twice, and the hand has what it says;
* `Grants.mono`, `Grants.deposit`, `Grants.grow`, `Grants.contain`, `Grants.put` — what storing and
  copying do to a hand;
* `Hand.Gives` — a hand can be taken for another one.
-/
import Rewind.Proofs.Storage

namespace Rewind

/-- What may be held of a coroutine: it is there, or it has joined a loop. -/
inductive Standing where
  | there (r : Ref .coroutine)
  | joined (r : Ref .coroutine)

/-- What is held of a value: it is `owned` if nobody else has its containers, `seen` if it may be come
upon and none of its containers is owned by anybody, `known` if it is in the heap, and `flat` if it is
no container.  Besides, it may be held of a coroutine how it stands, and of all containers that they
are as they were in the heap of a `snapshot`. -/
inductive Grip where
  | owned (v : Value)
  | seen (v : Value)
  | known (v : Value)
  | flat (v : Value)
  | stands (s : Standing)
  | snapshot (h : Heap)

namespace Grip

/-- The values a grip owns. -/
def own : Grip → Multiset Value
  | owned v => {v}
  | _ => 0

/-- What is held is a value that is no container. -/
def Free : Grip → Prop
  | owned v | seen v | known v | flat v => v.box? = none
  | _ => False

@[simp] theorem own_owned (v : Value) : (owned v).own = {v} := rfl
@[simp] theorem own_seen (v : Value) : (seen v).own = 0 := rfl
@[simp] theorem own_known (v : Value) : (known v).own = 0 := rfl
@[simp] theorem own_flat (v : Value) : (flat v).own = 0 := rfl
@[simp] theorem own_stands (s : Standing) : (stands s).own = 0 := rfl
@[simp] theorem own_snapshot (h : Heap) : (snapshot h).own = 0 := rfl

end Grip

/-- What is held at one time. -/
abbrev Hand := Multiset Grip

namespace Hand

/-- The values a hand owns. -/
def own (H : Hand) : Multiset Value := H.bind Grip.own

@[simp] theorem own_zero : own 0 = 0 := rfl

@[simp] theorem own_add (H K : Hand) : own (H + K) = own H + own K := Multiset.add_bind _ _ _

@[simp] theorem own_singleton (g : Grip) : own {g} = g.own := Multiset.singleton_bind _ _

theorem own_mono {H K : Hand} (h : H ≤ K) : own H ≤ own K := by
  obtain ⟨L, rfl⟩ := Multiset.le_iff_exists_add.1 h
  rw [own_add]
  exact Multiset.le_add_right _ _

/-- Values that are owned one by one. -/
def ofValues (vs : Multiset Value) : Hand := vs.map .owned

@[simp] theorem ofValues_zero : ofValues 0 = 0 := rfl

@[simp] theorem ofValues_add (vs ws : Multiset Value) :
    ofValues (vs + ws) = ofValues vs + ofValues ws := Multiset.map_add _ _ _

@[simp] theorem ofValues_singleton (v : Value) : ofValues {v} = {.owned v} := Multiset.map_singleton _ _

@[simp] theorem ofValues_cons (v : Value) (vs : Multiset Value) :
    ofValues (v ::ₘ vs) = {.owned v} + ofValues vs := by
  rw [ofValues, Multiset.map_cons, Multiset.singleton_add]
  rfl

@[simp] theorem own_ofValues (vs : Multiset Value) : own (ofValues vs) = vs := by
  induction vs using Multiset.induction with
  | empty => rfl
  | cons v vs ih => rw [ofValues_cons, own_add, ih, own_singleton, Grip.own_owned, Multiset.singleton_add]

theorem ofValues_mono {vs ws : Multiset Value} (h : vs ≤ ws) : ofValues vs ≤ ofValues ws :=
  Multiset.map_le_map h

end Hand

namespace Heap

/-- The containers of the heap `h₀` are all there, and those that are out of sight are as they were. -/
structure Stays (h₀ h : Heap) (hidden : Multiset Value) : Prop where
  knows : ∀ u, h₀.Knows u → h.Knows u
  same : ∀ u x c, h₀.contents? u = some x → u.box? = some c → c ∈ h.forest hidden →
    h.contents? u = some x

theorem Stays.refl (h : Heap) (hidden : Multiset Value) : h.Stays h hidden :=
  ⟨fun _ hu => hu, fun _ _ _ hx _ _ => hx⟩

/-- What a grip says is so, while the values `hidden` are owned and the coroutines stand as the `facts`
are. -/
def Good (h : Heap) (facts : Standing → Prop) (hidden : Multiset Value) : Grip → Prop
  | .owned _ => True
  | .seen v => h.Shows hidden v
  | .known v => h.Knows v
  | .flat v => v.box? = none
  | .stands s => facts s
  | .snapshot h₀ => h₀.Stays h hidden

/-- No container is stored twice, in what is `opened` or what the hand owns, and the hand has what it
says. -/
structure Grants (h : Heap) (facts : Standing → Prop) (opened : Multiset Value) (H : Hand) :
    Prop where
  guards : h.Guards opened H.own
  good : ∀ g ∈ H, h.Good facts H.own g

variable {h h' : Heap} {facts facts' : Standing → Prop} {opened opened' hidden hidden' : Multiset Value} {H K : Hand} {u v : Value}
  {g : Grip}

theorem Good.mono (hg : h.Good facts hidden g) (hle : hidden' ≤ hidden) : h.Good facts hidden' g := by
  cases g with
  | seen u => exact Shows.mono hg hle
  | snapshot h₀ =>
    exact ⟨hg.knows, fun u x c hx hu hc => hg.same u x c hx hu (Multiset.mem_of_le (forest_mono hle) hc)⟩
  | _ => exact hg

/-- What was held of the containers of a heap is held of them later. -/
theorem Stays.passes {h₀ : Heap} (hs : h₀.Stays h hidden)
    (hp : h.Passes hidden h' opened' hidden') : h₀.Stays h' hidden' := by
  refine ⟨fun u hu => hp.knows u (hs.knows u hu), fun u x c hx hu hc => ?_⟩
  have there : h.Knows u := hs.knows u fun _ => by simp [hx]
  obtain ⟨y, hy⟩ := Option.ne_none_iff_exists'.1 (there (by simp [hu]))
  obtain ⟨before, after⟩ := hp.frozen u y c hy hu hc
  rw [after, ← hy]
  exact hs.same u x c hx hu before

theorem Passes.good (hp : h.Passes hidden h' opened' hidden') (hg : h.Good facts hidden g) :
    h'.Good facts hidden' g := by
  cases g with
  | owned v => trivial
  | seen v => exact hp.shows v hg
  | known v => exact hp.knows v hg
  | flat v => exact hg
  | stands s => exact hg
  | snapshot h₀ => exact Stays.passes hg hp

namespace Grants

variable (hg : h.Grants facts opened H)

include hg

theorem sound : h.Sound := hg.guards.sound

/-- What the hand holds in any way is in the heap. -/
theorem knows (hv : .owned v ∈ H ∨ .seen v ∈ H ∨ .known v ∈ H ∨ .flat v ∈ H) : h.Knows v := by
  obtain hv | hv | hv | hv := hv
  · refine hg.guards.knows v (Multiset.mem_add.2 (.inr (Multiset.mem_bind.2 ⟨_, hv, ?_⟩)))
    exact Multiset.mem_singleton_self v
  · exact Shows.knows (hg.good _ hv)
  · exact hg.good _ hv
  · exact knows_of_box? (hg.good _ hv)

theorem shows (hv : .seen v ∈ H) : h.Shows H.own v := hg.good _ hv

/-- Something passes from one heap and hand to others. -/
theorem pass (hp : h.Passes H.own h' opened' K.own)
    (hK : ∀ g ∈ K, g ∈ H ∨ h'.Good facts K.own g) : h'.Grants facts opened' K :=
  ⟨hp.guards, fun g hm => (hK g hm).elim (fun hm => hp.good (hg.good g hm)) id⟩

/-- Something is dropped. -/
theorem mono (ho : opened' ≤ opened) (hK : K ≤ H) : h.Grants facts opened' K :=
  hg.pass (hg.guards.move (add_le_add ho (Hand.own_mono hK)) (Hand.own_mono hK)) fun _ hm =>
    .inl (Multiset.mem_of_le hK hm)

/-- Something more is held that owns nothing. -/
theorem add (hown : g.own = 0) (hgood : h.Good facts H.own g) : h.Grants facts opened (H + {g}) := by
  have own : (H + {g}).own = H.own := by rw [Hand.own_add, Hand.own_singleton, hown, add_zero]
  refine ⟨own ▸ hg.guards, fun g' hm => ?_⟩
  rw [own]
  obtain hm | hm := Multiset.mem_add.1 hm
  · exact hg.good g' hm
  · rwa [Multiset.mem_singleton.1 hm]

/-- A value without containers can be held in every way. -/
theorem add_flat (hv : g.Free) : h.Grants facts opened (H + {g}) := by
  cases g with
  | owned v =>
    have fresh : h.Fresh h {v} := .flat hg.sound fun w hw => Multiset.mem_singleton.1 hw ▸ hv
    have hp := hg.guards.grow fresh
    refine hg.pass (K := H + {.owned v}) (by simpa using hp) fun g hm => ?_
    obtain hm | hm := Multiset.mem_add.1 hm
    · exact .inl hm
    · rw [Multiset.mem_singleton.1 hm]
      exact .inr trivial
  | seen v => exact hg.add rfl (shows_of_box? hv)
  | known v => exact hg.add rfl (knows_of_box? hv)
  | flat v => exact hg.add rfl hv
  | stands s => exact hv.elim
  | snapshot h₀ => exact hv.elim

/-- What is stored where programs look may be come upon. -/
theorem look (hv : v ∈ opened) : h.Grants facts opened (H + {.seen v}) := hg.add rfl (hg.guards.shows hv)

/-- A look at the containers as they are. -/
theorem capture : h.Grants facts opened (H + {.snapshot h}) := hg.add rfl (.refl h _)

/-- Other facts, among them those that are held. -/
theorem of_facts (hf : ∀ s, .stands s ∈ H → facts s → facts' s) : h.Grants facts' opened H :=
  ⟨hg.guards, fun g hm => by
    cases g with
    | stands s => exact hf s hm (hg.good _ hm)
    | _ => exact hg.good _ hm⟩

/-- What is held can be known as well. -/
theorem learn (hv : h.Knows v) : h.Grants facts opened (H + {.known v}) := hg.add rfl hv

end Grants

/-- An owned value is stored where programs look. -/
theorem Grants.deposit (hg : h.Grants facts opened (H + {.owned v})) (ho : opened' ≤ opened + {v}) :
    h.Grants facts opened' H := by
  have own : (H + {.owned v}).own = H.own + {v} := by simp
  refine hg.pass (hg.guards.move ?_ ?_) fun g hm => .inl (Multiset.mem_add.2 (.inl hm))
  · rw [own, add_comm H.own, ← add_assoc]
    exact add_le_add_left ho _
  · rw [own]
    exact Multiset.le_add_right _ _

/-- An owned value is shown. -/
theorem Grants.reveal (hg : h.Grants facts opened (H + {.owned v})) : h.Grants facts opened (H + {.seen v}) := by
  have own : (H + {.owned v}).own = v ::ₘ H.own := by
    simp [add_comm H.own, ← Multiset.singleton_add]
  have less := hg.mono le_rfl (Multiset.le_add_right H {.owned v})
  exact less.add rfl (hg.guards.shows_dropped own.ge)

/-- New containers, which nobody has a hold of, change nothing. -/
theorem Grants.extend (hg : h.Grants facts opened H) (he : h.Extends h') (hs : h'.Sound) :
    h'.Grants facts opened H := hg.pass (hg.guards.extend he hs) fun _ hm => .inl hm

/-- Values come in whose containers are all new. -/
theorem Grants.grow {vs : Multiset Value} (hg : h.Grants facts opened H) (hf : h.Fresh h' vs) :
    h'.Grants facts opened (H + Hand.ofValues vs) := by
  have hp := hg.guards.grow hf
  refine hg.pass (K := H + Hand.ofValues vs) (by simpa using hp) fun g hm => ?_
  obtain hm | hm := Multiset.mem_add.1 hm
  · exact .inl hm
  · obtain ⟨v, -, rfl⟩ := Multiset.mem_map.1 hm
    exact .inr trivial

/-- A new container takes the place of the values that go into it. -/
theorem Grants.contain {items : List Value} (ha : h.Adds h' v items)
    (hg : h.Grants facts opened (H + Hand.ofValues ↑items)) : h'.Grants facts opened (H + {.owned v}) := by
  have hp : h.Passes (H.own + ↑items) h' opened (H.own + {v}) :=
    Guards.contain ha (by simpa using hg.guards)
  refine hg.pass (K := H + {.owned v}) (by simpa using hp) fun g hm => ?_
  obtain hm | hm := Multiset.mem_add.1 hm
  · exact .inl (Multiset.mem_add.2 (.inl hm))
  · rw [Multiset.mem_singleton.1 hm]
    exact .inr trivial

/-- A value is put into a container that may be come upon. -/
theorem Grants.put (hp : h.Puts h' u v) (hb : u.box? ≠ none)
    (hg : h.Grants facts opened (H + {.seen u} + {.owned v})) : h'.Grants facts opened H := by
  have own : (H + {.seen u} + {.owned v}).own = H.own + {v} := by simp
  have shown : h.Shows (H.own + {v}) u := own ▸ hg.shows (by simp)
  have passed : h.Passes (H.own + {v}) h' opened H.own := Guards.put hp shown hb (own ▸ hg.guards)
  refine hg.pass (by rwa [own]) fun g hm => .inl ?_
  exact Multiset.mem_add.2 (.inl (Multiset.mem_add.2 (.inl hm)))

/-- What is in an owned value is owned in its place. -/
theorem Grants.descend (hg : h.Grants facts opened (H + {.owned u})) (hv : v ∈ h.inside u) :
    h.Grants facts opened (H + {.owned v}) := by
  have below : h.forest {v} ≤ h.forest {u} := by
    rw [forest_singleton, forest_singleton]
    exact tree_le_of_mem_inside hg.sound hv
  have trees : h.forest (H + {.owned v}).own ≤ h.forest (H + {.owned u}).own := by
    simp only [Hand.own_add, Hand.own_singleton, Grip.own_owned, forest_add]
    exact add_le_add_right below _
  refine ⟨⟨hg.sound, fun w hw => ?_, ?_⟩, fun g hm => ?_⟩
  · simp only [Hand.own_add, Hand.own_singleton, Grip.own_owned, ← add_assoc, Multiset.mem_add,
      Multiset.mem_singleton] at hw
    obtain hw | rfl := hw
    · refine hg.guards.knows w ?_
      simp only [Hand.own_add, ← add_assoc]
      exact Multiset.mem_add.2 (.inl (Multiset.mem_add.2 hw))
    · exact hg.sound.knows u w hv
  · refine Multiset.nodup_of_le ?_ hg.guards.nodup
    rw [forest_add, forest_add]
    exact add_le_add_right trees _
  · obtain hm | hm := Multiset.mem_add.1 hm
    · have good := hg.good g (Multiset.mem_add.2 (.inl hm))
      cases g with
      | seen w => exact ⟨good.knows, good.apart.mono_right trees⟩
      | snapshot h₀ =>
        exact ⟨good.knows, fun w x c hx hw hc => good.same w x c hx hw (Multiset.mem_of_le trees hc)⟩
      | _ => exact good
    · rw [Multiset.mem_singleton.1 hm]
      trivial

end Heap

/-! ### Taking one hand for another -/

namespace Hand

/-- Whoever has the hand `H` has the hand `K` as well. -/
def Gives (H K : Hand) : Prop :=
  ∀ (h : Heap) (facts : Standing → Prop) (opened : Multiset Value) (R : Hand),
    h.Grants facts opened (R + H) → h.Grants facts opened (R + K)

namespace Gives

variable {H K L : Hand} {g : Grip} {v : Value}

theorem refl (H : Hand) : H.Gives H := fun _ _ _ _ hg => hg

theorem trans (h : H.Gives K) (h' : K.Gives L) : H.Gives L :=
  fun _ _ _ _ hg => h' _ _ _ _ (h _ _ _ _ hg)

theorem of_le (h : K ≤ H) : H.Gives K := fun _ _ _ _ hg => hg.mono le_rfl (add_le_add_right h _)

theorem of_eq (h : H = K) : H.Gives K := h ▸ refl H

theorem drop (H : Hand) : H.Gives 0 := of_le (Multiset.zero_le _)

/-- Nothing is needed besides. -/
theorem frame (F : Hand) (h : H.Gives K) : (F + H).Gives (F + K) := fun heap facts opened R hg => by
  rw [← add_assoc] at hg ⊢
  exact h heap facts opened (R + F) hg

theorem reveal (v : Value) : Gives {.owned v} {.seen v} := fun _ _ _ _ hg => hg.reveal

/-- A value without containers costs nothing. -/
theorem flat (hv : g.Free) : H.Gives (H + {g}) := fun _ _ _ _ hh => by
  rw [← add_assoc]
  exact hh.add_flat hv

/-- A value without containers can be had for nothing. -/
theorem of_flat (hv : g.Free) : H.Gives {g} :=
  (drop H).trans ((flat hv).trans (of_eq (zero_add _)))

/-- A value that is held as no container can be owned as well. -/
theorem unflat (v : Value) : Gives {.flat v} ({.flat v} + {.owned v}) := fun h facts opened R hh => by
  have none : v.box? = none := hh.good (.flat v) (by simp)
  rw [← add_assoc]
  exact hh.add_flat none

/-- Something that owns nothing, and is so because of the hand. -/
theorem gain (hown : g.own = 0)
    (hgood : ∀ (h : Heap) (facts : Standing → Prop) (opened : Multiset Value) (R : Hand),
      h.Grants facts opened (R + H) → h.Good facts (R + H).own g) : H.Gives (H + {g}) :=
  fun h facts opened R hh => by
    rw [← add_assoc]
    exact hh.add hown (hgood h facts opened R hh)

/-- What owns nothing can be held twice. -/
theorem copy (hown : g.own = 0) (hm : g ∈ H) : H.Gives (H + {g}) :=
  gain hown fun _ _ _ _ hh => hh.good g (Multiset.mem_add.2 (.inr hm))

/-- What is held in any way is known. -/
theorem know (hm : .owned v ∈ H ∨ .seen v ∈ H ∨ .known v ∈ H ∨ .flat v ∈ H) :
    H.Gives (H + {.known v}) := gain rfl fun _ _ _ _ hh => hh.knows (by
      simpa only [Multiset.mem_add] using hm.imp .inr (.imp .inr (.imp .inr .inr)))

end Gives

end Hand

end Rewind
