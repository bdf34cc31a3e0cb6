/-
A dictionary is the list of its entries.

The index of a dictionary leads from each key to the place of its entry and nowhere else.  No key
occurs twice then, a look-up finds what stands in the list of the entries, and setting a key changes
the list in one place.  A dictionary that is set, copied and emptied, however often, goes through the
same lists of entries as if there were no index.

* `Dict.Indexed` — the index of a dictionary leads to its entries;
* `Dict.Step`, `Dict.Step.onDict` — what is done to a dictionary;
* `Dict.Step.onEntries` — the same done to a list of entries;
* `Dict.Represents` — a dictionary answers as a list of entries does;
* `steps_on_entries` — the steps of a dictionary, one after the other.
-/
import Mathlib.Data.List.Nodup
import Rewind.Proofs.Copying
import Rewind.Settings.Datum

namespace Rewind

/-! ### Lists of entries -/

section Lists

variable {α : Type} {entries : List (String × α)} {key : String} {v : α}

/-- In a list in which no key occurs twice every entry is found. -/
theorem lookup_eq_some_iff (hn : (entries.map (·.1)).Nodup) :
    entries.lookup key = some v ↔ (key, v) ∈ entries := by
  induction entries with
  | nil => simp
  | cons e rest ih =>
    obtain ⟨k, u⟩ := e
    rw [List.map_cons, List.nodup_cons] at hn
    by_cases hk : key = k
    · subst hk
      have absent : (key, v) ∉ rest := fun hm => hn.1 (List.mem_map_of_mem (f := (·.1)) hm)
      simp [absent, eq_comm]
    · simp [List.lookup_cons, beq_false_of_ne hk, ih hn.2, hk]

theorem lookup_eq_none_iff : entries.lookup key = none ↔ key ∉ entries.map (·.1) := by
  induction entries with
  | nil => simp
  | cons e rest ih =>
    obtain ⟨k, u⟩ := e
    by_cases hk : key = k
    · simp [hk]
    · simp [List.lookup_cons, beq_false_of_ne hk, ih, hk]

/-- A key that is not there goes behind all others. -/
theorem alter_of_not_mem (f : Option α → α) (hk : key ∉ entries.map (·.1)) :
    alter key f entries = entries ++ [(key, f none)] := by
  induction entries with
  | nil => rfl
  | cons e rest ih =>
    obtain ⟨k, u⟩ := e
    rw [List.map_cons, List.mem_cons, not_or] at hk
    rw [alter, if_neg (Ne.symm hk.1), ih hk.2]
    rfl

/-- A key that is there keeps its place. -/
theorem alter_of_getElem? {i : Nat} (hn : (entries.map (·.1)).Nodup)
    (hi : (entries[i]?).map (·.1) = some key) :
    alter key (fun _ => v) entries = entries.modify i fun e => (e.1, v) := by
  induction entries generalizing i with
  | nil => simp at hi
  | cons e rest ih =>
    obtain ⟨k, u⟩ := e
    rw [List.map_cons, List.nodup_cons] at hn
    cases i with
    | zero =>
      obtain rfl : k = key := by simpa using hi
      simp [alter]
    | succ i =>
      have hi : (rest[i]?).map (·.1) = some key := by simpa using hi
      have hk : k ≠ key := fun h => by
        subst h
        obtain ⟨e, he, rfl⟩ := Option.map_eq_some_iff.1 hi
        exact hn.1 (List.mem_map.2 ⟨e, List.mem_of_getElem? he, rfl⟩)
      rw [alter, if_neg hk, ih hn.2 hi, List.modify_succ_cons]

/-- Setting a key leaves the keys in their places. -/
theorem keys_alter (f : Option α → α) (entries : List (String × α)) :
    (alter key f entries).map (·.1) =
      if key ∈ entries.map (·.1) then entries.map (·.1) else entries.map (·.1) ++ [key] := by
  induction entries with
  | nil => simp [alter]
  | cons e rest ih =>
    obtain ⟨k, u⟩ := e
    by_cases hk : k = key
    · simp [alter, hk]
    · rw [alter, if_neg hk, List.map_cons, ih]
      by_cases hm : key ∈ rest.map (·.1)
      · rw [if_pos hm, if_pos (by simp [List.mem_map.1 hm])]
        rfl
      · rw [if_neg hm, if_neg (by simpa [Ne.symm hk] using hm)]
        rfl

end Lists

namespace Dict

/-! ### The index -/

section Index

variable {α : Type}

/-- The index leads from each key to the place of its entry, and nowhere else. -/
def Indexed (d : Dict α) : Prop :=
  ∀ key i, d.index.get? key = some i ↔ (d.entries[i]?).map (·.1) = some key

theorem indexed_empty : ({} : Dict α).Indexed := by
  intro key i
  simp

/-- A key that is there gets its new value in place. -/
theorem set_of_index {d : Dict α} {key : String} {i : Nat} (v : α)
    (hi : d.index.get? key = some i) :
    d.set key v = { d with entries := d.entries.modify i fun e => (e.1, v) } := by
  unfold Dict.set exchange
  rw [hi]

namespace Indexed

variable {d : Dict α} {key : String} {v : α} (h : d.Indexed)

include h

theorem get?_eq_some : d.get? key = some v ↔ (key, v) ∈ d.toList := by
  rw [toList, List.mem_iff_getElem?]
  unfold get?
  constructor
  · intro hv
    split at hv
    · rename_i i hi
      obtain ⟨e, he, hk⟩ := Option.map_eq_some_iff.1 ((h key i).1 hi)
      obtain ⟨e', he', hv⟩ := Option.map_eq_some_iff.1 hv
      obtain rfl : e = e' := Option.some.inj (he.symm.trans he')
      exact ⟨i, by rw [Array.getElem?_toList, he, ← hk, ← hv]⟩
    · contradiction
  · rintro ⟨i, hi⟩
    rw [Array.getElem?_toList] at hi
    rw [(h key i).2 (by rw [hi]; rfl)]
    show d.entries[i]?.map (·.2) = _
    rw [hi]
    rfl

theorem mem_keys : key ∈ d.keys ↔ ∃ i, d.index.get? key = some i := by
  rw [keys, List.mem_map]
  constructor
  · rintro ⟨e, he, rfl⟩
    obtain ⟨i, hi⟩ := List.mem_iff_getElem?.1 he
    rw [toList, Array.getElem?_toList] at hi
    exact ⟨i, (h e.1 i).2 (by rw [hi]; rfl)⟩
  · rintro ⟨i, hi⟩
    obtain ⟨e, he, hk⟩ := Option.map_eq_some_iff.1 ((h key i).1 hi)
    exact ⟨e, List.mem_iff_getElem?.2 ⟨i, (Array.getElem?_toList).trans he⟩, hk⟩

theorem index_eq_none : d.index.get? key = none ↔ key ∉ d.keys := by
  rw [h.mem_keys, Option.eq_none_iff_forall_ne_some, not_exists]

theorem contains_iff : d.contains key = true ↔ key ∈ d.keys := by
  rw [← not_iff_not, ← h.index_eq_none, contains, Std.TreeMap.get?_eq_getElem?,
    Std.TreeMap.contains_eq_isSome_getElem?]
  simp

/-- No key occurs twice: the index leads to one place only. -/
theorem nodup_keys : d.keys.Nodup := by
  rw [List.nodup_iff_getElem?_ne_getElem?]
  intro i j hij hj heq
  have place (n : Nat) : d.keys[n]? = (d.entries[n]?).map (·.1) := by simp [keys, toList]
  obtain ⟨key, hkey⟩ : ∃ key, d.keys[j]? = some key := ⟨_, List.getElem?_eq_getElem hj⟩
  have hi := (h key i).2 (by rw [← place, heq, hkey])
  have hj := (h key j).2 (by rw [← place, hkey])
  rw [hi] at hj
  exact absurd (Option.some.inj hj) (Nat.ne_of_lt hij)

/-- A look-up finds what stands in the list of the entries. -/
theorem get?_eq_lookup : d.get? key = d.toList.lookup key := by
  ext v
  rw [h.get?_eq_some, lookup_eq_some_iff h.nodup_keys]

theorem contains_eq : d.contains key = (d.get? key).isSome := by
  rw [Bool.eq_iff_iff, h.contains_iff, h.get?_eq_lookup, Option.isSome_iff_ne_none, Ne,
    lookup_eq_none_iff, not_not]
  rfl

/-- A new key goes behind all others. -/
theorem toList_set (hn : key ∉ d.keys) : (d.set key v).toList = d.toList ++ [(key, v)] := by
  unfold set exchange
  rw [h.index_eq_none.2 hn]
  exact Array.toList_push

theorem set (hn : key ∉ d.keys) : (d.set key v).Indexed := by
  have hi := h.index_eq_none.2 hn
  have hs : d.set key v = ⟨d.entries.push (key, v), d.index.insert key d.entries.size⟩ := by
    unfold Dict.set exchange
    rw [hi]
  rw [hs]
  intro k i
  rw [Std.TreeMap.get?_eq_getElem?, Std.TreeMap.getElem?_insert, Array.getElem?_push]
  have hk := h k i
  rw [Std.TreeMap.get?_eq_getElem?] at hk
  by_cases hkey : key = k
  · subst hkey
    rw [if_pos (Std.ReflCmp.compare_self)]
    -- only the new entry stands behind those there were
    by_cases hsize : i = d.entries.size
    · subst hsize
      simp
    · rw [if_neg hsize, ← h key i, hi]
      simp [Ne.symm hsize]
  · rw [if_neg (by simpa using hkey), hk]
    by_cases hsize : i = d.entries.size
    · subst hsize
      simp [hkey]
    · rw [if_neg hsize]

/-- Setting a key is the same on a dictionary and on the list of its entries. -/
theorem toList_set_eq_alter : (d.set key v).toList = alter key (fun _ => v) d.toList := by
  by_cases hk : key ∈ d.keys
  · obtain ⟨i, hi⟩ := h.mem_keys.1 hk
    rw [set_of_index v hi, alter_of_getElem? h.nodup_keys (i := i)]
    · exact Array.toList_modify
    · rw [toList, Array.getElem?_toList]
      exact (h key i).1 hi
  · rw [h.toList_set hk, alter_of_not_mem _ hk]

theorem set_any (key : String) (v : α) : (d.set key v).Indexed := by
  by_cases hk : key ∈ d.keys
  · obtain ⟨i, hi⟩ := h.mem_keys.1 hk
    rw [set_of_index v hi]
    intro k n
    rw [h k n, Array.getElem?_modify]
    split <;> simp
  · exact h.set hk

/-- What setting a key hands back is the value it had. -/
theorem exchange_fst : (d.exchange key v).1 = d.toList.lookup key := by
  rw [← h.get?_eq_lookup]
  unfold exchange get?
  split <;> rfl

/-- Other values under the same keys leave the index right. -/
theorem withValues {β : Type} {values : List β} (hl : values.length = d.values.length) :
    (d.withValues values).Indexed := by
  intro key i
  show d.index.get? key = some i ↔ _
  rw [h key i]
  have keys : ((d.withValues values).toList.map (·.1)) = d.toList.map (·.1) := by
    exact List.map_fst_zip (by simp [Dict.keys, hl, Dict.values])
  have place := congrArg (·[i]?) keys
  simp only [List.getElem?_map, toList, Array.getElem?_toList] at place
  rw [place]

end Indexed

end Index

/-! ### Steps -/

/-- A copy of a dictionary: the keys stay in their places, and the values are copied in turn. -/
def copyWith (copy : Value → StateM Heap Value) (d : Dict Value) : StateM Heap (Dict Value) := do
  return d.withValues (← d.values.mapM copy)

/-- The same key with a copy of its value. -/
def copyEntry (copy : Value → StateM Heap Value) (e : String × Value) :
    StateM Heap (String × Value) := do
  return (e.1, ← copy e.2)

/-- What is done to a dictionary: a key is set, the dictionary is copied with the containers in it down
to a depth, or it is emptied.  Meanwhile other containers may change in any way. -/
inductive Step where
  | set (key : String) (v : Value)
  | duplicate (depth : Nat)
  | drain
  | meanwhile (change : Heap → Heap)

namespace Step

/-- A step of a dictionary, and the values that it hands back. -/
def onDict : Step → Dict Value → StateM Heap (List Value × Dict Value)
  | set key v, d => return ((d.exchange key v).1.toList, (d.exchange key v).2)
  | duplicate depth, d => return ([], ← d.copyWith (Heap.duplicateTo depth))
  | drain, d => return d.drain
  | meanwhile change, d => modifyGet fun h => (([], d), change h)

/-- The same done to a list of entries. -/
def onEntries : Step → List (String × Value) → StateM Heap (List Value × List (String × Value))
  | set key v, es => return ((es.lookup key).toList, alter key (fun _ => v) es)
  | duplicate depth, es => return ([], ← es.mapM (copyEntry (Heap.duplicateTo depth)))
  | drain, es => return (es.map (·.2), [])
  | meanwhile change, es => modifyGet fun h => (([], es), change h)

/-- Steps one after the other, and what each of them hands back. -/
def inTurn {σ : Type} (run : Step → σ → StateM Heap (List Value × σ)) :
    List Step → σ → StateM Heap (List (List Value) × σ)
  | [], s => return ([], s)
  | step :: steps, s => do
    let (answer, s) ← run step s
    let (answers, s) ← inTurn run steps s
    return (answer :: answers, s)

end Step

/-- A dictionary answers as a list of entries does, and so does what comes of it in one step. -/
structure Represents (d : Dict Value) (entries : List (String × Value)) : Prop where
  toList : d.toList = entries
  index : ∀ key i, d.index.get? key = some i ↔ (entries[i]?).map (·.1) = some key
  nodup : (entries.map (·.1)).Nodup
  get : ∀ key, d.get? key = entries.lookup key
  contains : ∀ key, d.contains key = (entries.lookup key).isSome
  keys : d.keys = entries.map (·.1)
  size : d.size = entries.length
  set : ∀ key v, (d.exchange key v).1 = entries.lookup key ∧
    (d.exchange key v).2.get? key = some v ∧
    (d.exchange key v).2.keys = if key ∈ d.keys then d.keys else d.keys ++ [key]
  duplicate : ∀ (depth : Nat) (h : Heap) (r : Ref .dict), h.dicts.get? r = some d →
    Heap.duplicateTo (depth + 1) (.dict r) h =
        (d.copyWith (Heap.duplicateTo depth) >>= Heap.newDict) h ∧
      (d.copyWith (Heap.duplicateTo depth) h).1.keys = d.keys
  drain : d.drain = (entries.map (·.2), {})

/-- As many values come out as go in. -/
theorem length_mapM (copy : Value → StateM Heap Value) (vs : List Value) (h : Heap) :
    (vs.mapM copy h).1.length = vs.length := by
  induction vs generalizing h with
  | nil => rfl
  | cons v vs ih =>
    rw [List.mapM_cons]
    show ((vs.mapM copy (copy v h).2).1.length + 1) = _
    rw [ih, List.length_cons]

/-- Entries are copied by copying their values. -/
theorem mapM_entries (copy : Value → StateM Heap Value) (es : List (String × Value)) (h : Heap) :
    es.mapM (copyEntry copy) h =
      ((es.map (·.1)).zip ((es.map (·.2)).mapM copy h).1, ((es.map (·.2)).mapM copy h).2) := by
  induction es generalizing h with
  | nil => rfl
  | cons e es ih =>
    rw [List.mapM_cons, List.map_cons, List.map_cons, List.mapM_cons]
    show ((e.1, (copy e.2 h).1) :: (es.mapM (copyEntry copy) (copy e.2 h).2).1,
      (es.mapM (copyEntry copy) (copy e.2 h).2).2) = _
    rw [ih]
    rfl

theorem Indexed.represents {d : Dict Value} (hd : d.Indexed) : d.Represents d.toList where
  toList := rfl
  index key i := by
    rw [hd key i]
    simp [Dict.toList]
  nodup := hd.nodup_keys
  get _ := hd.get?_eq_lookup
  contains key := by rw [hd.contains_eq, hd.get?_eq_lookup]
  keys := rfl
  size := Dict.size_eq_length_toList d
  set key v := by
    refine ⟨hd.exchange_fst, ?_, ?_⟩
    · show (d.set key v).get? key = some v
      rw [(hd.set_any key v).get?_eq_lookup, hd.toList_set_eq_alter, lookup_alter_self]
    · show ((d.set key v).toList.map (·.1)) = _
      rw [hd.toList_set_eq_alter, keys_alter]
      rfl
  duplicate depth h r hr := by
    refine ⟨Heap.duplicateTo_dict hr, ?_⟩
    exact (Dict.withValues_lists d (length_mapM _ _ h)).1
  drain := rfl

/-- A step does to a dictionary what it does to the list of its entries. -/
theorem Step.onDict_run (step : Step) {d : Dict Value} (hd : d.Indexed) (h : Heap) :
    ∃ answer d' h', step.onDict d h = ((answer, d'), h') ∧
      step.onEntries d.toList h = ((answer, d'.toList), h') ∧ d'.Indexed := by
  cases step with
  | set key v =>
    refine ⟨_, _, h, rfl, ?_, hd.set_any key v⟩
    show _ = (((d.exchange key v).1.toList, (d.set key v).toList), h)
    rw [hd.toList_set_eq_alter, hd.exchange_fst]
    rfl
  | duplicate depth =>
    have length := length_mapM (Heap.duplicateTo depth) d.values h
    refine ⟨[], _, (d.values.mapM (Heap.duplicateTo depth) h).2, rfl, ?_, hd.withValues length⟩
    show (([], (d.toList.mapM (copyEntry (Heap.duplicateTo depth)) h).1),
      (d.toList.mapM (copyEntry (Heap.duplicateTo depth)) h).2) = _
    rw [mapM_entries]
    rfl
  | drain => exact ⟨d.values, {}, h, rfl, rfl, indexed_empty⟩
  | meanwhile change => exact ⟨[], d, change h, rfl, rfl, hd⟩

/-- Steps one after the other do to a dictionary what they do to the list of its entries. -/
theorem Step.inTurn_run (steps : List Step) {d : Dict Value} (hd : d.Indexed) (h : Heap) :
    ∃ answers d' h', Step.inTurn Step.onDict steps d h = ((answers, d'), h') ∧
      Step.inTurn Step.onEntries steps d.toList h = ((answers, d'.toList), h') ∧ d'.Indexed := by
  induction steps generalizing d h with
  | nil => exact ⟨[], d, h, rfl, rfl, hd⟩
  | cons step steps ih =>
    obtain ⟨answer, d₁, h₁, run, listed, hd₁⟩ := step.onDict_run hd h
    obtain ⟨answers, d', h', run', listed', hd'⟩ := ih hd₁ h₁
    refine ⟨answer :: answers, d', h', ?_, ?_, hd'⟩
    · simp only [Step.inTurn, bind, StateT.bind, run, run']
      rfl
    · simp only [Step.inTurn, bind, StateT.bind, listed, listed']
      rfl

/-- A dictionary that starts empty and is set, copied and emptied in any order answers as the list of
entries that is built by the same steps. -/
theorem steps_on_entries (steps : List Step) (h : Heap) :
    ∃ answers d entries h', Step.inTurn Step.onDict steps {} h = ((answers, d), h') ∧
      Step.inTurn Step.onEntries steps [] h = ((answers, entries), h') ∧ d.Represents entries := by
  obtain ⟨answers, d, h', run, listed, hd⟩ := Step.inTurn_run steps indexed_empty h
  exact ⟨answers, d, d.toList, h', run, listed, hd.represents⟩

end Dict

end Rewind
