/-
Handles are accounted for.

Handles are made with a new cell, copied, weakened, upgraded and given back in any order.  The three
totals of the ledger always tell how many handles are live, the count of a cell how many of them lead
to it, and two handles lead to one cell exactly if they go back to the same step that made a new one.

* `Ledger.Step`, `Ledger.after` — what is done with handles, and the ledger that comes of it;
* `Ledger.Descends` — where a handle goes back to, told from the steps alone;
* `Ledger.Accounted`, `Accounted.step` — counts and totals are right, and every step keeps them so;
* `cell_eq_iff` — two handles lead to one cell exactly if they go back to the same step;
* `handles_accounted` — what the ledger answers after any steps.
-/
import Mathlib.Data.List.Basic
import Rewind.Ledger

namespace Rewind

namespace Ledger

/-- What is done with handles. -/
inductive Step where
  | create (value : Int)
  | copy (handle : Nat)
  | release (handle : Nat)
  | weaken (handle : Nat)
  | upgrade (weak : Nat)

def Step.run (l : Ledger) : Step → Ledger
  | create v => l.create v
  | copy h => l.copy h
  | release h => l.release h
  | weaken h => l.weaken h
  | upgrade w => (l.upgrade w).2

/-- The ledger after some steps, of which the latest one comes first. -/
def after : List Step → Ledger
  | [] => {}
  | s :: past => s.run (after past)

/-- A handle or a weak handle, by its number. -/
inductive Holder where
  | strong (handle : Nat)
  | weak (handle : Nat)

/-- The cell a live handle leads to, or a weak one belongs to. -/
def leads? (l : Ledger) : Holder → Option Nat
  | .strong h => l.cellOf? h
  | .weak w => l.weak[w]?

/-- The handle leads to a cell. -/
def Live (l : Ledger) (handle : Nat) : Prop := l.cellOf? handle ≠ none

instance (l : Ledger) (handle : Nat) : Decidable (l.Live handle) :=
  inferInstanceAs (Decidable (l.cellOf? handle ≠ none))

/-- The number of live handles. -/
def live (l : Ledger) : Nat := l.handles.toList.countP Option.isSome

/-- The number of live handles to a cell. -/
def handlesTo (l : Ledger) (cell : Nat) : Nat := l.handles.toList.count (some cell)

/-- The handle goes back to the step number `origin`, which made it or, by way of copies and weak
handles, the one it comes from together with a new cell. -/
inductive Descends : List Step → Holder → (origin : Nat) → Prop
  | create {past : List Step} {v : Int} :
    Descends (.create v :: past) (.strong (after past).handles.size) past.length
  | copy {past : List Step} {h origin : Nat} (live : (after past).Live h)
    (hd : Descends past (.strong h) origin) :
    Descends (.copy h :: past) (.strong (after past).handles.size) origin
  | weaken {past : List Step} {h origin : Nat} (live : (after past).Live h)
    (hd : Descends past (.strong h) origin) :
    Descends (.weaken h :: past) (.weak (after past).weak.size) origin
  | upgrade {past : List Step} {w origin : Nat} (hd : Descends past (.weak w) origin) :
    Descends (.upgrade w :: past) (.strong (after past).handles.size) origin
  | later {past : List Step} {s : Step} {x : Holder} {origin : Nat} (hd : Descends past x origin) :
    Descends (s :: past) x origin

variable {l : Ledger} {past : List Step} {h w c n : Nat} {x : Holder}

/-! ### Counts and totals -/

/-- The count of every cell is the number of live handles to it, live and weak handles belong to cells,
and the totals tell the number of live handles. -/
structure Accounted (l : Ledger) : Prop where
  counts : ∀ c cell, l.cells[c]? = some cell → cell.count = l.handlesTo c
  known : ∀ x c, l.leads? x = some c → c < l.cells.size
  totals : l.tally.allocs + l.tally.dups = l.tally.releases + l.live

theorem cellOf?_eq_some : l.cellOf? h = some c ↔ l.handles[h]? = some (some c) := by
  unfold cellOf?
  cases l.handles[h]? with
  | none => simp
  | some cell => simp

theorem handlesTo_pos (h : Nat) (hc : l.cellOf? h = some c) : 0 < l.handlesTo c := by
  rw [cellOf?_eq_some, ← Array.getElem?_toList] at hc
  exact List.count_pos_iff.2 (List.mem_of_getElem? hc)

theorem exists_of_handlesTo_pos (hp : 0 < l.handlesTo c) : ∃ h, l.cellOf? h = some c := by
  obtain ⟨h, hh⟩ := List.mem_iff_getElem?.1 (List.count_pos_iff.1 hp)
  exact ⟨h, cellOf?_eq_some.2 ((Array.getElem?_toList).symm.trans hh)⟩

section Push

variable {l' : Ledger} {made : Option Nat} (hl : l'.handles = l.handles.push made)

include hl

theorem cellOf?_push (h : Nat) :
    l'.cellOf? h = if h = l.handles.size then made else l.cellOf? h := by
  rw [cellOf?, hl, Array.getElem?_push]
  split <;> rfl

theorem handlesTo_push (c : Nat) :
    l'.handlesTo c = l.handlesTo c + if made = some c then 1 else 0 := by
  simp [handlesTo, hl, List.count_cons]

theorem live_push : l'.live = l.live + if made.isSome then 1 else 0 := by
  simp [live, hl, List.countP_cons]

end Push

namespace Accounted

variable (ha : l.Accounted)

include ha

/-- No live handle leads to a cell that has not been made. -/
theorem handlesTo_size : l.handlesTo l.cells.size = 0 := by
  refine Nat.eq_zero_of_not_pos fun hp => ?_
  obtain ⟨h, hh⟩ := exists_of_handlesTo_pos hp
  exact absurd (ha.known (.strong h) _ hh) (Nat.lt_irrefl _)

/-- One more handle, live or dead. -/
theorem known_push {l' : Ledger} {made : Option Nat} (hl : l'.handles = l.handles.push made)
    (hw : l'.weak = l.weak) (hsize : l.cells.size ≤ l'.cells.size)
    (hm : ∀ c, made = some c → c < l'.cells.size) (x : Holder) (c : Nat)
    (hx : l'.leads? x = some c) : c < l'.cells.size := by
  cases x with
  | strong h =>
    rw [leads?, cellOf?_push hl] at hx
    split at hx
    · exact hm c hx
    · exact Nat.lt_of_lt_of_le (ha.known (.strong h) c hx) hsize
  | weak w =>
    rw [leads?, hw] at hx
    exact Nat.lt_of_lt_of_le (ha.known (.weak w) c hx) hsize

theorem create (v : Int) : (l.create v).Accounted := by
  have pushed : (l.create v).handles = l.handles.push (some l.cells.size) := rfl
  have size : (l.create v).cells.size = l.cells.size + 1 := Array.size_push _
  refine ⟨fun c cell hc => ?_, ha.known_push pushed rfl (by omega) (fun c hc => ?_), ?_⟩
  · rw [handlesTo_push pushed]
    simp only [Ledger.create, Array.getElem?_push] at hc
    by_cases hsize : c = l.cells.size
    · rw [if_pos hsize] at hc
      rw [hsize, ha.handlesTo_size, if_pos rfl, ← Option.some.inj hc]
    · rw [if_neg hsize] at hc
      rw [if_neg fun he => hsize (Option.some.inj he).symm, ha.counts c cell hc, Nat.add_zero]
  · have := Option.some.inj hc
    omega
  · have totals := ha.totals
    rw [live_push pushed]
    simp only [Ledger.create, Option.isSome_some, if_true]
    omega

/-- One more handle to a cell. -/
theorem addHandle (hc : c < l.cells.size) : (l.addHandle c).Accounted := by
  have pushed : (l.addHandle c).handles = l.handles.push (some c) := rfl
  have size : (l.addHandle c).cells.size = l.cells.size := Array.size_modify
  refine ⟨fun c' cell hcell => ?_, ha.known_push pushed rfl (by omega) (fun c' hc' => ?_), ?_⟩
  · rw [handlesTo_push pushed]
    simp only [Ledger.addHandle, Array.getElem?_modify] at hcell
    split at hcell
    · rename_i hcc
      obtain ⟨before, hbefore, rfl⟩ := Option.map_eq_some_iff.1 hcell
      rw [if_pos (congrArg some hcc), ← ha.counts c' before hbefore]
    · rename_i hcc
      rw [if_neg fun he => hcc (Option.some.inj he), ha.counts c' cell hcell, Nat.add_zero]
  · rw [size, ← Option.some.inj hc']
    exact hc
  · have totals := ha.totals
    rw [live_push pushed]
    simp only [Ledger.addHandle, Option.isSome_some, if_true]
    omega

/-- A handle that is dead from the start. -/
theorem deadHandle : ({ l with handles := l.handles.push none } : Ledger).Accounted := by
  have pushed : ({ l with handles := l.handles.push none } : Ledger).handles =
      l.handles.push none := rfl
  refine ⟨fun c cell hc => ?_, ha.known_push pushed rfl (Nat.le_refl _) nofun, ?_⟩
  · rw [handlesTo_push pushed]
    exact ha.counts c cell hc
  · rw [live_push pushed]
    exact ha.totals

theorem release (h : Nat) : (l.release h).Accounted := by
  unfold Ledger.release
  cases hh : l.cellOf? h with
  | none => exact ha
  | some c =>
    have place : l.handles.toList[h]? = some (some c) := by
      rw [Array.getElem?_toList]
      exact cellOf?_eq_some.1 hh
    obtain ⟨inside, here⟩ := List.getElem?_eq_some_iff.1 place
    -- the handle is the only one that changes
    have given : l.handles.toList.modify h (fun _ => none) = l.handles.toList.set h none := by
      rw [List.modify_eq_set_getElem?, place]
      rfl
    refine ⟨fun c' cell hc => ?_, fun x c' hx => ?_, ?_⟩
    · simp only [Array.getElem?_modify] at hc
      simp only [handlesTo, Array.toList_modify, given, List.count_set inside, here]
      split at hc
      · rename_i hcc
        obtain ⟨before, hbefore, rfl⟩ := Option.map_eq_some_iff.1 hc
        simp [hcc, ha.counts c' before hbefore, handlesTo]
      · rename_i hcc
        simp [hcc, ha.counts c' cell hc, handlesTo]
    · rw [Array.size_modify]
      cases x with
      | strong h' =>
        refine ha.known (.strong h') c' ?_
        rw [leads?, cellOf?_eq_some, Array.getElem?_modify] at hx
        split at hx
        · obtain ⟨_, _, hn⟩ := Option.map_eq_some_iff.1 hx
          exact nomatch hn
        · exact cellOf?_eq_some.2 hx
      | weak w => exact ha.known (.weak w) c' hx
    · have totals := ha.totals
      have counted : 0 < l.live :=
        List.countP_pos_iff.2 ⟨some c, List.mem_of_getElem? place, rfl⟩
      simp only [live, Array.toList_modify, given, List.countP_set inside, here, Option.isSome_some,
        Option.isSome_none, if_true] at totals counted ⊢
      simp only [Bool.false_eq_true, if_false]
      omega

theorem step (s : Step) : (s.run l).Accounted := by
  cases s with
  | create v => exact ha.create v
  | copy h =>
    simp only [Step.run, Ledger.copy]
    split
    · rename_i c hc
      exact ha.addHandle (ha.known (.strong h) c hc)
    · exact ha
  | release h => exact ha.release h
  | weaken h =>
    simp only [Step.run, Ledger.weaken]
    split
    · rename_i c hc
      refine ⟨ha.counts, fun x c' hx => ?_, ha.totals⟩
      -- a new weak handle leads where the handle it was made of does
      cases x with
      | strong h' => exact ha.known (.strong h') c' hx
      | weak w =>
        rw [leads?, Array.getElem?_push] at hx
        split at hx
        · obtain rfl := Option.some.inj hx
          exact ha.known (.strong h) c hc
        · exact ha.known (.weak w) c' hx
    · exact ha
  | upgrade w =>
    simp only [Step.run, Ledger.upgrade]
    split
    · rename_i c hc
      split
      · exact ha.deadHandle
      · exact ha.addHandle (ha.known (.weak w) c hc)
    · exact ha.deadHandle

end Accounted

theorem accounted_after (history : List Step) : (after history).Accounted := by
  induction history with
  | nil => exact ⟨nofun, fun x c hx => by cases x <;> simp [leads?, cellOf?, after] at hx, rfl⟩
  | cons s past ih => exact ih.step s

/-! ### Where handles come from -/

/-- The number of the handle is one that has been given out. -/
def Given (l : Ledger) : Holder → Prop
  | .strong h => h < l.handles.size
  | .weak w => w < l.weak.size

/-- The step number `origin` made the cell, with the value `v` in it. -/
inductive Founds : List Step → (cell origin : Nat) → (v : Int) → Prop
  | create {past : List Step} {v : Int} :
    Founds (.create v :: past) (after past).cells.size past.length v
  | later {past : List Step} {s : Step} {c n : Nat} {v : Int} (hf : Founds past c n v) :
    Founds (s :: past) c n v

/-- What handle a step makes, and to which cell. -/
inductive Makes (l : Ledger) : Step → Holder → (cell : Nat) → Prop
  | create {v : Int} : Makes l (.create v) (.strong l.handles.size) l.cells.size
  | copy {h c : Nat} (hc : l.cellOf? h = some c) : Makes l (.copy h) (.strong l.handles.size) c
  | weaken {h c : Nat} (hc : l.cellOf? h = some c) : Makes l (.weaken h) (.weak l.weak.size) c
  | upgrade {w c : Nat} (hc : l.weak[w]? = some c) : Makes l (.upgrade w) (.strong l.handles.size) c

theorem given_of_leads? (hx : l.leads? x = some c) : l.Given x := by
  cases x with
  | strong h => exact (Array.getElem?_eq_some_iff.1 (cellOf?_eq_some.1 hx)).1
  | weak w => exact (Array.getElem?_eq_some_iff.1 hx).1

theorem Makes.not_given {s : Step} (hm : l.Makes s x c) : ¬ l.Given x := by
  cases hm <;> exact Nat.lt_irrefl _

/-- Numbers stay given, and cells stay made. -/
theorem grows_run (s : Step) (l : Ledger) : l.cells.size ≤ (s.run l).cells.size ∧
    l.handles.size ≤ (s.run l).handles.size ∧ l.weak.size ≤ (s.run l).weak.size := by
  cases s with
  | create v => simp [Step.run, create]
  | copy h =>
    simp only [Step.run, copy]
    split <;> simp [addHandle]
  | release h =>
    simp only [Step.run, release]
    split <;> simp
  | weaken h =>
    simp only [Step.run, weaken]
    split <;> simp
  | upgrade w =>
    simp only [Step.run, upgrade]
    split
    · split <;> simp [addHandle]
    · simp

/-- A handle that leads to a cell after a step did so before, or the step made it. -/
theorem leads?_run {s : Step} (hx : (s.run l).leads? x = some c) :
    l.leads? x = some c ∨ l.Makes s x c := by
  -- one more handle, which leads where it is made to
  have pushed (l' : Ledger) {made : Option Nat} (hl : l'.handles = l.handles.push made)
      (hw : l'.weak = l.weak) (hx : l'.leads? x = some c) :
      l.leads? x = some c ∨ x = .strong l.handles.size ∧ made = some c := by
    cases x with
    | strong h =>
      rw [leads?, cellOf?_push hl] at hx
      split at hx
      · rename_i hh
        exact .inr ⟨congrArg _ hh, hx⟩
      · exact .inl hx
    | weak w =>
      rw [leads?, hw] at hx
      exact .inl hx
  cases s with
  | create v =>
    refine (pushed (l.create v) rfl rfl hx).imp_right ?_
    rintro ⟨rfl, hc⟩
    obtain rfl := Option.some.inj hc
    exact .create
  | copy h =>
    simp only [Step.run, copy] at hx
    split at hx
    · rename_i c' hc'
      refine (pushed (l.addHandle c') rfl rfl hx).imp_right ?_
      rintro ⟨rfl, hc⟩
      exact .copy (hc'.trans hc)
    · exact .inl hx
  | release h =>
    simp only [Step.run, release] at hx
    split at hx
    · cases x with
      | strong h' =>
        rw [leads?, cellOf?_eq_some, Array.getElem?_modify] at hx
        split at hx
        · obtain ⟨_, _, hn⟩ := Option.map_eq_some_iff.1 hx
          exact nomatch hn
        · exact .inl (cellOf?_eq_some.2 hx)
      | weak w => exact .inl hx
    · exact .inl hx
  | weaken h =>
    simp only [Step.run, weaken] at hx
    split at hx
    · rename_i c' hc'
      cases x with
      | strong h' => exact .inl hx
      | weak w =>
        rw [leads?, Array.getElem?_push] at hx
        split at hx
        · rename_i hw
          subst hw
          exact .inr (.weaken (hc'.trans hx))
        · exact .inl hx
    · exact .inl hx
  | upgrade w =>
    -- a weak handle of a value that is gone is upgraded to a handle that leads nowhere
    have dead (hx : ({ l with handles := l.handles.push none } : Ledger).leads? x = some c) :
        l.leads? x = some c :=
      (pushed { l with handles := l.handles.push none } rfl rfl hx).resolve_right
        fun hn => nomatch hn.2
    simp only [Step.run, upgrade] at hx
    split at hx
    · rename_i c' hc'
      split at hx
      · exact .inl (dead hx)
      · refine (pushed (l.addHandle c') rfl rfl hx).imp_right ?_
        rintro ⟨rfl, hc⟩
        exact .upgrade (hc'.trans hc)
    · exact .inl (dead hx)

namespace Founds

variable {v v' : Int} {c' n' : Nat}

theorem bounds (hf : Founds past c n v) : c < (after past).cells.size ∧ n < past.length := by
  induction hf with
  | create => exact ⟨by simp [after, Step.run, Ledger.create], Nat.lt_succ_self _⟩
  | later _ ih => exact ⟨Nat.lt_of_lt_of_le ih.1 (grows_run _ _).1, Nat.lt_succ_of_lt ih.2⟩

theorem step (hf : Founds past c n v) : past.reverse[n]? = some (.create v) := by
  induction hf with
  | create => simp
  | later hf ih =>
    rw [List.reverse_cons, List.getElem?_append_left (by simpa using hf.bounds.2), ih]

/-- Every cell is made by one step, and every step makes one cell at most. -/
theorem unique (hf : Founds past c n v) (hf' : Founds past c' n' v') :
    (c = c' ↔ n = n') ∧ (c = c' → v = v') := by
  induction hf with
  | create =>
    cases hf' with
    | create => simp
    | later hf' =>
      have := hf'.bounds
      constructor <;> omega
  | later hf ih =>
    cases hf' with
    | create =>
      have := hf.bounds
      constructor <;> omega
    | later hf' => exact ih hf'

/-- What is in a cell stays there. -/
theorem value (hf : Founds past c n v) : ((after past).cells[c]?).map (·.value) = some v := by
  -- no step writes to a cell but its count
  have kept {cells : Array SharedCell} (f : SharedCell → Nat) (i : Nat)
      (hc : (cells[c]?).map (·.value) = some v) :
      ((cells.modify i fun cell => { cell with count := f cell })[c]?).map (·.value) = some v := by
    obtain ⟨cell, hcell, rfl⟩ := Option.map_eq_some_iff.1 hc
    rw [Array.getElem?_modify, hcell]
    split <;> rfl
  induction hf with
  | create => simp [after, Step.run, Ledger.create]
  | @later past s c n v hf ih =>
    have ih := ih kept
    rw [after]
    cases s with
    | create v' =>
      rw [Step.run, Ledger.create, Array.getElem?_push, if_neg (Nat.ne_of_lt hf.bounds.1)]
      exact ih
    | copy h =>
      simp only [Step.run, copy]
      split
      · exact kept _ _ ih
      · exact ih
    | release h =>
      simp only [Step.run, release]
      split
      · exact kept _ _ ih
      · exact ih
    | weaken h =>
      simp only [Step.run, weaken]
      split <;> exact ih
    | upgrade w =>
      simp only [Step.run, upgrade]
      split
      · split
        · exact ih
        · exact kept _ _ ih
      · exact ih

end Founds

theorem Descends.given (hd : Descends past x n) : (after past).Given x := by
  induction hd with
  | create => simp [after, Step.run, Given, Ledger.create]
  | @copy past h n live hd ih =>
    obtain ⟨c, hc⟩ := Option.ne_none_iff_exists'.1 live
    simp [after, Step.run, Given, Ledger.copy, hc, addHandle]
  | @weaken past h n live hd ih =>
    obtain ⟨c, hc⟩ := Option.ne_none_iff_exists'.1 live
    simp [after, Step.run, Given, Ledger.weaken, hc]
  | upgrade hd ih =>
    simp only [after, Step.run, Given, Ledger.upgrade]
    split
    · split <;> simp [addHandle]
    · simp
  | @later past s x n hd ih =>
    have grows := grows_run s (after past)
    cases x with
    | strong h => exact Nat.lt_of_lt_of_le ih grows.2.1
    | weak w => exact Nat.lt_of_lt_of_le ih grows.2.2

/-- The step a handle goes back to made the cell that it leads to. -/
theorem Descends.founds (hd : Descends past x n) (hx : (after past).leads? x = some c) :
    ∃ v, Founds past c n v := by
  -- the handle that a step makes has not been there before
  have made {past : List Step} {s : Step} {x : Holder} {c : Nat}
      (hx : (after (s :: past)).leads? x = some c) (hn : ¬ (after past).Given x) :
      (after past).Makes s x c :=
    (leads?_run hx).resolve_left fun hl => hn (given_of_leads? hl)
  induction hd with
  | create =>
    cases made hx (Nat.lt_irrefl _) with
    | create => exact ⟨_, .create⟩
  | copy live hd ih =>
    cases made hx (Nat.lt_irrefl _) with
    | copy hc =>
      obtain ⟨v, hf⟩ := ih hc
      exact ⟨v, .later hf⟩
  | weaken live hd ih =>
    cases made hx (Nat.lt_irrefl _) with
    | weaken hc =>
      obtain ⟨v, hf⟩ := ih hc
      exact ⟨v, .later hf⟩
  | upgrade hd ih =>
    cases made hx (Nat.lt_irrefl _) with
    | upgrade hc =>
      obtain ⟨v, hf⟩ := ih hc
      exact ⟨v, .later hf⟩
  | later hd ih =>
    obtain hx | hm := leads?_run hx
    · obtain ⟨v, hf⟩ := ih hx
      exact ⟨v, .later hf⟩
    · exact absurd hd.given hm.not_given

/-- Every handle to a cell goes back to the step that made the cell. -/
theorem exists_descends (hx : (after past).leads? x = some c) :
    ∃ n v, Descends past x n ∧ Founds past c n v := by
  induction past generalizing x c with
  | nil => cases x <;> simp [leads?, cellOf?, after] at hx
  | cons s past ih =>
    obtain hx | hm := leads?_run hx
    · obtain ⟨n, v, hd, hf⟩ := ih hx
      exact ⟨n, v, .later hd, .later hf⟩
    · cases hm with
      | create => exact ⟨_, _, .create, .create⟩
      | copy hc =>
        obtain ⟨n, v, hd, hf⟩ := ih (x := .strong _) hc
        exact ⟨n, v, .copy (by simp [Live, hc]) hd, .later hf⟩
      | weaken hc =>
        obtain ⟨n, v, hd, hf⟩ := ih (x := .strong _) hc
        exact ⟨n, v, .weaken (by simp [Live, hc]) hd, .later hf⟩
      | upgrade hc =>
        obtain ⟨n, v, hd, hf⟩ := ih (x := .weak _) hc
        exact ⟨n, v, .upgrade hd, .later hf⟩

/-- Two handles to cells lead to the same one exactly if they go back to the same step. -/
theorem cell_eq_iff (x x' : Holder) {c' : Nat} (hx : (after past).leads? x = some c)
    (hx' : (after past).leads? x' = some c') :
    c = c' ↔ ∃ n, Descends past x n ∧ Descends past x' n := by
  constructor
  · rintro rfl
    obtain ⟨n, v, hd, hf⟩ := exists_descends hx
    obtain ⟨n', v', hd', hf'⟩ := exists_descends hx'
    rw [← (hf.unique hf').1.1 rfl] at hd'
    exact ⟨n, hd, hd'⟩
  · rintro ⟨n, hd, hd'⟩
    obtain ⟨v, hf⟩ := hd.founds hx
    obtain ⟨v', hf'⟩ := hd'.founds hx'
    exact (hf.unique hf').1.2 rfl

/-! ### What the ledger answers -/

theorem Accounted.live_eq_zero_iff : l.live = 0 ↔ ∀ h, ¬ l.Live h := by
  constructor
  · intro hz h hl
    obtain ⟨c, hc⟩ := Option.ne_none_iff_exists'.1 hl
    have place := cellOf?_eq_some.1 hc
    rw [← Array.getElem?_toList] at place
    exact List.countP_eq_zero.1 hz _ (List.mem_of_getElem? place) rfl
  · intro hn
    refine List.countP_eq_zero.2 fun made hm => ?_
    obtain ⟨h, hh⟩ := List.mem_iff_getElem?.1 hm
    cases made with
    | none => simp
    | some c =>
      rw [Array.getElem?_toList] at hh
      exact absurd (by simp [Live, cellOf?_eq_some.2 hh]) (hn h)

/-- A weak handle can be turned into a live one exactly if a live one leads to its cell. -/
theorem Accounted.upgrade_iff (ha : l.Accounted) (w : Nat) :
    (l.upgrade w).1 = true ↔ ∃ h c, l.cellOf? h = some c ∧ l.weak[w]? = some c := by
  unfold Ledger.upgrade
  cases hw : l.weak[w]? with
  | none => simp
  | some c =>
    have inside := ha.known (.weak w) c hw
    have count : ((l.cells[c]?).map (·.count)).getD 0 = l.handlesTo c := by
      rw [Array.getElem?_eq_getElem inside]
      exact ha.counts c _ (Array.getElem?_eq_getElem inside)
    dsimp only
    rw [count]
    split
    · rename_i hz
      refine ⟨nofun, ?_⟩
      rintro ⟨h, c', hh, hc⟩
      obtain rfl := Option.some.inj hc
      exact absurd hz (Nat.ne_of_gt (handlesTo_pos h hh))
    · rename_i hz
      obtain ⟨h, hh⟩ := exists_of_handlesTo_pos (Nat.pos_of_ne_zero hz)
      exact ⟨fun _ => ⟨h, c, hh, rfl⟩, fun _ => rfl⟩

theorem tally_upgrade (l : Ledger) (w : Nat) : (l.upgrade w).2.tally =
    if (l.upgrade w).1 then { l.tally with dups := l.tally.dups + 1 } else l.tally := by
  unfold upgrade
  split
  · split <;> rfl
  · rfl

/-- After any steps the totals tell how many handles are live, the count of a live handle's cell how many
of them lead to it, a weak handle can be upgraded exactly if a live one goes back to the same new cell,
which counts as a copy, two live handles lead to one cell exactly if they go back to the same new cell, and
the totals balance exactly if no handle is live. -/
theorem handles_accounted (history : List Step) :
    let l := after history
    l.tally.allocs + l.tally.dups = l.tally.releases + l.live ∧
    (∀ h c, l.cellOf? h = some c → ∃ n v, Descends history (.strong h) n ∧
      history.reverse[n]? = some (.create v) ∧ l.count? h = some (l.handlesTo c, v)) ∧
    (∀ w, ((l.upgrade w).1 = true ↔
        ∃ h n, l.Live h ∧ Descends history (.strong h) n ∧ Descends history (.weak w) n) ∧
      (l.upgrade w).2.tally =
        if (l.upgrade w).1 then { l.tally with dups := l.tally.dups + 1 } else l.tally) ∧
    (∀ a b, l.Live a → l.Live b → (l.same a b = true ↔
      ∃ n, Descends history (.strong a) n ∧ Descends history (.strong b) n)) ∧
    (l.tally.balanced = true ↔ ∀ h, ¬ l.Live h) := by
  intro l
  have ha : l.Accounted := accounted_after history
  refine ⟨ha.totals, fun h c hc => ?_, fun w => ⟨?_, tally_upgrade l w⟩, fun a b la lb => ?_, ?_⟩
  · obtain ⟨n, v, hd, hf⟩ := exists_descends (x := .strong h) hc
    obtain ⟨cell, hcell, rfl⟩ := Option.map_eq_some_iff.1 hf.value
    refine ⟨n, cell.value, hd, hf.step, ?_⟩
    -- the count of a cell is the number of live handles that lead to it
    rw [← ha.counts c cell hcell, count?, hc]
    show (do let cell ← l.cells[c]?; pure (cell.count, cell.value)) = _
    rw [hcell]
    rfl
  · rw [ha.upgrade_iff w]
    constructor
    · rintro ⟨h, c, hh, hw⟩
      obtain ⟨n, hd, hd'⟩ := (cell_eq_iff (.strong h) (.weak w) hh hw).1 rfl
      exact ⟨h, n, by simp [Live, hh], hd, hd'⟩
    · rintro ⟨h, n, hl, hd, hd'⟩
      obtain ⟨c, hh⟩ := Option.ne_none_iff_exists'.1 hl
      obtain ⟨c', hw⟩ : ∃ c', l.weak[w]? = some c' := ⟨_, Array.getElem?_eq_getElem hd'.given⟩
      rw [(cell_eq_iff (.strong h) (.weak w) hh hw).2 ⟨n, hd, hd'⟩] at hh
      exact ⟨h, _, hh, hw⟩
  · obtain ⟨c, hc⟩ := Option.ne_none_iff_exists'.1 la
    obtain ⟨c', hc'⟩ := Option.ne_none_iff_exists'.1 lb
    rw [← cell_eq_iff (.strong a) (.strong b) hc hc', same, hc, hc']
    exact beq_iff_eq
  · rw [← Accounted.live_eq_zero_iff, Tally.balanced, beq_iff_eq, ha.totals]
    omega

/-- Two cells; the handle to the first one is copied, and given back after the copy has been weakened and
upgraded. -/
def passedOn : List Step :=
  [.release 0, .upgrade 0, .weaken 2, .copy 0, .create 7, .create 5]

theorem handles_accounted_of_passedOn :
    (after passedOn).cellOf? 3 = some 0 ∧ (after passedOn).Live 2 ∧ (after passedOn).Live 1 ∧
    (∃ n v, Descends passedOn (.strong 3) n ∧ passedOn.reverse[n]? = some (.create v) ∧
      (after passedOn).count? 3 = some ((after passedOn).handlesTo 0, v)) ∧
    (after passedOn).count? 3 = some (2, 5) ∧
    ((after passedOn).same 2 1 = true ↔
      ∃ n, Descends passedOn (.strong 2) n ∧ Descends passedOn (.strong 1) n) ∧
    (after passedOn).same 2 1 = false :=
  ⟨by decide, by decide, by decide, (handles_accounted passedOn).2.1 3 0 (by decide), by decide,
    (handles_accounted passedOn).2.2.2.1 2 1 (by decide) (by decide), by decide⟩

end Ledger

end Rewind
