/-
A tape plays back what was put on it.

Outcomes are recorded on a tape or injected, and read off again from its beginning.  What is read is a
copy, so whoever gets it may change the containers in it: all outcomes since the last reset go on being
played back as they were when they came, in order, and nothing after them.

* `Heap.Note`, `Heap.note` — what an outcome is, read in full;
* `Tape.Used` — what comes of a tape that is recorded on, read and reset in any order, while containers
  that were read off it are changed;
* `Tape.Replays` — what a tape plays back, whatever is changed meanwhile;
* `Tape.Keeps`, `Used.keeps` — no container on the tape has been handed out;
* `playback` — every tape plays back its notes.
-/
import Rewind.Proofs.Independence
import Rewind.Tape

namespace Rewind

namespace Heap

/-- What an outcome is, read in full: a value, or an exception with its place. -/
abbrev Note := Except (Image × Nat × Nat) Image

/-- What an outcome is, read in full. -/
def note (h : Heap) : Outcome → Note
  | .ok v => .ok (h.image v)
  | .error r => .error (h.image r.value, r.line, r.column)

variable {h h' : Heap} {o : Outcome}

theorem note_congr (hi : h'.image o.carried = h.image o.carried) : h'.note o = h.note o := by
  cases o with
  | ok v => exact congrArg Except.ok hi
  | error r => exact congrArg (fun i => Except.error (i, r.line, r.column)) hi

/-- The copy of an outcome has a copy of its value, and is the same otherwise. -/
theorem duplicateOutcome_carried (o : Outcome) (h : Heap) :
    (duplicateOutcome o h).1.carried = (duplicate o.carried h).1 ∧
      (duplicateOutcome o h).2 = (duplicate o.carried h).2 := by
  cases o <;> exact ⟨rfl, rfl⟩

theorem note_duplicateOutcome (ho : h.Whole o.carried) :
    (duplicateOutcome o h).2.note (duplicateOutcome o h).1 = h.note o := by
  cases o with
  | ok v => exact congrArg Except.ok (image_duplicate ho)
  | error r => exact congrArg (fun i => Except.error (i, r.line, r.column)) (image_duplicate ho)

end Heap

namespace Tape

/-- A tape with the heap, what each of the outcomes since the last reset was when it came, and the
containers that have been handed out by reading and not been put on the tape since.  These may be changed
at any time. -/
inductive Used : Tape → Heap → List Heap.Note → (lent : Value → Prop) → Prop
  | new (h : Heap) : Used {} h [] fun _ => False
  | record {t : Tape} {h : Heap} {notes : List Heap.Note} {lent : Value → Prop} (o : Outcome)
    (ho : h.Whole o.carried) (hu : Used t h notes lent) :
    Used (t.record o) h (notes ++ [h.note o]) fun u => lent u ∧ ¬ h.Within o.carried u
  | inject {t : Tape} {h : Heap} {notes : List Heap.Note} {lent : Value → Prop} (o : Outcome)
    (ho : h.Whole o.carried) (hu : Used t h notes lent) :
    Used (t.inject o) h (notes ++ [h.note o]) fun u => lent u ∧ ¬ h.Within o.carried u
  | next {t t' : Tape} {h h' : Heap} {notes : List Heap.Note} {lent : Value → Prop} {o : Outcome}
    (hn : t.next? h = (some (o, t'), h')) (hu : Used t h notes lent) :
    Used t' h' notes fun u => lent u ∨ h'.Within o.carried u
  | reset {t : Tape} {h : Heap} {notes : List Heap.Note} {lent : Value → Prop}
    (hu : Used t h notes lent) : Used Tape.reset h [] lent
  | change {t : Tape} {h h' : Heap} {notes : List Heap.Note} {lent : Value → Prop}
    (hr : h.Reworks lent h') (hu : Used t h notes lent) : Used t h' notes lent

/-- Whatever is changed in the containers handed out, those read last included, the tape plays back copies
of outcomes that read as the notes say, one after the other, and then nothing. -/
def Replays : List Heap.Note → Tape → Heap → (lent : Value → Prop) → Prop
  | [], t, h, lent => ∀ h₁, h.Reworks lent h₁ → t.next? h₁ = (none, h₁)
  | note :: notes, t, h, lent => ∀ h₁, h.Reworks lent h₁ → ∃ o t' h₂,
      t.next? h₁ = (some (o, t'), h₂) ∧ h₂.note o = note ∧
      (∀ u, h₂.Within o.carried u → u.box? ≠ none → h₁.contents? u = none) ∧
      Replays notes t' h₂ fun u => lent u ∨ h₂.Within o.carried u

/-- The outcomes on a tape are as they were noted, and no container in them has been handed out. -/
structure Keeps (t : Tape) (h : Heap) (notes : List Heap.Note) (lent : Value → Prop) : Prop where
  position : t.position ≤ t.size
  whole : ∀ o ∈ t.entries.toList, h.Whole o.carried
  noted : t.entries.toList.map h.note = notes
  apart : ∀ o ∈ t.entries.toList, ∀ u, h.Within o.carried u → lent u → u.box? = none

variable {t t' : Tape} {h h' : Heap} {notes : List Heap.Note} {lent : Value → Prop} {o : Outcome}

theorem next?_eq_none (hp : t.entries[t.position]? = none) : t.next? h = (none, h) := by
  unfold next?
  rw [hp]
  rfl

theorem next?_eq_some (hp : t.entries[t.position]? = some o) : t.next? h =
    (some ((Heap.duplicateOutcome o h).1, { t with position := t.position + 1 }),
      (Heap.duplicateOutcome o h).2) := by
  unfold next?
  rw [hp]
  rfl

namespace Keeps

/-- Another outcome is put on the tape. -/
theorem push (hk : t.Keeps h notes lent) (ho : h.Whole o.carried) {position : Nat}
    (hp : position ≤ t.size + 1) :
    Keeps ⟨t.entries.push o, position⟩ h (notes ++ [h.note o])
      fun u => lent u ∧ ¬ h.Within o.carried u := by
  refine ⟨?_, fun o' hm => ?_, ?_, fun o' hm u hu hl => ?_⟩
  · simpa [size] using hp
  · rw [Array.toList_push, List.mem_append, List.mem_singleton] at hm
    obtain hm | rfl := hm
    · exact hk.whole o' hm
    · exact ho
  · rw [Array.toList_push, List.map_append, hk.noted]
    rfl
  · rw [Array.toList_push, List.mem_append, List.mem_singleton] at hm
    obtain hm | rfl := hm
    · exact hk.apart o' hm u hu hl.1
    · exact absurd hu hl.2

/-- Nothing in the outcomes on the tape changes. -/
theorem congr (hk : t.Keeps h notes lent)
    (hsame : ∀ o ∈ t.entries.toList, ∀ u, h.Within o.carried u → h'.contents? u = h.contents? u) :
    t.Keeps h' notes lent := by
  refine ⟨hk.position, fun o ho => (hk.whole o ho).congr (hsame o ho), ?_,
    fun o ho u hu => hk.apart o ho u (hu.congr (hsame o ho))⟩
  rw [← hk.noted]
  exact List.map_congr_left fun o ho =>
    Heap.note_congr (Heap.image_congr (hk.whole o ho) (hsame o ho))

/-- Changes in containers that have been handed out do not reach the tape. -/
theorem change (hk : t.Keeps h notes lent) (hr : h.Reworks lent h') : t.Keeps h' notes lent :=
  hk.congr fun o ho => hr.same (hk.whole o ho) fun u hu hb hl => hb (hk.apart o ho u hu hl)

/-- What is read is new, so that it can be handed out. -/
theorem next (hk : t.Keeps h notes lent) (ho : h.Whole o.carried) (hp : t.position < t.size) :
    Keeps { t with position := t.position + 1 } (Heap.duplicateOutcome o h).2 notes
      fun u => lent u ∨ (Heap.duplicateOutcome o h).2.Within (Heap.duplicateOutcome o h).1.carried u := by
  obtain ⟨hv, hh⟩ := Heap.duplicateOutcome_carried o h
  have same (o' : Outcome) (hm : o' ∈ t.entries.toList) :=
    (hk.whole o' hm).extends_same (Heap.extends_duplicateOutcome o h)
  have kept := hk.congr same
  refine ⟨hp, kept.whole, kept.noted, fun o' hm u hu hl => ?_⟩
  obtain hl | hl := hl
  · exact kept.apart o' hm u hu hl
  · by_contra hb
    rw [hv, hh] at hl
    have absent := (Heap.newly_duplicate ho).new u hl hb
    exact ((hk.whole o' hm).within (hu.congr (same o' hm))).known hb absent

/-- The outcomes from the position on are played back. -/
theorem replays (hk : t.Keeps h notes lent) : Replays (notes.drop t.position) t h lent := by
  have length : t.size = notes.length := by simp [← hk.noted, size]
  generalize hr : notes.drop t.position = rest
  induction rest generalizing t h lent with
  | nil =>
    intro h₁ _
    refine next?_eq_none (Array.getElem?_eq_none ?_)
    rw [List.drop_eq_nil_iff, ← length] at hr
    exact hr
  | cons note rest ih =>
    intro h₁ hw
    have hk₁ := hk.change hw
    -- the next note is that of the next entry, with whatever has become of its containers
    have here : notes[t.position]? = some note := by
      rw [← List.head?_drop, hr]
      rfl
    have behind : notes.drop (t.position + 1) = rest := by
      rw [← List.tail_drop, hr]
      rfl
    rw [← hk₁.noted, List.getElem?_map] at here
    obtain ⟨o, ho, hnote⟩ := Option.map_eq_some_iff.1 here
    have whole := hk₁.whole o (List.mem_of_getElem? ho)
    rw [Array.getElem?_toList] at ho
    have inside : t.position < t.size := (Array.getElem?_eq_some_iff.1 ho).1
    refine ⟨_, _, _, next?_eq_some ho, ?_, ?_, ih (hk₁.next whole inside) length behind⟩
    · rw [Heap.note_duplicateOutcome whole, hnote]
    · obtain ⟨hv, hh⟩ := Heap.duplicateOutcome_carried o h₁
      rw [hv, hh]
      exact (Heap.newly_duplicate whole).new

end Keeps

theorem Used.keeps (hu : Used t h notes lent) : t.Keeps h notes lent := by
  induction hu with
  | new h => exact ⟨Nat.le_refl 0, nofun, rfl, nofun⟩
  | record o ho _ ih => exact ih.push ho (Nat.le_refl _)
  | inject o ho _ ih => exact ih.push ho (Nat.zero_le _)
  | @next t t' h h' notes lent o hn _ ih =>
    cases hp : t.entries[t.position]? with
    | none =>
      rw [next?_eq_none hp] at hn
      exact nomatch hn
    | some o' =>
      rw [next?_eq_some hp] at hn
      cases hn
      have place := (Array.getElem?_toList).trans hp
      exact ih.next (ih.whole o' (List.mem_of_getElem? place)) (Array.getElem?_eq_some_iff.1 hp).1
  | reset _ _ => exact ⟨Nat.le_refl 0, nofun, rfl, nofun⟩
  | change hr _ ih => exact ih.change hr

/-- The position of a tape is never behind its end, and the tape plays back its notes from there on.
Recording leaves nothing to play back and all outcomes in their places, and after an outcome has been
injected all of them are played back, that one last. -/
theorem playback (hu : Used t h notes lent) :
    t.position ≤ t.size ∧ t.size = notes.length ∧ Replays (notes.drop t.position) t h lent ∧
    ∀ o, h.Whole o.carried →
      (t.record o).replaying = false ∧ (t.record o).entries = t.entries.push o ∧
      Replays [] (t.record o) h (fun u => lent u ∧ ¬ h.Within o.carried u) ∧
      Replays (notes ++ [h.note o]) (t.inject o) h fun u => lent u ∧ ¬ h.Within o.carried u := by
  have length {t : Tape} {h : Heap} {notes : List Heap.Note} {lent : Value → Prop}
      (hu : Used t h notes lent) : t.size = notes.length := by simp [← hu.keeps.noted, size]
  refine ⟨hu.keeps.position, length hu, hu.keeps.replays, fun o ho => ⟨?_, rfl, ?_, ?_⟩⟩
  · simp [record, replaying]
  · have recorded := hu.record o ho
    have replays := recorded.keeps.replays
    rwa [List.drop_eq_nil_of_le (by rw [← length recorded]; simp [record, size])] at replays
  · exact (hu.inject o ho).keeps.replays

/-- A heap with one array. -/
def stored : Heap := { arrays := ⟨#[#[.int 1]]⟩ }

/-- The array has been recorded, and a number injected behind it. -/
def rewound : Tape := (Tape.record {} (.ok (.array ⟨0⟩))).inject (.ok (.int 7))

/-- The heap after the array has been read off the tape, and the copy has got one more item. -/
def appended : Heap :=
  let h := (Heap.duplicateOutcome (.ok (.array ⟨0⟩)) stored).2
  { h with arrays := h.arrays.modify ⟨1⟩ (·.push (.int 5)) }

theorem used_appended : ∃ lent, Used { rewound with position := 1 } appended
    [.ok (.container .array [] [.flat (.int 1)]), .ok (.flat (.int 7))] lent := by
  have array : stored.Whole (.array ⟨0⟩) :=
    .intro (fun _ => nofun) fun i hi => by
      obtain rfl := List.mem_singleton.1 hi
      exact .of_box? rfl
  have read := (((Used.new stored).record (.ok (.array ⟨0⟩)) array).inject (.ok (.int 7))
    (.of_box? rfl)).next (next?_eq_some rfl)
  have copy : (Heap.duplicate (.array ⟨0⟩) stored).1 = .array ⟨1⟩ := by with_unfolding_all rfl
  refine ⟨_, read.change (.array ⟨1⟩ (·.push (.int 5)) (.inr ?_) (.done _))⟩
  rw [(Heap.duplicateOutcome_carried _ _).1]
  show Heap.Within _ (Heap.duplicate (.array ⟨0⟩) stored).1 _
  rw [copy]
  exact .self

/-- The array is played back as it was, although the one that was read first has been changed. -/
theorem playback_of_appended : ∃ lent,
    Used { rewound with position := 1 } appended
      [.ok (.container .array [] [.flat (.int 1)]), .ok (.flat (.int 7))] lent ∧
    Replays [.ok (.flat (.int 7))] { rewound with position := 1 } appended lent ∧
    appended.Whole .null ∧
    Replays [.ok (.container .array [] [.flat (.int 1)]), .ok (.flat (.int 7)), .ok (.flat .null)]
      (({ rewound with position := 1 } : Tape).inject (.ok .null)) appended
      fun u => lent u ∧ ¬ appended.Within .null u := by
  obtain ⟨lent, used⟩ := used_appended
  have laws := playback used
  exact ⟨lent, used, laws.2.2.1, .of_box? rfl, (laws.2.2.2 (.ok .null) (.of_box? rfl)).2.2.2⟩

end Tape

end Rewind
