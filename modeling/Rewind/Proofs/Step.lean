/-
The steps of a session.

Whatever a program does, its coroutines, its functions and its event loop change in a few ways only.
These are the steps here, and a session goes from one situation to the next by them: which of its
coroutines has the turn, if a loop runs, and the world as it is.  What every step keeps holds in
every situation of every session.

* `Chain` — the frames of a suspended coroutine: constructs, and a simple statement inside them;
* `World.Runs` — a coroutine runs a body written in the program;
* `World.Sound` — every function starts at a token, and the frames of every coroutine are a chain in
  the source of the body it runs;
* `Control`, `Situation`, `Step`, `Steps` — the situations of a session and how one leads to another;
* `Steps.runs`, `Steps.sound` — a coroutine runs the same body for good, and a sound world stays so.
-/
import Rewind.Eval.Weave
import Rewind.Proofs.Event
import Rewind.Proofs.Rescan

namespace Rewind

/-! ### Frames -/

/-- A statement can start at `p`: a token stands there that is neither a colon nor the end. -/
def Source.Starts (s : Source) (p : Position) : Prop :=
  ∃ t rest, s.Holds t rest ∧ t.start = p ∧ t.kind ≠ .colon ∧ t.kind ≠ .eof

theorem Source.Starts.marks {s : Source} {p : Position} (h : s.Starts p) : s.Marks p := by
  obtain ⟨t, rest, ht, hp, -, -⟩ := h
  exact ⟨t, rest, ht, hp⟩

/-- The positions a construct goes back to are starts of tokens of the source. -/
def FrameKind.Marked (s : Source) : FrameKind → Prop
  | .whileLoop header => s.Marks header
  | .rangeLoop l => s.Marks l.body
  | .eachLoop l => s.Marks l.body
  | _ => True

/-- Frames in the source `s` from the outermost construct to the statement inside all of them. -/
inductive Chain (s : Source) : List Frame → Prop
  | simple {start : Position} : s.Starts start → Chain s [⟨start, .simple⟩]
  | construct {start : Position} {kind : FrameKind} {rest : List Frame} : s.Starts start →
      kind ≠ .simple → kind.Marked s → Chain s rest → Chain s (⟨start, kind⟩ :: rest)

/-! ### Sound worlds -/

/-- The body of a function starts at a token of its source. -/
def Function.Sound (f : Function) : Prop :=
  ∀ body : Script, f.body = .script body → body.source.Marks body.entry

namespace World

/-- The coroutine `r` runs the body `body` of a function of the program. -/
def Runs (w : World) (r : Ref .coroutine) (body : Script) : Prop :=
  ∃ c f owner, w.coroutines.get? r = some c ∧ c.kind = .script f owner ∧
    (w.functions.get f).body = .script body

/-- Functions start at tokens, and whatever a coroutine has parked can be re-entered. -/
structure Sound (w : World) : Prop where
  functions : ∀ {r : Ref .function} {f : Function}, w.functions.get? r = some f → f.Sound
  frames : ∀ {r : Ref .coroutine} {c : Coroutine}, w.coroutines.get? r = some c →
    c.frames = [] ∨ ∃ body, w.Runs r body ∧ Chain body.source c.frames

/-- A coroutine of this kind can be made: a gather task starts with no outcomes, and its children
are there. -/
def Admits (w : World) (kind : CoroutineKind) : Prop :=
  ∀ g, kind = .gather g → ∃ children returnExceptions,
    g = GatherState.ofChildren children returnExceptions ∧ ∀ child ∈ children, w.Has child

theorem admits_script (w : World) (f : Ref .function) (owner : Option (Ref .blueprint)) :
    w.Admits (.script f owner) := by
  intro g h
  contradiction

theorem admits_timer (w : World) (wake : Nat) : w.Admits (.timer wake) := by
  intro g h
  contradiction

/-- The functions of the second world are those of the first and more, which are sound. -/
def AddsFunctions (w w' : World) : Prop :=
  ∃ more : List Function, w'.functions.cells.toList = w.functions.cells.toList ++ more ∧
    ∀ f ∈ more, f.Sound

end World

/-! ### Steps -/

/-- Who acts in a session: the program outside of any loop, a loop between two turns, a coroutine in
its turn, or one that has just begun to wait; `failed` is a loop that cannot go on. -/
inductive Control where
  | idle
  | looping
  | turn (r : Ref .coroutine)
  | waiting (r : Ref .coroutine)
  | failed

/-- The coroutine that has the turn. -/
def Control.actor : Control → Option (Ref .coroutine)
  | .turn r => some r
  | _ => none

/-- Whoever acts goes on; a coroutine that has begun to wait does nothing more in its turn. -/
def Control.GoesOn (c : Control) : Prop := ∀ r, c ≠ .waiting r

/-- Who acts, and the world. -/
structure Situation where
  control : Control
  world : World

open World Eval

/-- What a session can do at once. -/
inductive Step : Situation → Situation → Prop
  /-- Values, names, functions and objects: no coroutine takes part. -/
  | compute {c : Control} {w w' : World} : c.GoesOn → w'.coroutines = w.coroutines →
      w'.loop = w.loop → w.AddsFunctions w' → Step ⟨c, w⟩ ⟨c, w'⟩
  /-- A coroutine is made. -/
  | create {c : Control} {w : World} (serial : Nat) (name : String) (kind : CoroutineKind)
      (scope : Option (Ref .scope)) : c.GoesOn → w.Admits kind →
      Step ⟨c, w⟩ ⟨c, { w with coroutines := w.coroutines.push { serial, name, kind, scope } }⟩
  /-- The clock goes on. -/
  | tick {c : Control} {w : World} {now : Nat} : c.GoesOn → w.loop.now ≤ now →
      Step ⟨c, w⟩ ⟨c, { w with loop := { w.loop with now } }⟩
  /-- The running coroutine starts another. -/
  | start {r : Ref .coroutine} {w : World} (target : Ref .coroutine) : w.Has target →
      Step ⟨.turn r, w⟩ ⟨.turn r, w.start target⟩
  /-- A coroutine is flagged as cancelled. -/
  | flag {c : Control} {w : World} (target : Ref .coroutine) : c.GoesOn → w.Has target →
      Step ⟨c, w⟩ ⟨c, (w.flagCancelled target).2⟩
  /-- The running coroutine cancels one. -/
  | cancel {r : Ref .coroutine} {w : World} (target : Ref .coroutine) : w.Has target →
      Step ⟨.turn r, w⟩ ⟨.turn r, (w.cancel target).2⟩
  /-- The running coroutine notices that it is cancelled. -/
  | notice {r : Ref .coroutine} {w : World} : (w.coroutines.get r).isCancelled = true →
      (w.coroutines.get r).cancelDelivered = false →
      Step ⟨.turn r, w⟩
        ⟨.turn r, w.modifyCoroutine r fun c => { c with cancelDelivered := true }⟩
  /-- The running coroutine begins to wait for one that is in the loop. -/
  | wait {r : Ref .coroutine} {w : World} (target : Ref .coroutine) : r ≠ target →
      (w.coroutines.get target).isDone = false → (w.coroutines.get target).stage ≠ .new →
      Step ⟨.turn r, w⟩ ⟨.waiting r, w.suspendOn r target⟩
  /-- A loop begins with a new coroutine. -/
  | opening {w : World} (root : Ref .coroutine) : w.Has root →
      (w.coroutines.get root).stage = .new →
      (w.coroutines.get root).isCancelled = false →
      Step ⟨.idle, w⟩ ⟨.looping, w.openLoop.start root⟩
  /-- The timers that are due end. -/
  | poll {w : World} : Step ⟨.looping, w⟩ ⟨.looping, w.pollSleepers⟩
  /-- The next in the queue has nothing to do. -/
  | pass {w : World} {r : Ref .coroutine} {rest : List (Ref .coroutine)} :
      w.loop.ready = r :: rest →
      ((w.coroutines.get r).isDone = true ∨
        ∀ f owner, (w.coroutines.get r).kind ≠ .script f owner) →
      Step ⟨.looping, w⟩ ⟨.looping, { w with loop := { w.loop with ready := rest } }⟩
  /-- The next in the queue was cancelled before it has run at all. -/
  | drop {w : World} {r : Ref .coroutine} {rest : List (Ref .coroutine)} :
      w.loop.ready = r :: rest → (w.coroutines.get r).isDone = false →
      (∃ f owner, (w.coroutines.get r).kind = .script f owner) →
      (w.coroutines.get r).isCancelled = true → (w.coroutines.get r).frames = [] →
      Step ⟨.looping, w⟩ ⟨.looping, finish { w with loop := { w.loop with ready := rest } } r
        (.error (Coroutine.cancellation 0 0))⟩
  /-- The next in the queue has nothing to go on with. -/
  | lose {w : World} {r : Ref .coroutine} {rest : List (Ref .coroutine)} :
      w.loop.ready = r :: rest → (w.coroutines.get r).isDone = false →
      (w.coroutines.get r).scope = none →
      Step ⟨.looping, w⟩ ⟨.failed, { w with loop := { w.loop with ready := rest } }⟩
  /-- The next in the queue takes its turn. -/
  | resume {w : World} {r : Ref .coroutine} {rest : List (Ref .coroutine)}
      {scope : Ref .scope} {f : Ref .function} {owner : Option (Ref .blueprint)} :
      w.loop.ready = r :: rest → (w.coroutines.get r).kind = .script f owner →
      (w.coroutines.get r).isDone = false →
      (w.coroutines.get r).scope = some scope →
      ((w.coroutines.get r).isCancelled = true → (w.coroutines.get r).frames ≠ []) →
      Step ⟨.looping, w⟩ ⟨.turn r,
        modifyCoroutine { w with loop := { w.loop with ready := rest } } r fun c =>
          { c with stage := .running, scope := none, frames := [], tape := {} }⟩
  /-- A coroutine that has begun to wait ends its turn and keeps what it goes on with. -/
  | keep {w : World} {r : Ref .coroutine} {body : Script} (t : Thread) : w.Runs r body →
      Chain body.source t.parked → Step ⟨.waiting r, w⟩ ⟨.looping, keepTurn r t w⟩
  /-- A coroutine has come to its end. -/
  | finish {w : World} {r : Ref .coroutine} (scope : Ref .scope) (outcome : Outcome) :
      Step ⟨.turn r, w⟩ ⟨.looping, (w.clearScope scope).finish r outcome⟩
  /-- A loop is over. -/
  | close {c : Control} {w : World} : Step ⟨c, w⟩ ⟨.idle, w.teardown⟩

/-- What a session can do. -/
def Steps : Situation → Situation → Prop := Relation.ReflTransGen Step

/-- What a session can do while a loop runs. -/
def Within : Situation → Situation → Prop :=
  Relation.ReflTransGen fun s s' => Step s s' ∧ s'.control ≠ .idle

theorem Within.steps {s s' : Situation} (h : Within s s') : Steps s s' := by
  induction h with
  | refl => exact .refl
  | tail _ hstep ih => exact .tail ih hstep.1

theorem Within.running {s s' : Situation} (h : Within s s') (hs : s.control ≠ .idle) :
    s'.control ≠ .idle := by
  cases h with
  | refl => exact hs
  | tail _ hstep => exact hstep.2

/-! ### What steps keep -/

namespace Coroutine

theorem Changes.frames {c c' : Coroutine} (h : Changes c c') :
    c'.frames = c.frames ∨ c'.frames = [] := by
  induction h with
  | refl => exact .inl rfl
  | tail _ hc ih =>
    cases hc with
    | release => exact .inr rfl
    | _ => exact ih

end Coroutine

namespace World

namespace AddsFunctions

theorem of_same {w w' : World} (h : w'.functions = w.functions) : w.AddsFunctions w' :=
  ⟨[], by rw [h, List.append_nil], by simp⟩

theorem trans {u v w : World} (h : u.AddsFunctions v) (h' : v.AddsFunctions w) :
    u.AddsFunctions w := by
  obtain ⟨more, hm, hs⟩ := h
  obtain ⟨more', hm', hs'⟩ := h'
  refine ⟨more ++ more', by rw [hm', hm, List.append_assoc], fun f hf => ?_⟩
  exact (List.mem_append.1 hf).elim (hs f) (hs' f)

/-- A function written in the program is still there. -/
theorem script {w w' : World} (h : w.AddsFunctions w') {f : Ref .function} {body : Script}
    (hf : (w.functions.get f).body = .script body) : (w'.functions.get f).body = .script body := by
  obtain ⟨more, hm, -⟩ := h
  cases hg : w.functions.get? f with
  | none => simp [Arena.get, hg, default] at hf
  | some g =>
    have hg' : w'.functions.get? f = some g := by
      simp only [Arena.get?, ← Array.getElem?_toList] at hg ⊢
      rw [hm, List.getElem?_append_left (List.getElem?_eq_some_iff.1 hg).1, hg]
    simpa [Arena.get, hg, hg'] using hf

theorem sound {w w' : World} (h : w.AddsFunctions w')
    (hw : ∀ {r : Ref .function} {f : Function}, w.functions.get? r = some f → f.Sound)
    {r : Ref .function} {f : Function} (hf : w'.functions.get? r = some f) : f.Sound := by
  obtain ⟨more, hm, hs⟩ := h
  simp only [Arena.get?, ← Array.getElem?_toList] at hf hw
  rw [hm] at hf
  obtain hl | hl := List.mem_append.1 (List.mem_of_getElem? hf)
  · obtain ⟨i, hi⟩ := List.mem_iff_getElem?.1 hl
    exact hw (r := ⟨i⟩) hi
  · exact hs f hl

end AddsFunctions

theorem Runs.evolves {w w' : World} {r : Ref .coroutine} {body : Script} (h : w.Runs r body)
    (he : Evolves w w') : w'.Runs r body := by
  obtain ⟨c, f, owner, hc, hk, hf⟩ := h
  obtain ⟨c', hc', hcc'⟩ := he.changes hc
  exact ⟨c', f, owner, hc', hcc'.script hk, by rw [he.functions, hf]⟩

theorem Runs.modify {w : World} {r : Ref .coroutine} {body : Script} (h : w.Runs r body)
    (s : Ref .coroutine) (f : Coroutine → Coroutine) (hk : ∀ c, (f c).kind = c.kind) :
    (w.modifyCoroutine s f).Runs r body := by
  obtain ⟨c, g, owner, hc, hkind, hf⟩ := h
  by_cases hs : r = s
  · subst hs
    exact ⟨f c, g, owner, by simp [modifyCoroutine, Arena.get?_modify, hc], by rw [hk, hkind], hf⟩
  · exact ⟨c, g, owner, by simp [modifyCoroutine, Arena.get?_modify, hs, hc], hkind, hf⟩

theorem Runs.unique {w : World} {r : Ref .coroutine} {body body' : Script} (h : w.Runs r body)
    (h' : w.Runs r body') : body = body' := by
  obtain ⟨c, f, owner, hc, hk, hf⟩ := h
  obtain ⟨c', f', owner', hc', hk', hf'⟩ := h'
  obtain rfl : c = c' := Option.some.inj (hc.symm.trans hc')
  obtain ⟨rfl, -⟩ := CoroutineKind.script.inj (hk.symm.trans hk')
  exact Body.script.inj (hf.symm.trans hf')

theorem Sound.evolves {w w' : World} (h : w.Sound) (he : Evolves w w') : w'.Sound := by
  refine ⟨fun hf => h.functions (he.functions ▸ hf), fun {r c'} hc' => ?_⟩
  obtain ⟨c, hc, hcc⟩ := he.before hc'
  obtain hsame | hnil := hcc.frames
  · obtain hn | ⟨body, hb, hch⟩ := h.frames hc
    · exact .inl (hsame.trans hn)
    · exact .inr ⟨body, hb.evolves he, hsame ▸ hch⟩
  · exact .inl hnil

/-- Updates of one coroutine that leave its kind and clear or keep its frames. -/
theorem Sound.modify {w : World} (h : w.Sound) (r : Ref .coroutine) (f : Coroutine → Coroutine)
    (hk : ∀ c, (f c).kind = c.kind) (hf : ∀ c, (f c).frames = c.frames ∨ (f c).frames = []) :
    (w.modifyCoroutine r f).Sound := by
  refine ⟨h.functions, fun {s c'} hc' => ?_⟩
  have frames {c : Coroutine} (hc : w.coroutines.get? s = some c) :
      c.frames = [] ∨ ∃ body, (w.modifyCoroutine r f).Runs s body ∧ Chain body.source c.frames :=
    (h.frames hc).imp_right fun ⟨body, hb, hch⟩ => ⟨body, hb.modify r f hk, hch⟩
  simp only [modifyCoroutine, Arena.get?_modify] at hc'
  split at hc'
  · obtain ⟨c, hc, rfl⟩ := Option.map_eq_some_iff.1 hc'
    obtain he | he := hf c
    · rw [he]; exact frames hc
    · exact .inl he
  · exact frames hc'

theorem Sound.push {w : World} (h : w.Sound) {x : Coroutine} (hx : x.frames = []) :
    Sound { w with coroutines := w.coroutines.push x } := by
  refine ⟨h.functions, fun {r c} hc => ?_⟩
  by_cases hr : r.index < w.coroutines.size
  · have hc' : w.coroutines.get? r = some c :=
      (Arena.get?_push_of_lt w.coroutines x hr).symm.trans hc
    refine (h.frames hc').imp_right fun ⟨body, ⟨d, f, owner, hd, hk, hf⟩, hch⟩ => ?_
    exact ⟨body, ⟨d, f, owner, (Arena.get?_push_of_lt w.coroutines x hr).trans hd, hk, hf⟩, hch⟩
  · have he : c = x := by
      simp only [Arena.size] at hr
      simp only [Arena.get?, Arena.push, Array.getElem?_push] at hc
      split at hc
      · exact (Option.some.inj hc).symm
      · rw [Array.getElem?_eq_none (by omega)] at hc
        contradiction
    exact .inl (he ▸ hx)

theorem Runs.push {w : World} {r : Ref .coroutine} {body : Script} (h : w.Runs r body)
    (x : Coroutine) : Runs { w with coroutines := w.coroutines.push x } r body := by
  obtain ⟨c, f, owner, hc, hk, hf⟩ := h
  have hr : r.index < w.coroutines.size := (Array.getElem?_eq_some_iff.1 hc).1
  exact ⟨c, f, owner, (Arena.get?_push_of_lt w.coroutines x hr).trans hc, hk, hf⟩

theorem Runs.adds {w w' : World} {r : Ref .coroutine} {body : Script} (h : w.Runs r body)
    (hc : w'.coroutines = w.coroutines) (hf : w.AddsFunctions w') : w'.Runs r body := by
  obtain ⟨c, f, owner, hg, hk, hb⟩ := h
  exact ⟨c, f, owner, by rw [hc, hg], hk, hf.script hb⟩

theorem Sound.adds {w w' : World} (h : w.Sound) (hc : w'.coroutines = w.coroutines)
    (hf : w.AddsFunctions w') : w'.Sound := by
  refine ⟨hf.sound h.functions, fun {r c} hg => ?_⟩
  rw [hc] at hg
  exact (h.frames hg).imp_right fun ⟨body, hb, hch⟩ => ⟨body, hb.adds hc hf, hch⟩

theorem Runs.suspendOn {w : World} {r : Ref .coroutine} {body : Script} (h : w.Runs r body)
    (s target : Ref .coroutine) : (w.suspendOn s target).Runs r body := by
  refine Runs.modify ?_ target _ fun _ => rfl
  exact h.modify s _ fun _ => rfl

theorem Sound.suspendOn {w : World} (h : w.Sound) (r target : Ref .coroutine) :
    (w.suspendOn r target).Sound := by
  refine Sound.modify ?_ target _ (fun _ => rfl) fun _ => .inl rfl
  exact h.modify r _ (fun _ => rfl) fun _ => .inl rfl

theorem Runs.keepTurn {w : World} {r : Ref .coroutine} {body : Script} (h : w.Runs r body)
    (s : Ref .coroutine) (t : Thread) : (Eval.keepTurn s t w).Runs r body := by
  simp only [Eval.keepTurn]
  split
  · refine Runs.evolves ?_ (evolves_enqueue _ s)
    refine Runs.modify ?_ s _ fun _ => rfl
    exact h.modify s _ fun _ => rfl
  · exact h.modify s _ fun _ => rfl

/-- Frames that are kept have to be a chain in the source of the body that runs. -/
theorem Sound.keepTurn {w : World} (h : w.Sound) {r : Ref .coroutine} {body : Script}
    (hr : w.Runs r body) {t : Thread} (hch : Chain body.source t.parked) :
    (Eval.keepTurn r t w).Sound := by
  have kept : (w.modifyCoroutine r fun c =>
      { c with scope := some t.scope, frames := t.parked, tape := t.tape }).Sound := by
    refine ⟨h.functions, fun {s c'} hc' => ?_⟩
    by_cases hs : s = r
    · subst hs
      obtain ⟨c, hc, rfl⟩ : ∃ c, w.coroutines.get? s = some c ∧
          { c with scope := some t.scope, frames := t.parked, tape := t.tape } = c' := by
        simpa [modifyCoroutine, Arena.get?_modify] using hc'
      exact .inr ⟨body, hr.modify s _ fun _ => rfl, hch⟩
    · have hc : w.coroutines.get? s = some c' := by
        simpa [modifyCoroutine, Arena.get?_modify, hs] using hc'
      obtain hn | ⟨body, hb, hch⟩ := h.frames hc
      · exact .inl hn
      · exact .inr ⟨body, hb.modify r _ fun _ => rfl, hch⟩
  simp only [Eval.keepTurn]
  split
  · refine Sound.evolves ?_ (evolves_enqueue _ r)
    exact kept.modify r _ (fun _ => rfl) fun _ => .inl rfl
  · exact kept

end World

open World

/-- Apart from a few, steps are events of the loop, and none of those begins a turn. -/
theorem Step.cases {c c' : Control} {w w' : World} (h : Step ⟨c, w⟩ ⟨c', w'⟩) :
    ((∀ a, a = none ∨ a = c'.actor → Active a w → Events a w w') ∧
      (c' = c ∧ c.GoesOn ∨ c' = .looping ∧ c.GoesOn ∨ c' = .failed)) ∨
    (w'.coroutines = w.coroutines ∧ w'.loop = w.loop ∧ w.AddsFunctions w' ∧ c' = c ∧ c.GoesOn) ∨
    (∃ x : Coroutine, x.stage = .new ∧ x.exception = none ∧ x.waiters = [] ∧ x.frames = [] ∧
      x.isCancelled = false ∧ x.cancelDelivered = false ∧
      c' = c ∧ c.GoesOn ∧ w' = { w with coroutines := w.coroutines.push x }) ∨
    (∃ r, (w.coroutines.get r).isCancelled = true ∧ c = .turn r ∧ c' = .turn r ∧
      w' = w.modifyCoroutine r fun c => { c with cancelDelivered := true }) ∨
    (∃ r target, c = .turn r ∧ c' = .waiting r ∧ r ≠ target ∧
      (w.coroutines.get target).isDone = false ∧ w' = w.suspendOn r target) ∨
    (∃ r rest scope f owner, c = .looping ∧ c' = .turn r ∧ w.loop.ready = r :: rest ∧
      (w.coroutines.get r).isDone = false ∧ (w.coroutines.get r).scope = some scope ∧
      (w.coroutines.get r).kind = .script f owner ∧
      w' = modifyCoroutine { w with loop := { w.loop with ready := rest } } r fun c =>
        { c with stage := .running, scope := none, frames := [], tape := {} }) ∨
    (∃ r body t, c = .waiting r ∧ c' = .looping ∧ w.Runs r body ∧ Chain body.source t.parked ∧
      w' = keepTurn r t w) ∨
    (c' = .idle ∧ w' = w.teardown) := by
  cases h with
  | compute hg hc hl hf => exact .inr (.inl ⟨hc, hl, hf, rfl, hg⟩)
  | create _ _ _ _ hg _ => exact .inr (.inr (.inl ⟨_, rfl, rfl, rfl, rfl, rfl, rfl, rfl, hg, rfl⟩))
  | notice hc => exact .inr (.inr (.inr (.inl ⟨_, hc, rfl, rfl, rfl⟩)))
  | wait target hn hd _ =>
    exact .inr (.inr (.inr (.inr (.inl ⟨_, target, rfl, rfl, hn, hd, rfl⟩))))
  | resume hr hk hd hs _ =>
    exact .inr (.inr (.inr (.inr (.inr (.inl ⟨_, _, _, _, _, rfl, rfl, hr, hd, hs, hk, rfl⟩)))))
  | keep t hr hch =>
    exact .inr (.inr (.inr (.inr (.inr (.inr (.inl ⟨_, _, t, rfl, rfl, hr, hch, rfl⟩))))))
  | tick hg => exact .inl ⟨fun _ _ _ => .single (.aside rfl (.refl _) rfl rfl), .inl ⟨rfl, hg⟩⟩
  | start target =>
    exact .inl ⟨fun _ _ ha => events_start _ target ha, .inl ⟨rfl, by simp [Control.GoesOn]⟩⟩
  | flag target hg => exact .inl ⟨fun _ _ _ => events_flagCancelled _ target, .inl ⟨rfl, hg⟩⟩
  | cancel target =>
    exact .inl ⟨fun _ _ ha => events_cancel _ target ha, .inl ⟨rfl, by simp [Control.GoesOn]⟩⟩
  | opening root =>
    refine .inl ⟨fun a _ ha => ?_, .inr (.inl ⟨rfl, by simp [Control.GoesOn]⟩)⟩
    exact (events_openLoop w).trans (events_start _ root ha)
  | poll =>
    refine .inl ⟨fun a hn _ => ?_, .inl ⟨rfl, by simp [Control.GoesOn]⟩⟩
    obtain rfl : a = none := by simpa [Control.actor] using hn
    exact events_pollSleepers _
  | pass hr =>
    exact .inl ⟨fun _ _ _ => .single (.dequeue hr), .inl ⟨rfl, by simp [Control.GoesOn]⟩⟩
  | lose hr => exact .inl ⟨fun _ _ _ => .single (.dequeue hr), .inr (.inr rfl)⟩
  | drop hr =>
    refine .inl ⟨fun a hn _ => ?_, .inl ⟨rfl, by simp [Control.GoesOn]⟩⟩
    obtain rfl : a = none := by simpa [Control.actor] using hn
    exact Events.trans (.single (.dequeue hr)) (events_finish _ _ _ (active_none _) (by simp))
  | finish scope outcome =>
    refine .inl ⟨fun a hn _ => ?_, .inr (.inl ⟨rfl, by simp [Control.GoesOn]⟩)⟩
    obtain rfl : a = none := by simpa [Control.actor] using hn
    have hc : Events none w (w.clearScope scope) := .single (.aside rfl (.refl _) rfl rfl)
    exact hc.trans (events_finish _ _ outcome (active_none _) (by simp))
  | close => exact .inr (.inr (.inr (.inr (.inr (.inr (.inr ⟨rfl, rfl⟩))))))

/-- A coroutine runs the same body for good. -/
theorem Step.runs {c c' : Control} {w w' : World} (h : Step ⟨c, w⟩ ⟨c', w'⟩) {r : Ref .coroutine}
    {body : Script} (hr : w.Runs r body) : w'.Runs r body := by
  obtain ⟨he, -⟩ | ⟨hc, -, hf, -⟩ | ⟨x, -, -, -, -, -, -, -, -, rfl⟩ | ⟨s, -, -, -, rfl⟩ |
    ⟨s, t, -, -, -, -, rfl⟩ | ⟨s, rest, scope, f, owner, -, -, -, -, -, -, rfl⟩ |
    ⟨s, body', t, -, -, -, -, rfl⟩ | ⟨-, rfl⟩ := h.cases
  · exact hr.evolves (he none (.inl rfl) (active_none w)).evolves
  · exact hr.adds hc hf
  · exact hr.push x
  · exact hr.modify s _ fun _ => rfl
  · exact hr.suspendOn s t
  · exact (hr.evolves (.of_loop w _)).modify s _ fun _ => rfl
  · exact hr.keepTurn s t
  · exact hr.evolves (evolves_teardown w)

/-- A sound world stays sound. -/
theorem Step.sound {c c' : Control} {w w' : World} (h : Step ⟨c, w⟩ ⟨c', w'⟩) (hs : w.Sound) :
    w'.Sound := by
  obtain ⟨he, -⟩ | ⟨hc, -, hf, -⟩ | ⟨x, -, -, -, hx, -, -, -, -, rfl⟩ | ⟨s, -, -, -, rfl⟩ |
    ⟨s, t, -, -, -, -, rfl⟩ | ⟨s, rest, scope, f, owner, -, -, -, -, -, -, rfl⟩ |
    ⟨s, body, t, -, -, hr, hch, rfl⟩ | ⟨-, rfl⟩ := h.cases
  · exact hs.evolves (he none (.inl rfl) (active_none w)).evolves
  · exact hs.adds hc hf
  · exact hs.push hx
  · exact hs.modify s _ (fun _ => rfl) fun _ => .inl rfl
  · exact hs.suspendOn s t
  · exact (hs.evolves (.of_loop w _)).modify s _ (fun _ => rfl) fun _ => .inr rfl
  · exact hs.keepTurn hr hch
  · exact hs.evolves (evolves_teardown w)

theorem Steps.runs {s s' : Situation} (h : Steps s s') {r : Ref .coroutine} {body : Script}
    (hr : s.world.Runs r body) : s'.world.Runs r body := by
  induction h with
  | refl => exact hr
  | tail _ hstep ih => exact hstep.runs ih

theorem Steps.sound {s s' : Situation} (h : Steps s s') (hs : s.world.Sound) : s'.world.Sound := by
  induction h with
  | refl => exact hs
  | tail _ hstep ih => exact hstep.sound ih

end Rewind
