/-
Re-entering frames.

A body that is resumed goes back to the construct of the next frame and looks where it stands, as it
does with every statement at the start of a line.  A rewound cursor always counts as being at the
start of a line.  So the frames lead back to the suspended statement exactly if every one of them
starts at the column of the body it is re-entered in, which holds of statements that have a line of
their own and fails for most that follow another one on its line.

* `Fits` — every frame starts at the column of the body it is re-entered in;
* `FrameKind.inside`, `Machine.descend` — the machine that the frames lead to;
* `unwind` — what the constructs of the frames make of the result of the body inside them;
* `body_descend` — a run from frames that fit is the run of the body inside, unwound;
* `body_resumes`, `body_rejects`, `body_skips` — so the suspended statement runs again, or the text
  is rejected, or the statement is passed by.
-/
import Rewind.Proofs.Statements

namespace Rewind

open Eval

/-! ### Columns -/

/-- Every frame starts at the column of the body it is re-entered in, the first one at `column`. -/
def Fits : Nat → List Frame → Prop
  | _, [] => True
  | column, f :: rest => f.start.column = column ∧ Fits (column + 4) rest

instance Fits.decidable : (column : Nat) → (frames : List Frame) → Decidable (Fits column frames)
  | _, [] => .isTrue trivial
  | column, f :: rest =>
    have := decidable (column + 4) rest
    inferInstanceAs (Decidable (f.start.column = column ∧ Fits (column + 4) rest))

theorem fits_append {column : Nat} {outer inner : List Frame} :
    Fits column (outer ++ inner) ↔
      Fits column outer ∧ Fits (column + 4 * outer.length) inner := by
  induction outer generalizing column with
  | nil => simp [Fits]
  | cons f outer ih =>
    have hc : column + 4 + 4 * outer.length = column + 4 * (outer.length + 1) := by omega
    simp only [List.cons_append, Fits, ih, List.length_cons, hc]
    exact and_assoc.symm

/-- Frames that do not fit have a first one that does not. -/
theorem exists_misfit {column : Nat} {frames : List Frame} (h : ¬ Fits column frames) :
    ∃ outer f rest, frames = outer ++ f :: rest ∧ Fits column outer ∧
      f.start.column ≠ column + 4 * outer.length := by
  induction frames generalizing column with
  | nil => exact absurd trivial h
  | cons f frames ih =>
    by_cases hf : f.start.column = column
    · obtain ⟨outer, g, rest, rfl, hfit, hg⟩ := ih fun hr => h ⟨hf, hr⟩
      refine ⟨f :: outer, g, rest, rfl, ⟨hf, hfit⟩, ?_⟩
      rw [List.length_cons]
      omega
    · exact ⟨[], f, frames, rfl, trivial, hf⟩

/-! ### Machines inside constructs -/

namespace Machine

/-- The machine with one more loop around. -/
def deeper (m : Machine) : Machine :=
  { m with thread := { m.thread with
    mode := { m.thread.mode with loopDepth := m.thread.mode.loopDepth + 1 } } }

/-- The machine with its cursor back at `p`. -/
def onto (m : Machine) (p : Position) : Machine :=
  match m.thread.cursor.rewind p with
  | .ok cursor => { m with thread := { m.thread with cursor } }
  | .error _ => m

/-- The machine back at `p`, where it has taken the next frame. -/
def takes (m : Machine) (p : Position) : Machine :=
  { m.onto p with thread := { (m.onto p).thread with resume := m.thread.resume.tail } }

theorem onto_eq {m : Machine} {t : Token} {behind : List Char}
    (h : m.thread.cursor.source.Holds t behind) :
    m.onto t.start =
      { m with thread := { m.thread with cursor := ⟨m.thread.cursor.source, t, behind, 0⟩ } } := by
  simp only [onto, Cursor.rewind_eq h]

end Machine

/-- The machine on which a construct that is re-entered runs the rest of its body. -/
def FrameKind.inside : FrameKind → Machine → Machine
  | .whileLoop _, m | .rangeLoop _, m => m.deeper
  | .eachLoop l, m => Machine.deeper { m with pinned := .values l.items.toList :: m.pinned }
  | .attempt (.cleanup pending), m =>
    { m with pinned := .values (pending.toList.flatMap Signal.carried) :: m.pinned }
  | _, m => m

/-- A construct turns to the rest of its body first, and only once. -/
theorem reenter_inside {j : Jobs} {n column : Nat} {body : Run Status} {kind : FrameKind}
    (hk : kind ≠ .simple) (m : Machine) :
    reenter j n column body kind m =
      reenter j n column (fun _ => body (kind.inside m)) kind m := by
  cases kind with
  | simple => contradiction
  | block | branch | whileLoop | rangeLoop | eachLoop => rfl
  | attempt phase => cases phase <;> rfl

/-- A failure inside a construct is one of the construct. -/
theorem reenter_error (j : Jobs) (n column : Nat) {kind : FrameKind} (hk : kind ≠ .simple)
    (m m' : Machine) (e : Fault) :
    ∃ m'', reenter j n column (fun _ => .error e m') kind m = .error (.fault e) m'' := by
  cases kind with
  | simple => contradiction
  | block | branch | whileLoop | rangeLoop | eachLoop => exact ⟨_, rfl⟩
  | attempt phase => cases phase <;> exact ⟨_, rfl⟩

/-- What two machines share of which one has come to `p` in the other's place: all that a statement
there can see, but for the number of loops around it. -/
structure Reaches (p : Position) (m m' : Machine) : Prop where
  place : m'.thread.cursor.capture = p
  source : m'.thread.cursor.source = m.thread.cursor.source
  world : m'.world = m.world
  output : m'.output = m.output
  scope : m'.thread.scope = m.thread.scope
  tape : m'.thread.tape = m.thread.tape
  task : m'.thread.task = m.thread.task
  mode : ∃ loopDepth, m'.thread.mode = { m.thread.mode with loopDepth }

namespace Reaches

theorem onto {m : Machine} {p : Position} (h : m.thread.cursor.source.Marks p) :
    Reaches p m (m.onto p) := by
  obtain ⟨t, behind, ht, rfl⟩ := h
  rw [Machine.onto_eq ht]
  exact ⟨rfl, rfl, rfl, rfl, rfl, rfl, rfl, _, rfl⟩

theorem takes {m : Machine} {p : Position} (h : m.thread.cursor.source.Marks p) :
    Reaches p m (m.takes p) := by
  obtain ⟨hp, hs, hw, ho, hsc, ht, hta, hm⟩ := onto h
  exact ⟨hp, hs, hw, ho, hsc, ht, hta, hm⟩

theorem inside {m m' : Machine} {p : Position} (h : Reaches p m m') (kind : FrameKind) :
    Reaches p m (kind.inside m') := by
  obtain ⟨hp, hs, hw, ho, hsc, ht, hta, depth, hm⟩ := h
  have deeper (pinned : List Pin) : Reaches p m (Machine.deeper { m' with pinned }) :=
    ⟨hp, hs, hw, ho, hsc, ht, hta, depth + 1, by simp [Machine.deeper, hm]⟩
  cases kind with
  | simple | block | branch => exact ⟨hp, hs, hw, ho, hsc, ht, hta, depth, hm⟩
  | whileLoop | rangeLoop => exact deeper m'.pinned
  | eachLoop => exact deeper _
  | attempt phase => cases phase <;> exact ⟨hp, hs, hw, ho, hsc, ht, hta, depth, hm⟩

theorem trans {m₁ m₂ m₃ : Machine} {p q : Position} (h : Reaches p m₁ m₂)
    (h' : Reaches q m₂ m₃) : Reaches q m₁ m₃ := by
  obtain ⟨-, hs, hw, ho, hsc, ht, hta, depth, hm⟩ := h
  obtain ⟨hp, hs', hw', ho', hsc', ht', hta', depth', hm'⟩ := h'
  exact ⟨hp, hs'.trans hs, hw'.trans hw, ho'.trans ho, hsc'.trans hsc, ht'.trans ht,
    hta'.trans hta, depth', by rw [hm', hm]⟩

end Reaches

theorem resume_inside (kind : FrameKind) (m : Machine) :
    (kind.inside m).thread.resume = m.thread.resume := by
  cases kind with
  | attempt phase => cases phase <;> rfl
  | _ => rfl

/-! ### One frame -/

theorem conclude_congr {start : Position} {x y : Eval Status} {m m' : Machine} (h : x m = y m') :
    conclude start x m = conclude start y m' := by
  rw [conclude_run, conclude_run, h]

theorem goOn_congr {column : Nat} {next x y : Run Status} {m m' : Machine} (h : x m = y m') :
    goOn column next x m = goOn column next y m' := by
  simp only [goOn, bind, EStateM.bind, h]

theorem enter_frame {j : Jobs} {n : Nat} {m : Machine} {f : Frame} {rest : List Frame}
    (h : m.thread.resume = f :: rest) :
    enter j n f.start m = reenter j n f.start.column (j.body (f.start.column + 4)) f.kind
      { m with thread := { m.thread with resume := rest } } := by
  show EStateM.bind (liftM (takeFrame f.start)) _ m = _
  unfold EStateM.bind
  rw [Quiet.run_lift, takeFrame_run, h]
  simp only [if_true]

/-- A body that is resumed looks where the construct of the next frame stands: the body is over if
that is left of its column, the text is rejected if it is right of it, and else the frame is
re-entered. -/
theorem body_of_frame (n column : Nat) {m : Machine} {f : Frame} {rest : List Frame}
    (hr : m.thread.resume = f :: rest) (hs : m.thread.cursor.source.Starts f.start) :
    (jobs (n + 2)).body column m =
      if f.start.column < column then .ok .normal (m.onto f.start)
      else if column < f.start.column then
        .error (.failure (.malformed (.unexpectedIndentation column f.start.column) f.start.line
          f.start.column)) (m.onto f.start)
      else
        goOn column (statements (jobs (n + 1)) column n)
          (conclude f.start (reenter (jobs (n + 1)) n f.start.column
            ((jobs (n + 1)).body (f.start.column + 4)) f.kind)) (m.takes f.start) := by
  obtain ⟨t, behind, ht, hstart, hcolon, heof⟩ := hs
  have honto := Machine.onto_eq ht
  rw [hstart] at honto
  have hcursor : (m.onto f.start).thread.cursor = ⟨m.thread.cursor.source, t, behind, 0⟩ := by
    rw [honto]
  have hrun : (jobs (n + 2)).body column m =
      statements (jobs (n + 1)) column (n + 1) (m.onto f.start) := by
    have hrewind : rewind f.start m = .ok () (m.onto f.start) := by
      rw [← hstart]
      simp only [rewind, move, Cursor.rewind_eq ht, Machine.onto]
    show runBody (jobs (n + 1)) (n + 1) column m = _
    simp only [runBody, bind, EStateM.bind, get_run, hr, hrewind]
  have hexec : execute (jobs (n + 1)) n (m.onto f.start) = conclude f.start
      (reenter (jobs (n + 1)) n f.start.column ((jobs (n + 1)).body (f.start.column + 4)) f.kind)
      (m.takes f.start) := by
    have hresume : (m.onto f.start).thread.resume = f :: rest := by
      rw [honto]
      exact hr
    have hcapture : (m.onto f.start).thread.cursor.capture = f.start := by
      rw [hcursor]
      exact hstart
    rw [execute_run _ _ (by rw [hcursor]; exact hcolon), hcapture]
    refine conclude_congr ((enter_frame hresume).trans ?_)
    simp only [Machine.takes, hr, List.tail_cons]
  -- the rewound cursor counts as being at the start of a line
  have hline : (m.onto f.start).thread.cursor.atLineStart = true := by
    rw [hcursor]
    exact decide_eq_true ht.reads.line_pos
  have hskip := Cursor.skipColons_eq_self (c := (m.onto f.start).thread.cursor)
    (by rw [hcursor]; exact hcolon)
  have hcurrent : (m.onto f.start).thread.cursor.current = t := by rw [hcursor]
  have hcolumn : t.column = f.start.column := congrArg Position.column hstart
  have hplace : t.line = f.start.line := congrArg Position.line hstart
  rw [hrun, statements_run _ _ _ hskip, if_neg (by rw [hcursor]; exact heof)]
  simp only [hline, true_and, hcurrent, hcolumn, hplace]
  split
  · rfl
  · split
    · rfl
    · exact goOn_congr hexec

/-! ### All frames -/

/-- The machine inside the constructs of the frames. -/
def Machine.descend : Machine → List Frame → Machine
  | m, [] => m
  | m, f :: rest => (f.kind.inside (m.takes f.start)).descend rest

/-- What the constructs of the frames, the first of them in a body at `column`, make of the result
of the body inside all of them. -/
def unwind (n : Nat) : Nat → List Frame → Machine → EStateM.Result Fault Machine Status →
    EStateM.Result Fault Machine Status
  | _, [], _, result => result
  | column, f :: rest, m, result =>
    let k := n + rest.length
    goOn column (statements (jobs (k + 1)) column k)
      (conclude f.start (reenter (jobs (k + 1)) k f.start.column
        (fun _ => unwind n (column + 4) rest (f.kind.inside (m.takes f.start)) result) f.kind))
      (m.takes f.start)

theorem Chain.starts {s : Source} {f : Frame} {rest : List Frame} (h : Chain s (f :: rest)) :
    s.Starts f.start := by
  cases h with
  | simple hs => exact hs
  | construct hs => exact hs

/-- A frame with others inside is one of a construct. -/
theorem Chain.outer {s : Source} {f : Frame} {rest : List Frame} (h : Chain s (f :: rest))
    (hr : rest ≠ []) : f.kind ≠ .simple ∧ Chain s rest := by
  cases h with
  | simple => contradiction
  | construct _ hk _ hrest => exact ⟨hk, hrest⟩

theorem resume_takes {m : Machine} {f : Frame} {rest : List Frame}
    (h : m.thread.resume = f :: rest) : (m.takes f.start).thread.resume = rest := by
  simp [Machine.takes, h]

section Descent

variable {column : Nat} {m : Machine} {outer inner : List Frame}
  (hr : m.thread.resume = outer ++ inner) (hc : Chain m.thread.cursor.source (outer ++ inner))
  (hi : inner ≠ [])
include hr hc hi

/-- The machine inside has the frames inside left, and is as the one outside else. -/
theorem descend_inside :
    (m.descend outer).thread.resume = inner ∧
      (m.descend outer).thread.cursor.source = m.thread.cursor.source ∧
      ∀ p m', Reaches p (m.descend outer) m' → Reaches p m m' := by
  induction outer generalizing m with
  | nil => exact ⟨hr, rfl, fun _ _ => id⟩
  | cons f outer ih =>
    obtain ⟨hk, hrest⟩ := Chain.outer hc (by simp [hi])
    have taken : Reaches f.start m (f.kind.inside (m.takes f.start)) :=
      (Reaches.takes (Chain.starts hc).marks).inside f.kind
    obtain ⟨hres, hsource, hreach⟩ := ih (m := f.kind.inside (m.takes f.start))
      (by rw [resume_inside]; exact resume_takes hr) (by rw [taken.source]; exact hrest)
    exact ⟨hres, hsource.trans taken.source, fun p m' h => taken.trans (hreach p m' h)⟩

/-- A run from frames that fit is the run of the body inside them, unwound. -/
theorem body_descend (n : Nat) (hf : Fits column outer) :
    (jobs (n + 1 + outer.length)).body column m = unwind n column outer m
      ((jobs (n + 1)).body (column + 4 * outer.length) (m.descend outer)) := by
  induction outer generalizing column m with
  | nil => rfl
  | cons f outer ih =>
    obtain ⟨hcolumn, hfits⟩ := hf
    obtain ⟨hk, hrest⟩ := Chain.outer hc (by simp [hi])
    have source : (f.kind.inside (m.takes f.start)).thread.cursor.source =
        m.thread.cursor.source :=
      ((Reaches.takes (Chain.starts hc).marks).inside f.kind).source
    have step := ih (m := f.kind.inside (m.takes f.start))
      (by rw [resume_inside]; exact resume_takes hr) (by rw [source]; exact hrest) hfits
    have hfuel : n + 1 + (outer.length + 1) = n + outer.length + 2 := by omega
    have hfuel' : n + outer.length + 1 = n + 1 + outer.length := by omega
    have hdepth : column + 4 * (outer.length + 1) = column + 4 + 4 * outer.length := by omega
    rw [List.length_cons, hfuel, body_of_frame _ _ hr (Chain.starts hc), if_neg (by omega),
      if_neg (by omega), hdepth]
    refine goOn_congr (conclude_congr ?_)
    rw [reenter_inside hk, hcolumn, hfuel', step]
    rfl

end Descent

/-- A failure inside the frames is one of the run. -/
theorem unwind_error (n column : Nat) {m m' : Machine} {outer : List Frame}
    (h : ∀ f ∈ outer, f.kind ≠ .simple) (e : Fault) :
    ∃ m'', unwind n column outer m (.error e m') = .error e m'' := by
  induction outer generalizing column m with
  | nil => exact ⟨m', rfl⟩
  | cons f outer ih =>
    obtain ⟨m₁, h₁⟩ := ih (column + 4) (m := f.kind.inside (m.takes f.start))
      fun g hg => h g (List.mem_cons_of_mem f hg)
    obtain ⟨m₂, h₂⟩ := reenter_error (jobs (n + outer.length + 1)) (n + outer.length)
      f.start.column (h f List.mem_cons_self) (m.takes f.start) m₁ e
    refine ⟨m₂, ?_⟩
    simp only [unwind, h₁, goOn, bind, EStateM.bind, conclude_run, h₂]

/-- All frames but the last are those of constructs. -/
theorem Chain.constructs {s : Source} {outer inner : List Frame} (h : Chain s (outer ++ inner))
    (hi : inner ≠ []) : ∀ f ∈ outer, f.kind ≠ .simple := by
  induction outer with
  | nil => simp
  | cons f outer ih =>
    obtain ⟨hk, hrest⟩ := Chain.outer h (by simp [hi])
    intro g hg
    obtain rfl | hg := List.mem_cons.1 hg
    · exact hk
    · exact ih hrest g hg

/-- The last frame is that of a simple statement. -/
theorem Chain.split {s : Source} {frames : List Frame} (h : Chain s frames) :
    ∃ outer p, frames = outer ++ [⟨p, .simple⟩] := by
  induction h with
  | simple => exact ⟨[], _, rfl⟩
  | construct _ _ _ _ ih =>
    obtain ⟨outer, p, rfl⟩ := ih
    exact ⟨_ :: outer, p, rfl⟩

/-! ### What a resumed body comes to -/

section Resumption

variable (n : Nat) {column : Nat} {m : Machine} {outer : List Frame}

/-- If all frames fit, the suspended statement runs again, on a machine that has come to its start
with all that the resumed one has; the constructs around it go on with how it ends. -/
theorem body_resumes {p : Position} (hr : m.thread.resume = outer ++ [⟨p, .simple⟩])
    (hc : Chain m.thread.cursor.source m.thread.resume) (hf : Fits column m.thread.resume) :
    ∃ m', Reaches p m m' ∧ m'.thread.resume = [] ∧
      (jobs (n + 2 + outer.length)).body column m = unwind (n + 1) column outer m
        (goOn p.column (statements (jobs (n + 1)) p.column n)
          (conclude p (statement (jobs (n + 1)) n)) m') := by
  rw [hr] at hc hf
  obtain ⟨hfits, hlast, -⟩ := fits_append.1 hf
  obtain ⟨hres, hsource, hreach⟩ := descend_inside hr hc (by simp)
  obtain hn | hchain := hc.suffix (List.suffix_append outer _)
  · simp at hn
  rw [← hsource] at hchain
  refine ⟨(m.descend outer).takes p, hreach _ _ (.takes hchain.starts.marks), ?_, ?_⟩
  · exact resume_takes (f := ⟨p, .simple⟩) hres
  · rw [body_descend hr hc (by simp) (n + 1) hfits, body_of_frame n _ hres hchain.starts,
      if_neg (by dsimp only at hlast ⊢; omega), if_neg (by dsimp only at hlast ⊢; omega), ← hlast]
    rfl

variable {f : Frame} {rest : List Frame} (hr : m.thread.resume = outer ++ f :: rest)
  (hc : Chain m.thread.cursor.source m.thread.resume) (hf : Fits column outer)
include hr hc hf

/-- If the first frame that does not fit starts right of its body, the text is rejected. -/
theorem body_rejects (hcol : column + 4 * outer.length < f.start.column) :
    ∃ m', (jobs (n + 2 + outer.length)).body column m =
      .error (.failure (.malformed
        (.unexpectedIndentation (column + 4 * outer.length) f.start.column) f.start.line
        f.start.column)) m' := by
  rw [hr] at hc
  obtain ⟨hres, hsource, -⟩ := descend_inside hr hc (by simp)
  obtain hn | hchain := hc.suffix (List.suffix_append outer _)
  · simp at hn
  rw [← hsource] at hchain
  rw [body_descend hr hc (by simp) (n + 1) hf, body_of_frame n _ hres hchain.starts,
    if_neg (by omega), if_pos hcol]
  exact unwind_error _ _ (hc.constructs (by simp)) _

/-- If it starts left of its body, that body is over at once: the suspended statement does not run
again, nor does what follows it there. -/
theorem body_skips (hcol : f.start.column < column + 4 * outer.length) :
    ∃ m', Reaches f.start m m' ∧
      (jobs (n + 2 + outer.length)).body column m =
        unwind (n + 1) column outer m (.ok .normal m') := by
  rw [hr] at hc
  obtain ⟨hres, hsource, hreach⟩ := descend_inside hr hc (by simp)
  obtain hn | hchain := hc.suffix (List.suffix_append outer _)
  · simp at hn
  rw [← hsource] at hchain
  refine ⟨(m.descend outer).onto f.start, hreach _ _ (.onto hchain.starts.marks), ?_⟩
  rw [body_descend hr hc (by simp) (n + 1) hf, body_of_frame n _ hres hchain.starts, if_pos hcol]

end Resumption

end Rewind
