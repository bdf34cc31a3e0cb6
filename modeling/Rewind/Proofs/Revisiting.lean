/-
Coming back to a token.

A cursor goes from token to token, and it goes back by scanning once more at a position it has saved.
What it finds there does not depend on the way it has come: from the start of a token it comes by that
token again, and then by those that follow it in the text, up to the end of the text, where it stays.
A move that fails is as if it had not been made.

* `Cursor.bumps`, `Cursor.Visits` — several moves on, and the tokens they come to;
* `Cursor.Faces` — the tokens that are ahead; `Faces.visits` — they are the ones that are visited;
* `Cursor.Act`, `Machine.afterActs` — the moves of the cursor of a thread, and a sequence of them;
* `tokens_from_checkpoint` — all tokens from the start of a token on, whatever moves were made before.
-/
import Rewind.Machine
import Rewind.Proofs.Rescan
import Rewind.Token.Stream

namespace Rewind

/-! ### Tokens ahead -/

namespace Cursor

/-- So many moves to the next token. -/
def bumps : (k : Nat) → Cursor → Except Failure Cursor
  | 0, c => .ok c
  | k + 1, c => c.bump.bind (bumps k)

/-- The cursor stands on the first of these tokens, moves on to one after the other, and stays on the
last one. -/
def Visits (c : Cursor) (ts : List Token) : Prop :=
  ∀ k, ∃ d, c.bumps k = .ok d ∧ ts[min k (ts.length - 1)]? = some d.current

/-- The token stood on and those behind it. -/
inductive Faces (c : Cursor) : List Token → Prop
  | last : c.kind = .eof → Faces c [c.current]
  | next {ts : List Token} : c.kind ≠ .eof → tokensFrom c.current.stop c.behind = .ok ts →
      Faces c (c.current :: ts)

theorem tokensFrom_ne_nil {p : Position} {cs : List Char} : tokensFrom p cs ≠ .ok [] := by
  intro h
  rw [tokensFrom] at h
  split at h
  · contradiction
  · split at h
    · cases h
    · rename_i t rest _ _
      cases hr : tokensFrom t.stop rest <;> rw [hr] at h <;> cases h

/-- A cursor on the first token of a text faces the tokens of that text. -/
theorem faces_of_scan {s : Source} {p : Position} {cs behind : List Char} {t : Token}
    {ts : List Token} {line : Nat} (hs : scan p cs = .ok (t, behind))
    (h : tokensFrom p cs = .ok ts) : Faces ⟨s, t, behind, line⟩ ts := by
  rw [tokensFrom] at h
  split at h
  · contradiction
  · rename_i u rest hu
    obtain ⟨rfl, rfl⟩ := Prod.mk.inj (Except.ok.inj (hs.symm.trans hu))
    split at h
    · rename_i hk
      obtain rfl := Except.ok.inj h
      exact .last hk
    · rename_i hk
      cases hr : tokensFrom t.stop behind with
      | error fault => rw [hr] at h; contradiction
      | ok us =>
        rw [hr] at h
        obtain rfl := Except.ok.inj h
        exact .next hk hr

theorem Faces.head {c : Cursor} {ts : List Token} (h : c.Faces ts) : ts[0]? = some c.current := by
  cases h <;> rfl

/-- The end of the text is not passed. -/
theorem Faces.bump_last {c : Cursor} (hc : c.Sound) (hk : c.kind = .eof) :
    ∃ d, c.bump = .ok d ∧ d.Sound ∧ d.current = c.current ∧ d.source = c.source := by
  refine ⟨⟨c.source, c.current, c.behind, c.current.stop.line⟩, ?_, hc, rfl, rfl⟩
  rw [bump, scan_behind_eof hc.scans hk]

/-- Any other token is passed, and those behind it are ahead then. -/
theorem Faces.bump_next {c : Cursor} {ts : List Token} (hc : c.Sound)
    (h : tokensFrom c.current.stop c.behind = .ok ts) :
    ∃ d, c.bump = .ok d ∧ d.Sound ∧ d.Faces ts ∧ d.source = c.source := by
  cases hs : scan c.current.stop c.behind with
  | error fault =>
    rw [tokensFrom] at h
    split at h
    · contradiction
    · rename_i hs'
      rw [hs] at hs'
      contradiction
  | ok r =>
    have hb : c.bump = .ok ⟨c.source, r.1, r.2, c.current.stop.line⟩ := by rw [bump, hs]
    exact ⟨_, hb, (sound_bump hc hb).1, faces_of_scan hs h, rfl⟩

theorem bumps_succ {c d : Cursor} (h : c.bump = .ok d) (k : Nat) :
    c.bumps (k + 1) = d.bumps k := by
  rw [bumps, h]
  rfl

/-- The tokens ahead of a cursor are the ones it visits. -/
theorem Faces.visits {c : Cursor} {ts : List Token} (hc : c.Sound) (h : c.Faces ts) :
    c.Visits ts := by
  intro k
  induction k generalizing c ts with
  | zero => exact ⟨c, rfl, by rw [Nat.zero_min]; exact h.head⟩
  | succ k ih =>
    cases h with
    | last hk =>
      -- from the last token on the cursor stays where it is
      obtain ⟨d, hb, hd, he, -⟩ := bump_last hc hk
      have hf : d.Faces [c.current] := he ▸ .last (by rw [kind, he]; exact hk)
      obtain ⟨e, hk, hm⟩ := ih hd hf
      exact ⟨e, by rw [bumps_succ hb, hk], by simpa using hm⟩
    | @next ts hk ht =>
      obtain ⟨d, hb, hd, hf, -⟩ := bump_next hc ht
      obtain ⟨e, hk, hm⟩ := ih hd hf
      refine ⟨e, by rw [bumps_succ hb, hk], ?_⟩
      obtain ⟨n, hn⟩ : ∃ n, ts.length = n + 1 := by
        cases ts with
        | nil => exact absurd ht tokensFrom_ne_nil
        | cons t ts => exact ⟨ts.length, rfl⟩
      rw [hn, Nat.add_sub_cancel] at hm
      rw [List.length_cons, hn, Nat.add_sub_cancel, Nat.succ_min_succ, List.getElem?_cons_succ, hm]

/-- Each of the tokens ahead stands in the source, with those that follow it behind it. -/
theorem Faces.holds {c : Cursor} {ts : List Token} (hc : c.Sound) (h : c.Faces ts) {i : Nat}
    {t : Token} (ht : ts[i]? = some t) : ∃ behind, c.source.Holds t behind ∧
      ∀ line, Faces ⟨c.source, t, behind, line⟩ (ts.drop i) := by
  induction i generalizing c ts with
  | zero =>
    obtain rfl : c.current = t := Option.some.inj (h.head.symm.trans ht)
    refine ⟨c.behind, hc, fun line => ?_⟩
    cases h with
    | last hk => exact .last hk
    | next hk hts => exact .next hk hts
  | succ i ih =>
    cases h with
    | last hk => cases i <;> contradiction
    | next hk hts =>
      obtain ⟨d, -, hd, hf, hs⟩ := bump_next hc hts
      exact hs ▸ ih hd hf ht

end Cursor

/-! ### Moves -/

/-- What the cursor of a thread can be asked for. -/
inductive Cursor.Act where
  | bump
  | advance (wanted : TokenKind)
  | peek
  | capture
  | rewind (p : Position)

/-- A move as the evaluator makes it, for its effect on the machine. -/
def Cursor.Act.run : Cursor.Act → Run Unit
  | .bump => do let _ ← Eval.bump
  | .advance wanted => do let _ ← Eval.advance wanted
  | .peek => do
    match (← get).thread.cursor.peek with
    | .ok _ => return
    | .error failure => Eval.fail failure
  | .capture => do let _ ← (Eval.capture : Run Position)
  | .rewind p => Eval.rewind p

/-- The machine after some moves, of which each may have failed. -/
def Machine.afterActs (m : Machine) : List Cursor.Act → Machine
  | [] => m
  | act :: acts =>
    match act.run m with
    | .ok _ m' | .error _ m' => m'.afterActs acts

namespace Cursor

variable {c d : Cursor}

theorem source_bump (h : c.bump = .ok d) : d.source = c.source := by
  unfold bump at h
  split at h
  · contradiction
  · exact (Except.ok.inj h) ▸ rfl

theorem source_advance {k : TokenKind} (h : c.advance k = .ok d) : d.source = c.source := by
  unfold advance at h
  split at h
  · exact source_bump h
  · contradiction

theorem source_rewind {p : Position} (h : c.rewind p = .ok d) : d.source = c.source := by
  unfold rewind at h
  split at h
  · contradiction
  split at h
  · contradiction
  · exact (Except.ok.inj h) ▸ rfl

/-- The token behind the current one is the one that the next move comes to. -/
theorem peek_eq (c : Cursor) : c.peek = c.bump.map (·.current) := by
  unfold peek bump
  split <;> rfl

/-- A move of the evaluator's cursor either leads to a place of the same source, or fails and leaves the
whole machine as it was. -/
theorem move_run {f : Cursor → Except Failure Cursor}
    (hf : ∀ {c d}, f c = .ok d → d.source = c.source) (m : Machine) :
    (∃ c, c.source = m.thread.cursor.source ∧
      Eval.move f m = .ok () { m with thread := { m.thread with cursor := c } }) ∨
    ∃ fault, Eval.move f m = .error fault m := by
  unfold Eval.move
  split
  · rename_i c hc
    exact .inl ⟨c, hf hc, rfl⟩
  · exact .inr ⟨_, rfl⟩

theorem Act.run_cases (act : Act) (m : Machine) :
    (∃ c, c.source = m.thread.cursor.source ∧
      act.run m = .ok () { m with thread := { m.thread with cursor := c } }) ∨
    ∃ fault, act.run m = .error fault m := by
  -- an act is one move of the cursor, or no move at all
  have whole {f : Cursor → Except Failure Cursor} {x : Run Unit}
      (hf : ∀ {c d}, f c = .ok d → d.source = c.source)
      (hx : x m = Eval.move f m) :
      (∃ c, c.source = m.thread.cursor.source ∧
        x m = .ok () { m with thread := { m.thread with cursor := c } }) ∨
      ∃ fault, x m = .error fault m := hx ▸ move_run hf m
  cases act with
  | bump =>
    refine whole (x := Act.bump.run) source_bump ?_
    show EStateM.bind (EStateM.bind (Eval.move Cursor.bump) _) _ m = _
    simp only [EStateM.bind]
    cases Eval.move Cursor.bump m <;> rfl
  | advance wanted =>
    refine whole (f := (·.advance wanted)) (x := (Act.advance wanted).run) source_advance ?_
    show EStateM.bind (EStateM.bind (Eval.move (·.advance wanted)) _) _ m = _
    simp only [EStateM.bind]
    cases Eval.move (·.advance wanted) m <;> rfl
  | rewind p => exact whole (x := (Act.rewind p).run) source_rewind rfl
  | capture => exact .inl ⟨m.thread.cursor, rfl, rfl⟩
  | peek =>
    cases hp : m.thread.cursor.peek with
    | ok t =>
      refine .inl ⟨m.thread.cursor, rfl, ?_⟩
      show (match m.thread.cursor.peek with
        | .ok _ => pure ()
        | .error failure => throw (.failure failure) : Run Unit) m = _
      rw [hp]
      rfl
    | error failure =>
      refine .inr ⟨.failure failure, ?_⟩
      show (match m.thread.cursor.peek with
        | .ok _ => pure ()
        | .error failure => throw (.failure failure) : Run Unit) m = _
      rw [hp]
      rfl

/-- No sequence of moves leaves the source. -/
theorem source_afterActs (m : Machine) (acts : List Act) :
    (m.afterActs acts).thread.cursor.source = m.thread.cursor.source := by
  induction acts generalizing m with
  | nil => rfl
  | cons act acts ih =>
    rw [Machine.afterActs]
    obtain ⟨c, hc, h⟩ | ⟨fault, h⟩ := act.run_cases m
    · rw [h]
      exact (ih _).trans hc
    · rw [h]
      exact ih m

/-- Back at the start of a token of its source, a cursor visits that token and those behind it. -/
theorem rewind_visits {c : Cursor} {ts : List Token} (hc : c.Sound) (h : c.Faces ts)
    {m : Machine} (hm : m.thread.cursor.source = c.source) {i : Nat} {t : Token}
    (ht : ts[i]? = some t) :
    ∃ m', Eval.rewind t.start m = .ok () m' ∧ m'.thread.cursor.Visits (ts.drop i) := by
  obtain ⟨behind, hh, hf⟩ := h.holds hc ht
  have hr : m.thread.cursor.rewind t.start = .ok ⟨c.source, t, behind, 0⟩ :=
    hm ▸ rewind_eq (hm ▸ hh)
  exact ⟨{ m with thread := { m.thread with cursor := ⟨c.source, t, behind, 0⟩ } },
    by simp only [Eval.rewind, Eval.move, hr], (hf 0).visits hh⟩

end Cursor

open Cursor in
/-- Whatever moves a cursor has made in a text, from the start of a token it comes by that token and
those behind it.  Looking at the next token is moving there, and a move that fails changes nothing. -/
theorem tokens_from_checkpoint (s : Source) :
    (∀ ts, tokenize s = .ok ts →
      (∀ t ∈ ts, (Cursor.scanAt s t.start).map (·.1) = .ok t) ∧
      ∃ c, Cursor.ofSource s = .ok c ∧ c.Visits ts ∧
        ∀ (m : Machine) (acts : List Act) (i : Nat) (t : Token), m.thread.cursor = c →
          ts[i]? = some t → ∃ m', Eval.rewind t.start (m.afterActs acts) = .ok () m' ∧
            m'.thread.cursor.Visits (ts.drop i)) ∧
    (∀ c : Cursor, c.peek = c.bump.map (·.current)) ∧
    ∀ (act : Act) (m m' : Machine) (fault : Fault), act.run m = .error fault m' → m' = m := by
  refine ⟨fun ts h => ?_, peek_eq, fun act m m' fault h => ?_⟩
  · obtain ⟨r, hr⟩ : ∃ r, scan s.origin s.text = .ok r := by
      rw [tokenize, tokensFrom] at h
      split at h
      · contradiction
      · exact ⟨_, ‹_›⟩
    have hc : Cursor.ofSource s = .ok ⟨s, r.1, r.2, 0⟩ := by rw [Cursor.ofSource, hr]; rfl
    have hf : Faces ⟨s, r.1, r.2, 0⟩ ts := faces_of_scan hr h
    have hs := (sound_ofSource hc).1
    refine ⟨fun t ht => ?_, _, hc, hf.visits hs, fun m acts i t hm ht => ?_⟩
    · obtain ⟨i, hi⟩ := List.mem_iff_getElem?.1 ht
      -- each token is held at its place, whatever has been read since
      obtain ⟨behind, hh, -⟩ := hf.holds hs hi
      rw [Cursor.scanAt, hh.scans]
      rfl
    · refine rewind_visits hs hf ?_ ht
      rw [source_afterActs, hm]
  · obtain ⟨c, -, hok⟩ | ⟨fault', herr⟩ := act.run_cases m
    · rw [hok] at h
      contradiction
    · exact (EStateM.Result.error.inj (herr.symm.trans h)).2.symm

/-- Two tokens on lines of their own, with comments in between. -/
def twoLines : Source := ⟨1, "x -- c\n    + '''d''' 2".toList⟩

open Cursor in
theorem tokens_from_checkpoint_of_twoLines : ∃ ts c t m', tokenize twoLines = .ok ts ∧
    ts.map (·.kind) = [.ident, .plus, .int, .eof] ∧ Cursor.ofSource twoLines = .ok c ∧
    ts[1]? = some t ∧
    Eval.rewind t.start (Machine.afterActs { thread := { cursor := c, scope := ⟨0⟩ } }
      [.bump, .advance .comma, .bump, .peek]) = .ok () m' ∧
    m'.thread.cursor.Visits (ts.drop 1) := by
  have h : (tokenize twoLines).toOption.map (·.map (·.kind)) =
      some [.ident, .plus, .int, .eof] := by decide +kernel
  cases ht : tokenize twoLines with
  | error fault => rw [ht] at h; contradiction
  | ok ts =>
    rw [ht] at h
    have hk : ts.map (·.kind) = [.ident, .plus, .int, .eof] := Option.some.inj h
    obtain ⟨t, hi⟩ : ∃ t, ts[1]? = some t := by
      have hl : ts.length = 4 := by rw [← List.length_map (·.kind), hk]; rfl
      exact ⟨ts[1], List.getElem?_eq_getElem (by omega)⟩
    obtain ⟨-, c, hc, -, back⟩ := (tokens_from_checkpoint twoLines).1 ts ht
    obtain ⟨m', hm, hv⟩ := back { thread := { cursor := c, scope := ⟨0⟩ } }
      [.bump, .advance .comma, .bump, .peek] 1 t rfl hi
    exact ⟨ts, c, t, m', rfl, hk, hc, hi, hm, hv⟩

end Rewind
