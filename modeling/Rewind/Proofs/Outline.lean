/-
Where a body ends.

A body that is run and a body that is skipped both go forward from token to token, and both end on
the first token behind the body: the end of the text, or a token that starts a line left of the
column of the body.  They do not look for it in the same way.  A run checks where a line starts only
between statements, and behind a signal it goes on with no bracket open; skipping checks every token
that stands outside of the brackets opened on the way.  So a run may pass the token that skipping
ends on, in a statement that goes on over several lines, and may end inside of a bracket that
skipping passes to its end.

* `Cursor.Passes` — the tokens between two places;
* `Cursor.StartsLeft`, `Cursor.Clear` — a token that starts a line left of a column, and tokens of
  which none does outside of brackets;
* `Cursor.skipBody_meets_iff` — whether skipping ends at a place ahead;
* `ends_of_body` — where a body ends;
* `extent_of_body` — whether skipping it ends there as well;
* `place_of_body` — whether it is where the lines of the text say.
-/
import Rewind.Proofs.Course
import Rewind.Proofs.Resumption

namespace Rewind

namespace Cursor

/-- From the first place on the tokens of `passed` are passed, none of which is the end of the text,
up to the second place. -/
inductive Passes : Cursor → List Cursor → Cursor → Prop where
  | stay (c : Cursor) : Passes c [] c
  | pass {c d e : Cursor} {passed : List Cursor} : c.kind ≠ .eof → c.bump = .ok d →
    Passes d passed e → Passes c (c :: passed) e

/-- The token starts a line, left of the column. -/
def StartsLeft (column : Nat) (c : Cursor) : Prop :=
  c.atLineStart = true ∧ c.current.column < column

/-- How many brackets are open behind a token. -/
def openBehind (depth : Nat) (c : Cursor) : Nat :=
  if c.kind.opens then depth + 1 else if c.kind.closes then depth - 1 else depth

/-- None of the tokens passed starts a line left of the column, but in brackets opened on the way. -/
def Clear (column : Nat) : Nat → List Cursor → Prop
  | _, [] => True
  | depth, c :: passed => (depth = 0 → ¬ c.StartsLeft column) ∧ Clear column (c.openBehind depth) passed

/-- How many brackets are open behind some tokens. -/
def openAfter (depth : Nat) (passed : List Cursor) : Nat := passed.foldl openBehind depth

variable {b c d e : Cursor} {passed : List Cursor}

theorem Passes.snoc (h : Passes b passed c) (hc : c.kind ≠ .eof) (hd : c.bump = .ok d) :
    Passes b (passed ++ [c]) d := by
  induction h with
  | stay c => exact .pass hc hd (.stay d)
  | pass hk hb _ ih => exact .pass hk hb (ih hc hd)

/-- A token that is passed is not come by again: every other one has less text behind it. -/
theorem Passes.length_lt (h : Passes b passed c) (hp : passed ≠ []) (hc : c.kind ≠ .eof) :
    c.behind.length < b.behind.length := by
  induction h with
  | stay c => exact absurd rfl hp
  | pass hk hb hr ih =>
    cases hr with
    | stay => exact length_behind_bump_lt hb hc
    | pass hd hb' hr' => exact Nat.lt_trans (ih nofun hc) (length_behind_bump_lt hb hd)

/-- The two places are on one token only if nothing is passed. -/
theorem Passes.eq_nil (h : Passes b passed c) (hm : c.Meets b) : passed = [] := by
  by_contra hp
  have hb : b.kind ≠ .eof := by
    cases h with
    | stay => exact absurd rfl hp
    | pass hk => exact hk
  have := h.length_lt hp (hm.kind ▸ hb)
  rw [hm.behind] at this
  exact Nat.lt_irrefl _ this

/-- Skipping a body passes tokens up to the first one behind it. -/
theorem passes_of_skipBody {column depth : Nat} (h : b.skipBody column depth = .ok d) :
    ∃ passed, Passes b passed d := by
  fun_induction skipBody column depth b with
  | case1 => exact ⟨[], Except.ok.inj h ▸ .stay _⟩
  | case2 => exact ⟨[], Except.ok.inj h ▸ .stay _⟩
  | case3 => contradiction
  | case4 depth c hk _ d' hb he => exact ⟨[c], Except.ok.inj h ▸ .pass hk hb (.stay d')⟩
  | case5 depth c hk _ _ d' hb _ _ ih =>
    obtain ⟨passed, hp⟩ := ih h
    exact ⟨c :: passed, .pass hk hb hp⟩

theorem skipBody_of_end {column depth : Nat}
    (h : c.kind = .eof ∨ depth = 0 ∧ c.StartsLeft column) : c.skipBody column depth = .ok c := by
  unfold skipBody
  obtain h | h := h
  · rw [if_pos h]
  · split
    · rfl
    · rw [if_pos ⟨h.1, h.2⟩]

/-- What skipping a body comes to from a token that it passes. -/
theorem skipBody_of_pass {column depth : Nat} (hk : c.kind ≠ .eof)
    (hl : depth = 0 → ¬ c.StartsLeft column) (hb : c.bump = .ok d) :
    c.skipBody column depth = d.skipBody column (c.openBehind depth) := by
  fun_cases skipBody column depth c with
  | case1 h => exact absurd h hk
  | case2 _ h => exact absurd h.2 (hl h.1)
  | case3 _ _ _ h => cases hb.symm.trans h
  | case4 _ _ d' h he =>
    obtain rfl := Except.ok.inj (hb.symm.trans h)
    exact (skipBody_of_end (.inl he)).symm
  | case5 _ _ _ d' h _ _ =>
    obtain rfl := Except.ok.inj (hb.symm.trans h)
    rfl

/-- Skipping stays on a token only if it ends there. -/
theorem end_of_skipBody {column depth : Nat} (h : c.skipBody column depth = .ok d)
    (hm : d.Meets c) : c.kind = .eof ∨ depth = 0 ∧ c.StartsLeft column := by
  have moved {passed : List Cursor} (hp : Passes c (c :: passed) d) : False :=
    absurd (hp.eq_nil hm) nofun
  revert h
  fun_cases skipBody column depth c with
  | case1 hk => exact fun _ => .inl hk
  | case2 _ hl => exact fun _ => .inr ⟨hl.1, hl.2⟩
  | case3 => exact nofun
  | case4 hk _ d' hb _ =>
    intro h
    obtain rfl := Except.ok.inj h
    exact (moved (.pass hk hb (.stay d'))).elim
  | case5 hk _ _ d' hb _ _ =>
    intro h
    obtain ⟨passed, hp⟩ := passes_of_skipBody h
    exact (moved (.pass hk hb hp)).elim

/-- A place ahead, which is the end of the text or starts a line left of the column, is the one that
skipping ends on exactly if no such token stands before it and it is in no bracket. -/
theorem skipBody_meets_iff {column depth : Nat} (h : Passes b passed c)
    (hc : c.kind = .eof ∨ c.StartsLeft column) :
    (∃ d, b.skipBody column depth = .ok d ∧ c.Meets d) ↔
      Clear column depth passed ∧ (c.kind = .eof ∨ openAfter depth passed = 0) := by
  -- on the tokens that the body has passed, which the skip passes too as long as it is not
  -- stopped
  induction h generalizing depth with
  | stay c =>
    constructor
    · rintro ⟨d, h, hm⟩
      exact ⟨trivial, (end_of_skipBody h hm.symm).imp_right And.left⟩
    · rintro ⟨-, h⟩
      refine ⟨c, skipBody_of_end ?_, .refl c⟩
      obtain h | h := h
      · exact .inl h
      · exact hc.imp_right fun hl => ⟨h, hl⟩
  | @pass b d c passed hk hb hr ih =>
    constructor
    · rintro ⟨e, h, hm⟩
      have hl : depth = 0 → ¬ b.StartsLeft column := by
        intro h0 hl
        obtain rfl := Except.ok.inj ((skipBody_of_end (.inr ⟨h0, hl⟩)).symm.trans h)
        exact absurd ((Passes.pass hk hb hr).eq_nil hm) nofun
      rw [skipBody_of_pass hk hl hb] at h
      obtain ⟨clear, closed⟩ := (ih hc).1 ⟨e, h, hm⟩
      exact ⟨⟨hl, clear⟩, closed⟩
    · rintro ⟨⟨hl, clear⟩, closed⟩
      rw [skipBody_of_pass hk hl hb]
      exact (ih hc).2 ⟨clear, closed⟩

theorem ends_of_skipBody {column depth : Nat} (h : c.skipBody column depth = .ok d) :
    d.kind = .eof ∨ d.StartsLeft column := by
  fun_induction skipBody column depth c with
  | case1 _ c hk =>
    obtain rfl := Except.ok.inj h
    exact .inl hk
  | case2 _ c _ hl =>
    obtain rfl := Except.ok.inj h
    exact .inr hl.2
  | case3 => contradiction
  | case4 _ c _ _ d' _ hk =>
    obtain rfl := Except.ok.inj h
    exact .inl hk
  | case5 _ c _ _ _ _ _ _ _ ih => exact ih h

/-! ### Places ahead -/

/-- Behind the end of the text the cursor stays there. -/
theorem meets_of_bump_eof (hc : c.Sound) (hk : c.kind = .eof) (h : c.bump = .ok d) : c.Meets d := by
  have := scan_behind_eof hc.scans hk
  unfold bump at h
  rw [this] at h
  obtain rfl := Except.ok.inj h
  exact ⟨rfl, rfl, rfl⟩

/-- The place is ahead of `b` in its source; what the cursor has come by matters only before the end
of the text. -/
structure Ahead (b c : Cursor) : Prop where
  sound : c.Sound
  source : c.source = b.source
  passes : ∃ passed d, Passes b passed d ∧ (d = c ∨ d.kind = .eof ∧ d.Meets c)

theorem Ahead.refl (hb : b.Sound) : Ahead b b := ⟨hb, rfl, [], b, .stay b, .inl rfl⟩

theorem forward_ahead (b : Cursor) : Forward (Ahead b) where
  bump := by
    intro c d h hd
    obtain ⟨sound, source⟩ := sound_bump h.sound hd
    refine ⟨sound, source.trans h.source, ?_⟩
    obtain ⟨passed, e, hp, rfl | ⟨hk, hm⟩⟩ := h.passes
    · by_cases hk : e.kind = .eof
      · exact ⟨passed, e, hp, .inr ⟨hk, meets_of_bump_eof h.sound hk hd⟩⟩
      · exact ⟨passed ++ [e], d, hp.snoc hk hd, .inl rfl⟩
    · have hc : c.kind = .eof := hm.kind.trans hk
      have := meets_of_bump_eof h.sound hc hd
      exact ⟨passed, e, hp, .inr ⟨hk, this.source.trans hm.source, this.current.trans hm.current,
        this.behind.trans hm.behind⟩⟩
  sound := Ahead.sound
  source := fun h h' => h'.source.trans h.source.symm

end Cursor

namespace Eval

/-! ### Bodies -/

/-- A body that has come to its end, or that a signal has left, ends at the end of the text or before
a token that starts a line left of its column. -/
theorem ends_of_statements (j : Jobs) (column n : Nat) {m m' : Machine} {status : Status}
    (h : statements j column n m = .ok status m') (hs : status ≠ .yielded) :
    m'.thread.cursor.kind = .eof ∨ m'.thread.cursor.StartsLeft column := by
  induction n generalizing m with
  | zero => cases h
  | succ n ih =>
    cases hd : m.thread.cursor.skipColons with
    | error failure =>
      have : statements j column (n + 1) m = .error (.failure failure) m := by
        show EStateM.bind (move Cursor.skipColons) _ m = _
        unfold EStateM.bind
        simp only [move, hd]
      rw [this] at h
      cases h
    | ok d =>
      rw [statements_run j column n hd] at h
      split at h
      · obtain ⟨-, rfl⟩ := EStateM.Result.ok.inj h
        exact .inl ‹_›
      split at h
      · obtain ⟨-, rfl⟩ := EStateM.Result.ok.inj h
        exact .inr ‹_›
      split at h
      · cases h
      obtain ⟨ended, m₁, -, h⟩ := ok_of_bind h
      cases ended with
      | normal => exact ih h
      | yielded =>
        obtain ⟨rfl, -⟩ := EStateM.Result.ok.inj h
        exact absurd rfl hs
      | leaving signal =>
        obtain ⟨_, m₂, hskip, h⟩ := ok_of_bind h
        obtain ⟨-, rfl⟩ := EStateM.Result.ok.inj h
        -- behind a signal the rest is skipped, up to the end or a line left of the body
        simp only [skipBody, move] at hskip
        cases hc : m₁.thread.cursor.skipBody column 0 with
        | error failure => rw [hc] at hskip; cases hskip
        | ok c =>
          rw [hc] at hskip
          obtain ⟨-, rfl⟩ := EStateM.Result.ok.inj hskip
          exact Cursor.ends_of_skipBody hc

/-- A run of a body from its first token on, but one that yields, ends ahead of it, at the end of the
text or before a token that starts a line left of its column, and has no frames to re-enter left. -/
theorem ends_of_body (fuel column : Nat) {m m' : Machine} {status : Status}
    (hc : m.thread.cursor.Sound) (hr : m.thread.resume = [])
    (h : (jobs fuel).body column m = .ok status m') (hs : status ≠ .yielded) :
    m.thread.cursor.Ahead m'.thread.cursor ∧
      (m'.thread.cursor.kind = .eof ∨ m'.thread.cursor.StartsLeft column) := by
  have hA := Cursor.forward_ahead m.thread.cursor
  have arrives := (travels_jobs fuel hA).body column m (.inl (.refl hc)) hr
  rw [h] at arrives
  refine ⟨(arrives.ok hs).1, ?_⟩
  cases fuel with
  | zero => cases h
  | succ fuel =>
    have fresh : runBody (jobs fuel) fuel column m = statements (jobs fuel) column fuel m := by
      simp only [runBody, bind, EStateM.bind, get_run, hr]
    change runBody (jobs fuel) fuel column m = _ at h
    rw [fresh] at h
    exact ends_of_statements _ column fuel h hs

end Eval

open Eval

/-- However the run of a body ends, but by yielding, it has passed some tokens up to the end of the
text or a token that starts a line left of its column.  Skipping the body ends on the same token
exactly if no such token is among those passed, but in brackets opened on the way, and if none of
these brackets is open at the end. -/
theorem extent_of_body (fuel column : Nat) {m m' : Machine} {status : Status}
    (hc : m.thread.cursor.Sound) (hr : m.thread.resume = [])
    (h : (jobs fuel).body column m = .ok status m') (hs : status ≠ .yielded) :
    ∃ passed c, m.thread.cursor.Passes passed c ∧ c.Meets m'.thread.cursor ∧
      (c.kind = .eof ∨ c.StartsLeft column) ∧
      ((∃ d, m.thread.cursor.skipBody column 0 = .ok d ∧ c.Meets d) ↔
        Cursor.Clear column 0 passed ∧ (c.kind = .eof ∨ Cursor.openAfter 0 passed = 0)) := by
  obtain ⟨⟨-, -, passed, c, hp, hm⟩, ends⟩ := ends_of_body fuel column hc hr h hs
  obtain rfl | ⟨hk, hm⟩ := hm
  · exact ⟨passed, _, hp, .refl _, ends, Cursor.skipBody_meets_iff hp ends⟩
  · exact ⟨passed, c, hp, hm, .inl hk, Cursor.skipBody_meets_iff hp (.inl hk)⟩

namespace Cursor

variable {b c d : Cursor} {passed passed' : List Cursor}

/-- Of two places ahead of one, the one is ahead of the other. -/
theorem Passes.total (h : Passes b passed c) (h' : Passes b passed' d) :
    (∃ more, passed' = passed ++ more ∧ Passes c more d) ∨
      ∃ more, passed = passed' ++ more ∧ Passes d more c := by
  induction h generalizing passed' with
  | stay b => exact .inl ⟨passed', rfl, h'⟩
  | pass hk hb hr ih =>
    cases h' with
    | stay => exact .inr ⟨_, rfl, .pass hk hb hr⟩
    | pass _ hb' hr' =>
      obtain rfl := Except.ok.inj (hb.symm.trans hb')
      obtain ⟨more, rfl, hm⟩ | ⟨more, rfl, hm⟩ := ih hr'
      · exact .inl ⟨more, rfl, hm⟩
      · exact .inr ⟨more, rfl, hm⟩

end Cursor

/-- Where the text says that a body ends: at the first token from its own first one on that starts a
line left of its column, whether in brackets or not, or at the end of the text. -/
structure Cursor.EndsBody (column : Nat) (b : Cursor) (lines : List Cursor) (c : Cursor) : Prop where
  passes : b.Passes lines c
  within : ∀ d ∈ lines, ¬ d.StartsLeft column
  behind : c.kind = .eof ∨ c.StartsLeft column

/-- A run of a body that does not yield ends where the text says that the body ends, unless a
statement of the body goes on behind that token, in a line left of its column. -/
theorem place_of_body (fuel column : Nat) {m m' : Machine} {status : Status} {lines : List Cursor}
    {c : Cursor} (hc : m.thread.cursor.Sound) (hr : m.thread.resume = [])
    (h : (jobs fuel).body column m = .ok status m') (hs : status ≠ .yielded)
    (text : m.thread.cursor.EndsBody column lines c) :
    c.Meets m'.thread.cursor ∨
      ∃ more d, m.thread.cursor.Passes (lines ++ c :: more) d ∧ d.Meets m'.thread.cursor := by
  obtain ⟨passed, d, run, meets, ends, -⟩ := extent_of_body fuel column hc hr h hs
  obtain ⟨more, rfl, ahead⟩ | ⟨more, rfl, ahead⟩ := text.passes.total run
  · cases ahead with
    | stay => exact .inl meets
    | pass => exact .inr ⟨_, d, run, meets⟩
  · -- the run cannot end before, where no token starts a line left of the column
    cases ahead with
    | stay => exact .inl meets
    | pass hk =>
      have inside := text.within d (by simp)
      exact absurd ends (not_or.2 ⟨hk, inside⟩)

/-! ### A bracket over several lines -/

/-- The token at which a body is left by an exception. -/
def raisesAt : EStateM.Result Fault Machine Status → Option TokenKind
  | .ok (.leaving (.raised _)) m => some m.thread.cursor.kind
  | _ => none

theorem leaves_of_raisesAt {r : EStateM.Result Fault Machine Status} {k : TokenKind}
    (h : raisesAt r = some k) :
    ∃ status m, r = .ok status m ∧ status ≠ .yielded ∧ m.thread.cursor.kind = k := by
  unfold raisesAt at h
  split at h
  · exact ⟨_, _, rfl, nofun, Option.some.inj h⟩
  · cases h

theorem kind_of_ok {r : Except Failure Cursor} {d : Cursor} {k : TokenKind}
    (h : r.toOption.map Cursor.kind = some k) (hd : r = .ok d) : d.kind = k := by
  subst hd
  exact Option.some.inj h

/-- The division on a line of its own leaves the body before the bracket that closes the array;
skipping the body passes this bracket. -/
theorem left_inside_bracket :
    (onText "    let: x = [\n1 / 0\n]\n").thread.cursor.Sound ∧
    (onText "    let: x = [\n1 / 0\n]\n").thread.resume = [] ∧ ∃ status m' passed c,
      (jobs 12).body 5 (onText "    let: x = [\n1 / 0\n]\n") = .ok status m' ∧
      status ≠ .yielded ∧
      (onText "    let: x = [\n1 / 0\n]\n").thread.cursor.Passes passed c ∧
      c.Meets m'.thread.cursor ∧ c.kind = .rbracket ∧
      ¬ (Cursor.Clear 5 0 passed ∧ Cursor.openAfter 0 passed = 0) := by
  have hc : (onText "    let: x = [\n1 / 0\n]\n").thread.cursor.Sound :=
    sound_onText (by decide +kernel)
  have hr : (onText "    let: x = [\n1 / 0\n]\n").thread.resume = [] := by decide +kernel
  obtain ⟨status, m', h, hs, hk⟩ := leaves_of_raisesAt (k := .rbracket)
    (r := (jobs 12).body 5 (onText "    let: x = [\n1 / 0\n]\n")) (by decide +kernel)
  have skipped : ((onText "    let: x = [\n1 / 0\n]\n").thread.cursor.skipBody 5 0).toOption.map
      Cursor.kind = some .eof := by decide +kernel
  obtain ⟨passed, c, hp, hm, -, agrees⟩ := extent_of_body 12 5 hc hr h hs
  refine ⟨hc, hr, status, m', passed, c, h, hs, hp, hm, hm.kind.symm.trans hk, fun clear => ?_⟩
  obtain ⟨d, hd, hmd⟩ := agrees.2 ⟨clear.1, .inr clear.2⟩
  have eof : c.kind = .eof := hmd.kind.symm.trans (kind_of_ok skipped hd)
  have bracket : c.kind = .rbracket := hm.kind.symm.trans hk
  cases eof.symm.trans bracket

/-- The exception raised in the bracket would be caught, but the body ends before the bracket that
closes the array, so that the clause behind it is not found. -/
theorem clause_lost_behind_bracket :
    account ((Machine.new {}).runSource ("try:\n    let: x = [\n1 / 0\n]\n" ++
      "catch as e:\n    show(\"caught\")\n") 12) =
    ("", some "'try:' requires a 'catch' or 'finally' clause") := by
  decide +kernel

end Rewind
