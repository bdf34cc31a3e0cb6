/-
The lines of a printed program.

A printed program is read line by line: the first token of a line stands at its indentation, the others
behind one blank each, and the line ends with a colon.  A cursor on the first token moves over the
tokens of all lines.  Where a body is left early, from any word of a line, skipping ends behind the
last line of the body, since no line of it begins further left and all brackets of a line are closed on
it.

* `spread` — the tokens of some lines; `crosses_print` — a cursor moves over those of a whole text;
* `Sealed`, `Slides` — words that close what they open, and skipping from two places to the same one;
* `slides_of_within`, `slides_of_spread` — from inside a line, and over lines;
* `Borders`, `Closes` — where a statement, and where a body in so many others may end.
-/
import Rewind.Proofs.Margin
import Rewind.Proofs.Meaning
import Rewind.Proofs.Outline
import Rewind.Proofs.Precedence

namespace Rewind

theorem Cursor.Crosses.append {c b d : Cursor} {ts us : List Token} (h : c.Crosses ts b)
    (h' : b.Crosses us d) : c.Crosses (ts ++ us) d := by
  induction h with
  | done => exact h'
  | token hb _ ih => exact .token hb (ih h')

namespace Tree

/-! ### Places of lines -/

variable {p q : Position} {r : Row} {rows us vs : List Row} {k : Nat}

theorem below_append (p : Position) (us vs : List Row) :
    below p (us ++ vs) = below (below p us) vs := by
  simp [below, print, Position.after_append]

theorem below_cons (p : Position) (r : Row) (rows : List Row) :
    below p (r :: rows) = below (below p [r]) rows := below_append p [r] rows

theorem newline_not_mem_line (ws : List Word) : '\n' ∉ line ws := by
  induction ws with
  | nil => simp [line]
  | cons w ws ih =>
    cases ws with
    | nil => exact w.newline_not_mem
    | cons v ws => simp [line_cons_cons, w.newline_not_mem, ih]

theorem newline_not_mem_indent (n : Nat) : '\n' ∉ List.replicate n ' ' := by
  intro h
  exact absurd (List.eq_of_mem_replicate h) (by decide)

theorem indented_eq (hp : p.column = 1) (k : Nat) :
    (indented p k).line = p.line ∧ (indented p k).column = 4 * k + 1 ∧
      (indented p k).source = p.source := by
  rw [indented, Position.after_of_not_mem (newline_not_mem_indent _)]
  exact ⟨rfl, by simp [hp]; omega, rfl⟩

@[simp] theorem line_indented (p : Position) (k : Nat) : (indented p k).line = p.line := by
  rw [indented, Position.after_of_not_mem (newline_not_mem_indent _)]

/-- The next line begins in the first column. -/
theorem below_one (p : Position) (r : Row) :
    (below p [r]).line = p.line + 1 ∧ (below p [r]).column = 1 := by
  have text : print [r] = (r.indent ++ line (r.words ++ [.colon])) ++ ['\n'] := by
    simp [print, Row.text]
  have free : '\n' ∉ r.indent ++ line (r.words ++ [.colon]) := by
    simp only [List.mem_append, not_or]
    exact ⟨newline_not_mem_indent _, newline_not_mem_line _⟩
  rw [below, text, Position.after_append, Position.after_of_not_mem free]
  exact ⟨rfl, rfl⟩

theorem column_below (hp : p.column = 1) (rows : List Row) : (below p rows).column = 1 := by
  induction rows generalizing p with
  | nil => exact hp
  | cons r rows ih =>
    rw [below_cons]
    exact ih (below_one p r).2

/-! ### Reading lines -/

/-- The tokens of some lines, the first of which begins at `p`. -/
def spread : Position → List Row → List Token
  | _, [] => []
  | p, r :: rows => row (indented p r.depth) (r.words ++ [.colon]) ++ spread (below p [r]) rows

theorem spread_append (p : Position) (us vs : List Row) :
    spread p (us ++ vs) = spread p us ++ spread (below p us) vs := by
  induction us generalizing p with
  | nil => rfl
  | cons r us ih => simp only [List.cons_append, spread, ih, below_cons p r us, List.append_assoc]

/-- A word begins with a character that is no blank. -/
theorem head_chars (w : Word) : ∃ c cs, w.chars = c :: cs ∧ Text.isBlank c = false := by
  cases w with
  | keyword k hk =>
    obtain ⟨-, c, cs, hc, -, hp⟩ := keyword_spelling hk
    exact ⟨c, cs, hc, isBlank_of_isIdentPart (hp c (by simp))⟩
  | symbol k hk =>
    obtain ⟨c, hs, -, hm⟩ | ⟨c, hs, -, hm⟩ := symbol_spelling hk
    all_goals
      simp only [marks, Bool.and_eq_true, Bool.not_eq_true'] at hm
      exact ⟨c, _, hs, hm.1.1.1.1.1⟩
  | name x =>
    refine ⟨x.first, x.others, rfl, isBlank_of_isIdentPart ?_⟩
    exact Text.isIdentPart_of_isIdentStart x.starts
  | int ds =>
    obtain ⟨d, rest, hd⟩ := List.exists_cons_of_ne_nil ds.nonempty
    exact ⟨d, rest, hd, isBlank_of_isIdentPart
      (Text.isIdentPart_of_isDigit (ds.digit d (by simp [hd])))⟩
  | float whole fraction =>
    obtain ⟨d, rest, hd⟩ := List.exists_cons_of_ne_nil whole.nonempty
    exact ⟨d, rest ++ '.' :: fraction.chars, by simp [Word.chars, hd], isBlank_of_isIdentPart
      (Text.isIdentPart_of_isDigit (whole.digit d (by simp [hd])))⟩
  | text cs => exact ⟨'"', _, rfl, by decide⟩

/-- So many blanks are an indentation that may stand before a token. -/
theorem checkIndentation_indent (hp : p.column = 1) (k : Nat) {c : Char} (cs : List Char)
    (hc : Text.isBlank c = false) :
    checkIndentation p (List.replicate (4 * k) ' ' ++ c :: cs) = .ok () := by
  have ne {d : Char} (hd : Text.isBlank d = true) : c ≠ d := by
    rintro rfl
    rw [hc] at hd
    contradiction
  have blanks : ∀ d ∈ List.replicate (4 * k) ' ', (d == ' ') = true := by
    intro d hd
    rw [List.eq_of_mem_replicate hd]
    rfl
  have other : ∀ d ∈ (c :: cs).head?, (d == ' ') = false := by
    intro d hd
    obtain rfl := Option.some.inj hd
    exact beq_false_of_ne (ne (by decide))
  rw [checkIndentation, if_neg (not_not_intro hp)]
  simp only [takeWhile_run blanks other, dropWhile_run blanks other, List.length_replicate]
  split
  · contradiction
  · exact absurd (List.cons.inj ‹_›).1 (ne (by decide))
  · exact absurd (List.cons.inj ‹_›).1 (ne (by decide))
  · exact absurd (List.cons.inj ‹_›).1 (ne (by decide))
  · rw [if_pos (by omega)]

/-- The indentation of a line is passed over. -/
theorem scan_indent (hp : p.column = 1) (k : Nat) {c : Char} (cs : List Char)
    (hc : Text.isBlank c = false) :
    scan p (List.replicate (4 * k) ' ' ++ c :: cs) = scan (indented p k) (c :: cs) := by
  cases k with
  | zero => rfl
  | succ k =>
    -- the first blank is at the start of the line, where the indentation is checked; the others
    -- are passed over
    have first : skipGap .blank p (List.replicate (4 * (k + 1)) ' ' ++ c :: cs) =
        skipGap .blank (p.step ' ') (List.replicate (4 * k + 3) ' ' ++ c :: cs) := by
      have hi := checkIndentation_indent hp (k + 1) cs hc
      rw [show 4 * (k + 1) = (4 * k + 3) + 1 by omega, List.replicate_succ, List.cons_append]
        at hi ⊢
      conv => lhs; unfold skipGap
      rw [hi]
      rfl
    have step : (p.step ' ').column = 2 := by rw [Position.step_of_ne (by decide), hp]
    have blanks : ∀ b ∈ List.replicate (4 * k + 3) ' ', Text.isBlank b = true ∧ b ≠ '\n' := by
      intro b hb
      rw [List.eq_of_mem_replicate hb]
      decide
    have rest := scan_blanks (p := p.step ' ') (by omega) blanks (c :: cs)
    have place : indented p (k + 1) = (p.step ' ').after (List.replicate (4 * k + 3) ' ') := by
      rw [indented, show 4 * (k + 1) = (4 * k + 3) + 1 by omega, List.replicate_succ]
      rfl
    rw [place, ← rest, scan, scan, first]

/-- The end of a line is passed over. -/
theorem scan_newline (hp : p.column ≠ 1) (cs : List Char) :
    scan p ('\n' :: cs) = scan (p.step '\n') cs := by
  have gap : skipGap .blank p ('\n' :: cs) = skipGap .blank (p.step '\n') cs := by
    conv => lhs; unfold skipGap
    rw [checkIndentation, if_pos hp]
    rfl
  simp only [scan, gap]

theorem apart_newline (cs : List Char) : Apart ('\n' :: cs) := by
  rintro c hc
  obtain rfl := Option.some.inj hc
  decide

/-- A line is read from its first word on. -/
theorem scan_row (hp : p.column = 1) (r : Row) (cs : List Char) :
    scan p (r.text ++ cs) =
      scan (indented p r.depth) (line (r.words ++ [.colon]) ++ ('\n' :: cs)) := by
  obtain ⟨w, ws, hw⟩ : ∃ w ws, r.words ++ [.colon] = w :: ws := by
    cases r.words with
    | nil => exact ⟨.colon, [], rfl⟩
    | cons w ws => exact ⟨w, ws ++ [.colon], rfl⟩
  obtain ⟨rest, hrest, -⟩ := line_cons w ws (apart_newline cs)
  obtain ⟨c, ds, hc, hb⟩ := head_chars w
  have text : r.text ++ cs = List.replicate (4 * r.depth) ' ' ++ c :: (ds ++ rest) := by
    rw [Row.text, Row.indent, List.append_assoc, List.append_assoc, hw]
    congr 1
    show line (w :: ws) ++ ('\n' :: cs) = _
    rw [hrest, hc]
    rfl
  rw [text, scan_indent hp r.depth _ hb, hw, hrest, hc]
  rfl

theorem words_colon_ne_nil (r : Row) : r.words ++ [.colon] ≠ [] := by simp

/-- The place behind the last word of a line. -/
theorem after_line (p : Position) (r : Row) :
    ((indented p r.depth).after (line (r.words ++ [.colon]))).step '\n' = below p [r] := by
  have text : print [r] = r.indent ++ (line (r.words ++ [.colon]) ++ ['\n']) := by
    simp [print, Row.text]
  rw [below, text, Position.after_append, Position.after_append]
  rfl

theorem line_ne_nil {ws : List Word} (h : ws ≠ []) : line ws ≠ [] := by
  obtain ⟨w, ws, rfl⟩ := List.exists_cons_of_ne_nil h
  obtain ⟨rest, hrest, -⟩ := line_cons w ws apart_nil
  rw [List.append_nil] at hrest
  simp [hrest, w.chars_ne_nil]

/-- What a line begins with is its first word. -/
theorem scan_print (hp : p.column = 1) (rows : List Row) :
    ∃ t behind, scan p (print rows) = .ok (t, behind) ∧ (rows = [] → t.kind = .eof) := by
  cases rows with
  | nil => exact ⟨_, _, scan_nil p, fun _ => rfl⟩
  | cons r rows =>
    obtain ⟨w, ws, hw⟩ := List.exists_cons_of_ne_nil (words_colon_ne_nil r)
    obtain ⟨rest, hrest, ha⟩ := line_cons w ws (apart_newline (print rows))
    refine ⟨w.token (indented p r.depth), rest, ?_, nofun⟩
    rw [show print (r :: rows) = r.text ++ print rows from rfl, scan_row hp, hw, hrest]
    exact scan_word w _ ha

/-- A cursor on the first token of a text that consists of lines moves over all of them. -/
theorem crosses_print {c : Cursor} (hp : p.column = 1)
    (hc : scan p (print rows) = .ok (c.current, c.behind)) :
    ∃ d, c.Crosses (spread p rows) d ∧ d.kind = .eof := by
  induction rows generalizing p c with
  | nil =>
    obtain ⟨t, behind, ht, hk⟩ := scan_print hp []
    obtain ⟨rfl, -⟩ := Prod.mk.inj (Except.ok.inj (ht.symm.trans hc))
    exact ⟨c, .done c, hk rfl⟩
  | cons r rows ih =>
    obtain ⟨hline, hcolumn, -⟩ := indented_eq hp r.depth
    rw [show print (r :: rows) = r.text ++ print rows from rfl, scan_row hp] at hc
    -- behind its last word the reader is past the first column, so that the end of the line is a gap
    have past : ((indented p r.depth).after (line (r.words ++ [.colon]))).column ≠ 1 := by
      rw [Position.after_of_not_mem (newline_not_mem_line _)]
      have := List.length_pos_iff.2 (line_ne_nil (words_colon_ne_nil r))
      dsimp only
      omega
    obtain ⟨t, behind, ht, -⟩ := scan_print (below_one p r).2 rows
    have next : scan ((indented p r.depth).after (line (r.words ++ [.colon])))
        ('\n' :: print rows) = .ok (t, behind) := by
      rw [scan_newline past, after_line, ht]
    have first := crosses_row (by omega) (words_colon_ne_nil r) (apart_newline _) hc next
    obtain ⟨d, hd, hk⟩ := ih (c := ⟨c.source, t, behind, _⟩) (below_one p r).2 ht
    exact ⟨d, first.append hd, hk⟩

/-! ### Skipping lines -/

/-- How many brackets are open behind some words. -/
def opened (depth : Nat) (ws : List Word) : Nat :=
  ws.foldl (fun depth w =>
    if w.kind.opens then depth + 1 else if w.kind.closes then depth - 1 else depth) depth

theorem opened_append (depth : Nat) (us ws : List Word) :
    opened depth (us ++ ws) = opened (opened depth us) ws := List.foldl_append

/-- From no word on are more brackets opened than closed. -/
def Sealed (ws : List Word) : Prop := ∀ us vs, ws = us ++ vs → ∀ depth, opened depth vs ≤ depth

section Sealed

variable {w : Word} {us ws : List Word}

theorem sealed_nil : Sealed [] := by
  intro us vs h depth
  obtain ⟨-, rfl⟩ := List.append_eq_nil_iff.1 h.symm
  exact Nat.le_refl depth

theorem Sealed.append (hu : Sealed us) (hw : Sealed ws) : Sealed (us ++ ws) := by
  intro as bs h depth
  obtain ⟨cs, rfl, rfl⟩ | ⟨cs, rfl, rfl⟩ := List.append_eq_append_iff.1 h
  · exact hw _ _ rfl depth
  · rw [opened_append]
    exact Nat.le_trans (hw [] ws rfl _) (hu as cs rfl depth)

theorem sealed_one (hw : w.kind.opens = false) : Sealed [w] := by
  intro us vs h depth
  cases us with
  | nil =>
    obtain rfl : [w] = vs := h
    simp only [opened, List.foldl_cons, List.foldl_nil, hw, Bool.false_eq_true, if_false]
    split
    · exact Nat.sub_le depth 1
    · exact Nat.le_refl depth
  | cons u us =>
    obtain ⟨-, rfl⟩ := List.append_eq_nil_iff.1 (List.cons.inj h).2.symm
    exact Nat.le_refl depth

theorem Sealed.cons (hw : w.kind.opens = false) (h : Sealed ws) : Sealed (w :: ws) :=
  (sealed_one hw).append h

/-- What stands in parentheses. -/
theorem Sealed.paren (h : Sealed ws) : Sealed (.lparen :: (ws ++ [.rparen])) := by
  have inner : Sealed (ws ++ [.rparen]) := h.append (sealed_one rfl)
  intro us vs hs depth
  cases us with
  | nil =>
    obtain rfl : _ = vs := hs
    have first : opened depth (.lparen :: (ws ++ [.rparen])) =
        opened (opened (depth + 1) ws) [.rparen] := opened_append (depth + 1) ws _
    have last (n : Nat) : opened n [.rparen] = n - 1 := rfl
    have := h [] ws rfl (depth + 1)
    rw [first, last]
    omega
  | cons u us => exact inner us vs (List.cons.inj hs).2 depth

theorem sealed_enclosed (b : Bool) (h : Sealed ws) : Sealed (enclosed b ws) := by
  cases b with
  | false => exact h
  | true => exact h.paren

theorem sealed_of_all (h : ws.all (fun w => !w.kind.opens) = true) : Sealed ws := by
  induction ws with
  | nil => exact sealed_nil
  | cons w ws ih =>
    rw [List.all_cons, Bool.and_eq_true, Bool.not_eq_true'] at h
    exact .cons h.1 (ih h.2)

end Sealed

/-- From both places skipping what stands at a column ends in the same way. -/
def Slides (column : Nat) (c d : Cursor) : Prop := c.skipBody column 0 = d.skipBody column 0

theorem Slides.trans {column : Nat} {b c d : Cursor} (h : Slides column b c)
    (h' : Slides column c d) : Slides column b d := Eq.trans h h'

theorem kind_ne_eof (w : Word) : w.kind ≠ .eof := by
  cases w with
  | keyword k hk =>
    rintro rfl
    exact absurd hk (by decide)
  | symbol k hk =>
    rintro rfl
    exact absurd hk (by decide)
  | _ => nofun

theorem skipBody_of_crosses {column : Nat} {c d : Cursor} {ws : List Word}
    (h : c.Crosses (row p ws) d) (hp : column ≤ p.column) (depth : Nat) :
    c.skipBody column depth = d.skipBody column (opened depth ws) := by
  induction ws generalizing p c depth with
  | nil =>
    cases h
    rfl
  | cons w ws ih =>
    obtain ⟨hc, b, hb, hs⟩ := h.cons_inv
    have kind : c.kind = w.kind := congrArg Token.kind hc
    have place : c.current.column = p.column := congrArg Token.column hc
    have passed : c.skipBody column depth = b.skipBody column (c.openBehind depth) :=
      Cursor.skipBody_of_pass (kind ▸ kind_ne_eof w) (fun _ hl => absurd hl.2 (by omega)) hb
    rw [passed, ih hs (Nat.le_trans hp (p.column_le_past [w]))]
    simp only [opened, List.foldl_cons, Cursor.openBehind, kind]

/-- The cursor is on one of the words of a line, or behind them. -/
def Within (p : Position) (ws : List Word) (c d : Cursor) : Prop :=
  ∃ us vs, ws = us ++ vs ∧ c.Crosses (row (p.past us) vs) d

/-- From inside a line skipping goes on behind it. -/
theorem slides_of_within {column : Nat} {c d : Cursor} {ws : List Word} (h : Within p ws c d)
    (hw : Sealed ws) (hp : column ≤ p.column) : Slides column c d := by
  obtain ⟨us, vs, rfl, hc⟩ := h
  rw [Slides, skipBody_of_crosses hc (Nat.le_trans hp (p.column_le_past us)),
    Nat.le_zero.1 (hw us vs rfl 0)]

/-- Lines in at least `k` bodies whose brackets are closed. -/
def Deep (k : Nat) (rows : List Row) : Prop := ∀ r ∈ rows, k ≤ r.depth ∧ Sealed r.words

theorem Deep.append (h : Deep k us) (h' : Deep k vs) : Deep k (us ++ vs) := fun r hr =>
  (List.mem_append.1 hr).elim (h r) (h' r)

theorem Deep.cons (hk : k ≤ r.depth) (hr : Sealed r.words) (h : Deep k rows) :
    Deep k (r :: rows) := by
  rintro s (_ | hs)
  · exact ⟨hk, hr⟩
  · exact h s ‹_›

theorem Deep.mono {j : Nat} (h : Deep k rows) (hj : j ≤ k) : Deep j rows := fun r hr =>
  ⟨Nat.le_trans hj (h r hr).1, (h r hr).2⟩

theorem Sealed.colon {ws : List Word} (h : Sealed ws) : Sealed (ws ++ [.colon]) :=
  h.append (sealed_one rfl)

/-- Skipping goes on behind lines that stand in enough bodies. -/
theorem slides_of_spread {c d : Cursor} (hp : p.column = 1) (h : c.Crosses (spread p rows) d)
    (hd : Deep k rows) : Slides (4 * k + 1) c d := by
  induction rows generalizing p c with
  | nil =>
    cases h
    rfl
  | cons r rows ih =>
    obtain ⟨b, hb, hs⟩ := h.append_inv
    obtain ⟨hk, hr⟩ := hd r (by simp)
    have column := (indented_eq hp r.depth).2.1
    -- no word of the line begins left of the column, and its brackets are closed behind it
    have first : Slides (4 * k + 1) c b :=
      slides_of_within (p := indented p r.depth) ⟨[], _, rfl, hb⟩ hr.colon (by omega)
    exact first.trans (ih (below_one p r).2 hs fun s hs => hd s (by simp [hs]))

/-! ### The brackets of a tree -/

theorem sealed_literal (l : Literal) : Sealed [l.word] := by
  refine sealed_one ?_
  cases l with
  | bool b => cases b <;> rfl
  | _ => rfl

theorem sealed_operator (op : Operator) : Sealed op.words := by
  cases op <;> exact sealed_of_all rfl

mutual

theorem Term.sealed_words (t : Term) : Sealed t.words := by
  cases t with
  | literal l => exact sealed_literal l
  | name x => exact sealed_one rfl
  | paren t => exact t.sealed_words.paren
  | not t => exact .cons rfl (sealed_enclosed _ t.sealed_words)
  | negative t => exact .cons rfl (sealed_enclosed _ t.sealed_words)
  | binary op a b =>
    exact (sealed_enclosed _ a.sealed_words).append
      ((sealed_operator op).append (sealed_enclosed _ b.sealed_words))
  | conditional a c b =>
    exact (sealed_enclosed _ a.sealed_words).append
      (.cons rfl ((sealed_enclosed _ c.sealed_words).append (.cons rfl b.sealed_words)))
  | call f args => exact .cons rfl args.sealed_words.paren

theorem Terms.sealed_words (ts : Terms) : Sealed ts.words := by
  cases ts with
  | nil => exact sealed_nil
  | cons t rest => exact t.sealed_words.append rest.sealed_more

theorem Terms.sealed_more (ts : Terms) : Sealed ts.more := by
  cases ts with
  | nil => exact sealed_nil
  | cons t rest => exact .cons rfl (t.sealed_words.append rest.sealed_more)

end

theorem sealed_stepWords (step : Option Term) : Sealed (stepWords step) := by
  cases step with
  | none => exact sealed_nil
  | some t => exact .cons rfl t.sealed_words

theorem sealed_resultWords (t : Option Term) : Sealed (resultWords t) := by
  cases t with
  | none => exact sealed_one rfl
  | some t => exact .cons rfl (.cons rfl t.sealed_words)

theorem sealed_handlerWords (x : Option Identifier) : Sealed (handlerWords x) := by
  cases x <;> exact sealed_of_all rfl

theorem sealed_rangeWords (x : Identifier) (first last : Term) (step : Option Term) :
    Sealed (rangeWords x first last step) :=
  (sealed_of_all rfl).append (first.sealed_words.append
    (.cons rfl (last.sealed_words.append (sealed_stepWords step))))

theorem sealed_paramWords (xs : List Identifier) : Sealed (paramWords xs) := by
  induction xs with
  | nil => exact sealed_nil
  | cons x xs ih =>
    cases xs with
    | nil => exact sealed_one rfl
    | cons y ys => exact .cons rfl (.cons rfl ih)

/-- A line with further lines in it. -/
theorem deep_header {ws : List Word} (hw : Sealed ws) (h : Deep (k + 1) us) (h' : Deep k vs) :
    Deep k (⟨k, ws⟩ :: (us ++ vs)) :=
  .cons (Nat.le_refl k) hw ((h.mono (Nat.le_succ k)).append h')

theorem deep_nil : Deep k [] := fun _ h => nomatch h

theorem deep_body {ws : List Word} (hw : Sealed ws) (h : Deep (k + 1) us) :
    Deep k (⟨k, ws⟩ :: us) :=
  .cons (Nat.le_refl k) hw (h.mono (Nat.le_succ k))

theorem deep_one {ws : List Word} (hw : Sealed ws) : Deep k [⟨k, ws⟩] :=
  .cons (Nat.le_refl k) hw deep_nil

mutual

theorem Statement.deep_rows (s : Statement) (k : Nat) : Deep k (s.rows k) := by
  cases s with
  | assign x t => exact deep_one ((sealed_of_all rfl).append t.sealed_words)
  | call f args => exact deep_one (Term.call f args).sealed_words
  | skip => exact deep_one (sealed_one rfl)
  | stop => exact deep_one (sealed_one rfl)
  | again => exact deep_one (sealed_one rfl)
  | raise t => exact deep_one ((sealed_of_all rfl).append t.sealed_words)
  | result t => exact deep_one (sealed_resultWords t)
  | branch c body rest =>
    exact deep_header ((sealed_of_all rfl).append c.sealed_words) (body.deep_rows (k + 1))
      (rest.deep_rows k)
  | whileLoop c body =>
    exact deep_body ((sealed_of_all rfl).append c.sealed_words) (body.deep_rows (k + 1))
  | rangeLoop x first last step body =>
    exact deep_body (sealed_rangeWords x first last step) (body.deep_rows (k + 1))
  | attempt body clauses =>
    exact deep_header (sealed_one rfl) (body.deep_rows (k + 1)) (clauses.deep_rows k)

theorem Branches.deep_rows (b : Branches) (k : Nat) : Deep k (b.rows k) := by
  cases b with
  | done => exact deep_nil
  | elif c body rest =>
    exact deep_header ((sealed_of_all rfl).append c.sealed_words) (body.deep_rows (k + 1))
      (rest.deep_rows k)
  | otherwise body => exact deep_body (sealed_one rfl) (body.deep_rows (k + 1))

theorem Clauses.deep_rows (c : Clauses) (k : Nat) : Deep k (c.rows k) := by
  cases c with
  | handler x body rest =>
    exact deep_header (sealed_handlerWords x) (body.deep_rows (k + 1)) (rest.deep_rows k)
  | cleanup body => exact deep_body (sealed_one rfl) (body.deep_rows (k + 1))

theorem Cleanup.deep_rows (c : Cleanup) (k : Nat) : Deep k (c.rows k) := by
  cases c with
  | none => exact deep_nil
  | «finally» body => exact deep_body (sealed_one rfl) (body.deep_rows (k + 1))

theorem Block.deep_rows (b : Block) (k : Nat) : Deep k (b.rows k) := by
  cases b with
  | one s => exact s.deep_rows k
  | cons s rest => exact (s.deep_rows k).append (rest.deep_rows k)

end

/-! ### Where statements and bodies end -/

/-- The kinds a statement may begin with. -/
def startsLine : TokenKind → Bool
  | .kwLet | .ident | .kwSkip | .kwBreak | .kwContinue | .kwRaise | .kwReturn | .kwIf | .kwLoop
  | .kwTry | .kwFunct => true
  | _ => false

theorem Statement.rows_eq (s : Statement) (k : Nat) :
    ∃ w ws rest, s.rows k = ⟨k, w :: ws⟩ :: rest ∧ startsLine w.kind = true := by
  cases s with
  | result t => cases t <;> exact ⟨_, _, _, rfl, rfl⟩
  | _ => exact ⟨_, _, _, rfl, rfl⟩

theorem Block.rows_eq (b : Block) (k : Nat) :
    ∃ w ws rest, b.rows k = ⟨k, w :: ws⟩ :: rest ∧ startsLine w.kind = true := by
  cases b with
  | one s => exact s.rows_eq k
  | cons s b =>
    obtain ⟨w, ws, rest, hs, hw⟩ := s.rows_eq k
    exact ⟨w, ws, rest ++ b.rows k, by rw [Block.rows, hs]; rfl, hw⟩

theorem Item.rows_eq (i : Item) :
    ∃ w ws rest, i.rows = ⟨0, w :: ws⟩ :: rest ∧ startsLine w.kind = true := by
  cases i with
  | statement s => exact s.rows_eq 0
  | function d => exact ⟨_, _, _, rfl, rfl⟩

/-- Where a statement in `k` bodies may end: at the end of the text, or before a line that begins no
further right than the statement and does not go on with it. -/
def Borders (k : Nat) (e : Cursor) : Prop :=
  e.kind = .eof ∨ e.atLineStart = true ∧ e.kind ≠ .colon ∧ e.current.column ≤ 4 * k + 1 ∧
    (e.current.column = 4 * k + 1 → startsLine e.kind = true)

/-- Where the body that is the `k`th one around its statements may end: at the end of the text, or
before a line that begins further left. -/
def Closes (k : Nat) (e : Cursor) : Prop :=
  e.kind = .eof ∨ e.StartsLeft (4 * k + 1) ∧ e.kind ≠ .colon

variable {b c d e : Cursor}

theorem Borders.closes (h : Borders k e) : Closes (k + 1) e := by
  obtain h | ⟨hl, hc, hk, -⟩ := h
  · exact .inl h
  · exact .inr ⟨⟨hl, by omega⟩, hc⟩

theorem Closes.borders (h : Closes k e) : Borders k e := by
  obtain h | ⟨⟨hl, hk⟩, hc⟩ := h
  · exact .inl h
  · exact .inr ⟨hl, hc, by omega, fun h => absurd h (by omega)⟩

theorem Closes.skipBody (h : Closes k e) : e.skipBody (4 * k + 1) 0 = .ok e :=
  Cursor.skipBody_of_end (h.imp_right fun h => ⟨rfl, h.1⟩)

theorem Closes.kind_ne_colon (h : Closes k e) : e.kind ≠ .colon := by
  obtain h | h := h
  · rw [h]
    decide
  · exact h.2

theorem passedLine_of_row {ws : List Word} (hw : ws ≠ []) (h : c.Crosses (row p ws) d) :
    d.passedLine = p.line := by
  induction ws generalizing p c with
  | nil => exact absurd rfl hw
  | cons w ws ih =>
    obtain ⟨hc, b, hb, hs⟩ := h.cons_inv
    cases ws with
    | nil =>
      cases hs
      have stop : c.current.stop.line = p.line := by
        rw [hc]
        exact (line_of_mem_row (show w.token p ∈ row p [w] by simp [row])).2
      unfold Cursor.bump at hb
      split at hb
      · contradiction
      · obtain rfl := Except.ok.inj hb
        exact stop
    | cons v ws =>
      have line : (p.past [w]).line = p.line := p.line_past [w]
      exact (ih (by simp) hs).trans line

theorem passedLine_of_spread (hr : rows ≠ []) (h : c.Crosses (spread p rows) d) :
    d.passedLine < (below p rows).line := by
  induction rows generalizing p c with
  | nil => exact absurd rfl hr
  | cons r rows ih =>
    obtain ⟨b, hb, hs⟩ := h.append_inv
    cases rows with
    | nil =>
      cases hs
      have passed := passedLine_of_row (words_colon_ne_nil r) hb
      have line := (below_one p r).1
      rw [line_indented] at passed
      omega
    | cons r' rows =>
      rw [below_cons]
      exact ih (by simp) hs

/-- The first token of a line. -/
structure OnLine (p : Position) (k : Nat) (w : Word) (c : Cursor) : Prop where
  current : c.current = w.token (indented p k)
  column : c.current.column = 4 * k + 1
  line : c.current.line = p.line

theorem onLine_of_crosses {w : Word} {ws : List Word} (hp : p.column = 1)
    (h : c.Crosses (spread p (⟨k, w :: ws⟩ :: rows)) d) : OnLine p k w c := by
  obtain ⟨b, hb, -⟩ := h.append_inv
  have current : c.current = w.token (indented p k) := hb.cons_inv.1
  obtain ⟨hline, hcolumn, -⟩ := indented_eq hp k
  refine ⟨current, ?_, ?_⟩
  · rw [current]
    exact hcolumn
  · rw [current]
    exact hline

theorem OnLine.kind {w : Word} (h : OnLine p k w c) : c.kind = w.kind :=
  congrArg Token.kind h.current

/-- A line behind other ones. -/
theorem OnLine.atLineStart {w : Word} (h : OnLine (below p rows) k w c) (hr : rows ≠ [])
    (hc : b.Crosses (spread p rows) c) : c.atLineStart = true := by
  have := passedLine_of_spread hr hc
  exact decide_eq_true (by rw [h.line]; exact this)

/-- Before the next statement of the same body. -/
theorem OnLine.borders {w : Word} (h : OnLine (below p rows) k w c) (hr : rows ≠ [])
    (hc : b.Crosses (spread p rows) c) (hw : startsLine w.kind = true) : Borders k c := by
  refine .inr ⟨h.atLineStart hr hc, ?_, Nat.le_of_eq h.column, fun _ => by rw [h.kind]; exact hw⟩
  rw [h.kind]
  rintro he
  rw [he] at hw
  contradiction

/-- Before a line that begins further left. -/
theorem OnLine.closes {w : Word} {j : Nat} (h : OnLine (below p rows) j w c) (hr : rows ≠ [])
    (hc : b.Crosses (spread p rows) c) (hj : j < k) (hw : w.kind ≠ .colon) : Closes k c :=
  .inr ⟨⟨h.atLineStart hr hc, by rw [h.column]; omega⟩, by rw [h.kind]; exact hw⟩

end Tree

end Rewind
