/-
The margin of a line.

A token that begins its line stands behind blanks only.  The rule of indentation looks at these blanks
once, from the beginning of the line: spaces have to come in fours, and no tab may follow them.  But it
looks no farther than the first character that is no space.  Behind a carriage return it asks nothing,
and behind any other blank it only counts the spaces in front of it, while the reader passes on over all
blanks to the token.

* `lineFront` — what stands on its line in front of a place;
* `Margin` — the blanks that may stand there in front of a token;
* `Allowed`, `Heeds` — a line that the rule lets pass, and a place on such a line or behind a token;
* `tight_lexeme` — a token ends with a character that is no blank;
* `heeds_skipGap` — the reader keeps to such places;
* `margin_of_token` — a token behind blanks only stands behind a margin, and behind any margin.
-/
import Rewind.Proofs.Layout
import Rewind.Proofs.Wording

namespace Rewind

/-! ### Lines -/

/-- What stands behind the last line break of a text. -/
def lineFront (before : List Char) : List Char := (before.reverse.takeWhile (· ≠ '\n')).reverse

theorem length_lineFront (before : List Char) : (lineFront before).length = sinceBreak before :=
  List.length_reverse

theorem not_mem_lineFront (before : List Char) : '\n' ∉ lineFront before := by
  intro h
  have := List.all_eq_true.1 List.all_takeWhile _ (List.mem_reverse.1 h)
  simp at this

theorem lineFront_append {before cs : List Char} (h : '\n' ∉ cs) :
    lineFront (before ++ cs) = lineFront before ++ cs := by
  have run : (before ++ cs).reverse.takeWhile (· ≠ '\n') =
      cs.reverse ++ before.reverse.takeWhile (· ≠ '\n') := by
    rw [List.reverse_append, List.takeWhile_append_of_pos fun c hc => ?_]
    have hne : c ≠ '\n' := fun he => h (he ▸ List.mem_reverse.1 hc)
    simpa using hne
  rw [lineFront, run, List.reverse_append, List.reverse_reverse, lineFront]

/-- The column of a place counts the characters of its line. -/
theorem column_after {p : Position} {before : List Char} (h : p.column = 1 + sinceBreak before)
    (cs : List Char) : (p.after cs).column = 1 + sinceBreak (before ++ cs) := by
  induction cs generalizing p before with
  | nil => rw [List.append_nil]; exact h
  | cons c cs ih =>
    rw [Position.after_cons, show before ++ c :: cs = before ++ [c] ++ cs by simp]
    refine ih ?_
    by_cases hc : c = '\n'
    · subst hc
      simp [Position.step, sinceBreak]
    · rw [Position.step_of_ne hc, ← length_lineFront, lineFront_append (by simpa using Ne.symm hc),
        List.length_append, length_lineFront, h]
      rfl

/-! ### The rule of indentation -/

/-- The blanks that may stand in front of a token on its line. -/
inductive Margin : List Char → Prop
  /-- Spaces that come in fours. -/
  | spaces (n : Nat) : Margin (List.replicate (4 * n) ' ')
  /-- Any blanks behind spaces that come in fours, if a tab is not the first of them. -/
  | other (n : Nat) {c : Char} {more : List Char} : Text.isBlank c = true → c ≠ ' ' → c ≠ '\t' →
      c ≠ '\n' → c ≠ '\r' → (∀ d ∈ more, Text.isBlank d = true ∧ d ≠ '\n') →
      Margin (List.replicate (4 * n) ' ' ++ c :: more)
  /-- Any blanks behind a carriage return, with any number of spaces in front of it. -/
  | carriage (n : Nat) {more : List Char} : (∀ d ∈ more, Text.isBlank d = true ∧ d ≠ '\n') →
      Margin (List.replicate n ' ' ++ '\r' :: more)

/-- The rule of indentation lets a line pass that begins so. -/
def Allowed (cs : List Char) : Prop := checkIndentation (Position.origin 0) cs = .ok ()

theorem allowed_iff {p : Position} {cs : List Char} (hp : p.column = 1) :
    checkIndentation p cs = .ok () ↔ Allowed cs := by
  unfold Allowed checkIndentation
  rw [if_neg (not_not.2 hp), if_neg (by simp [Position.origin])]
  dsimp only
  split
  · exact Iff.rfl
  · exact Iff.rfl
  · exact Iff.rfl
  · split <;> simp
  · split <;> simp

/-- The rule lets a line pass that begins with `n` spaces, by what stands behind them. -/
def Spaced (n : Nat) : List Char → Prop
  | [] | '\n' :: _ | '\r' :: _ => True
  | '\t' :: rest => ∀ c ∈ rest.takeWhile (· != '\n'), Text.isBlank c = true
  | _ :: _ => 4 ∣ n

theorem spaced_cons {n : Nat} {c : Char} {cs : List Char} (hn : c ≠ '\n') (hr : c ≠ '\r')
    (ht : c ≠ '\t') : Spaced n (c :: cs) ↔ 4 ∣ n := by
  unfold Spaced
  split
  · contradiction
  · exact absurd (List.cons.inj ‹_›).1 hn
  · exact absurd (List.cons.inj ‹_›).1 hr
  · exact absurd (List.cons.inj ‹_›).1 ht
  · exact Iff.rfl

/-- The rule looks at the spaces a line begins with and at what stands behind them. -/
theorem allowed_run (n : Nat) {ahead : List Char} (h : ∀ c ∈ ahead.head?, c ≠ ' ') :
    Allowed (List.replicate n ' ' ++ ahead) ↔ Spaced n ahead := by
  have first : ∀ c ∈ ahead.head?, (c == ' ') = false := fun c hc => beq_false_of_ne (h c hc)
  have spaces : ((List.replicate n ' ' ++ ahead).takeWhile (· == ' ')).length = n := by
    rw [takeWhile_run (by simp) first, List.length_replicate]
  have text : (List.replicate n ' ' ++ ahead).dropWhile (· == ' ') = ahead :=
    dropWhile_run (by simp) first
  rw [Allowed, checkIndentation, if_neg (by simp [Position.origin]), spaces, text]
  unfold Spaced
  clear h first spaces text
  split
  · simp
  · simp
  · simp
  · simp [List.all_eq_true]
  · simp [Nat.dvd_iff_mod_eq_zero]

/-- A run of spaces in front of what is no space. -/
theorem exists_spaces (front : List Char) :
    ∃ n rest, front = List.replicate n ' ' ++ rest ∧ ∀ c ∈ rest.head?, c ≠ ' ' := by
  refine ⟨(front.takeWhile (· == ' ')).length, front.dropWhile (· == ' '), ?_, fun c hc => ?_⟩
  · conv => lhs; rw [← List.takeWhile_append_dropWhile (p := (· == ' ')) (l := front)]
    congr 1
    refine List.eq_replicate_iff.2 ⟨rfl, fun c hc => ?_⟩
    simpa using List.all_eq_true.1 List.all_takeWhile c hc
  · have := List.head?_dropWhile_not (· == ' ') front
    rw [Option.mem_def.1 hc] at this
    simpa using this

/-- What has been passed of an allowed line when a token comes is a margin. -/
theorem margin_of_allowed {front ahead : List Char} {c : Char} (h : Allowed (front ++ c :: ahead))
    (blank : ∀ d ∈ front, Text.isBlank d = true) (line : '\n' ∉ front)
    (hc : Text.isBlank c = false) : Margin front := by
  have apart {d : Char} (hd : Text.isBlank d = true) : c ≠ d := by
    rintro rfl
    rw [hc] at hd
    contradiction
  obtain ⟨n, rest, rfl, hrest⟩ := exists_spaces front
  rw [List.append_assoc] at h
  cases rest with
  -- only spaces in front of the token: there are four for each level
  | nil =>
    rw [List.nil_append, allowed_run n (by simpa using apart (by decide)),
      spaced_cons (apart (by decide)) (apart (by decide)) (apart (by decide))] at h
    obtain ⟨k, rfl⟩ := h
    rw [List.append_nil]
    exact .spaces k
  | cons d more =>
    have hd : d ≠ ' ' := hrest d rfl
    have dblank : Text.isBlank d = true := blank d (by simp)
    have dline : d ≠ '\n' := fun he => line (by simp [he])
    have others : ∀ e ∈ more, Text.isBlank e = true ∧ e ≠ '\n' := fun e he =>
      ⟨blank e (by simp [he]), fun hn => line (by simp [hn ▸ he])⟩
    rw [List.cons_append, allowed_run n (by simpa using hd)] at h
    -- behind the spaces a carriage return ends the check
    by_cases hr : d = '\r'
    · subst hr
      exact .carriage n others
    by_cases ht : d = '\t'
    · -- the token is no blank, and it stands on the line of the tab
      subst ht
      have seen : c ∈ (more ++ c :: ahead).takeWhile (· != '\n') := by
        rw [List.takeWhile_append_of_pos fun e he => by simpa using (others e he).2,
          List.takeWhile_cons_of_pos (by simpa using apart (by decide))]
        simp
      rw [h c seen] at hc
      contradiction
    -- any other blank ends it too, if it stands behind a multiple of four spaces
    rw [spaced_cons dline hr ht] at h
    obtain ⟨k, rfl⟩ := h
    exact .other k dblank hd ht dline hr others

/-- A margin is blank and stands on one line. -/
theorem Margin.blank {front : List Char} (h : Margin front) :
    ∀ c ∈ front, Text.isBlank c = true ∧ c ≠ '\n' := by
  have space {n : Nat} : ∀ c ∈ List.replicate n ' ', Text.isBlank c = true ∧ c ≠ '\n' := by
    intro c hc
    rw [List.eq_of_mem_replicate hc]
    decide
  cases h with
  | spaces => exact space
  | other _ hb _ _ hn _ more =>
    exact List.forall_mem_append.2 ⟨space, List.forall_mem_cons.2 ⟨⟨hb, hn⟩, more⟩⟩
  | carriage _ more =>
    exact List.forall_mem_append.2 ⟨space, List.forall_mem_cons.2 ⟨by decide, more⟩⟩

/-- The rule lets a line pass that begins with a margin. -/
theorem Margin.allowed {front : List Char} (h : Margin front) {c : Char} (hc : Text.isBlank c = false)
    (ahead : List Char) : Allowed (front ++ c :: ahead) := by
  have apart {d : Char} (hd : Text.isBlank d = true) : c ≠ d := by
    rintro rfl
    rw [hc] at hd
    contradiction
  cases h with
  | spaces n =>
    rw [allowed_run _ (by simpa using apart (by decide)),
      spaced_cons (apart (by decide)) (apart (by decide)) (apart (by decide))]
    exact Nat.dvd_mul_right 4 n
  | other n _ hs ht hn hr =>
    rw [List.append_assoc, List.cons_append, allowed_run _ (by simpa using hs), spaced_cons hn hr ht]
    exact Nat.dvd_mul_right 4 n
  | carriage n =>
    rw [List.append_assoc, List.cons_append, allowed_run _ (by simp)]
    trivial

/-! ### The reader -/

/-- A place in the text: something that is no blank stands in front of it on its line, or the rule lets
its line pass. -/
def Heeds (before ahead : List Char) : Prop :=
  (∃ c ∈ lineFront before, Text.isBlank c = false) ∨ Allowed (lineFront before ++ ahead)

/-- Something that is no blank stands on the line in front of the place behind it. -/
theorem Heeds.behind {c : Char} (h : Text.isBlank c = false) (before ahead : List Char) :
    Heeds (before ++ [c]) ahead := by
  have hn : '\n' ∉ [c] := by
    intro hm
    rw [← List.mem_singleton.1 hm] at h
    contradiction
  exact .inl ⟨c, by rw [lineFront_append hn]; simp, h⟩

/-- The place behind a blank of the same line. -/
theorem Heeds.step {c : Char} {before ahead : List Char} (h : Heeds before (c :: ahead))
    (hc : c ≠ '\n') : Heeds (before ++ [c]) ahead := by
  unfold Heeds
  rw [lineFront_append (by simpa using Ne.symm hc), List.append_assoc]
  exact h.imp_left fun ⟨d, hd, hb⟩ => ⟨d, List.mem_append_left _ hd, hb⟩

/-- The reader has checked its line if it stands at the beginning. -/
theorem Heeds.checked {p : Position} {before ahead : List Char}
    (hp : p.column = 1 + sinceBreak before) (h : p.column ≠ 1 → Heeds before ahead)
    (check : checkIndentation p ahead = .ok ()) : Heeds before ahead := by
  by_cases hc : p.column = 1
  · have front : lineFront before = [] := List.eq_nil_of_length_eq_zero (by rw [length_lineFront]; omega)
    refine .inr ?_
    rw [front]
    exact (allowed_iff hc).1 check
  · exact h hc

/-- What is known of the place where a reader stands between two tokens. -/
def Gap.Heeds : Gap → (p : Position) → (before ahead : List Char) → Prop
  | .blank, p, before, ahead => p.column ≠ 1 → Rewind.Heeds before ahead
  | .block _, _, _, _ => True
  | .line, _, before, _ => ∃ c ∈ lineFront before, Text.isBlank c = false

/-- A token begins with a character that is no blank, at a place where the rule is kept. -/
theorem heeds_skipGap {g : Gap} {p q : Position} {cs ds before : List Char}
    (h : skipGap g p cs = .ok (q, ds)) (hp : p.column = 1 + sinceBreak before)
    (hg : g.Heeds p before cs) :
    ∃ gap, cs = gap ++ ds ∧ q = p.after gap ∧
      ∀ c ∈ ds.head?, Text.isBlank c = false ∧ Heeds (before ++ gap) ds := by
  -- by the recursion over what is skipped: blanks, comments, and what is inside of comments
  fun_induction skipGap g p cs generalizing before with
  | case1 | case10 =>
    obtain ⟨rfl, rfl⟩ := Prod.mk.inj (Except.ok.inj h)
    exact ⟨[], rfl, rfl, by simp⟩
  | case2 | case7 => contradiction
  -- a blank at the start of a line has passed the check, any other one needs none
  | case3 p c cs check hb ih =>
    have heeds : Heeds before (c :: cs) := .checked hp hg check
    obtain ⟨gap, rfl, rfl, hd⟩ := ih h (column_after hp [c]) fun hc => by
      refine heeds.step ?_
      rintro rfl
      exact hc (by simp [Position.step])
    exact ⟨c :: gap, rfl, rfl, by simpa using hd⟩
  -- a comment in fences may go over several lines, so nothing is asked until it is closed
  | case4 p cs _ _ ih =>
    obtain ⟨gap, rfl, rfl, hd⟩ := ih h (column_after hp _) trivial
    exact ⟨['\'', '\'', '\''] ++ gap, rfl, by rw [Position.after_append], by simpa using hd⟩
  -- a line comment: from the dashes on nothing is checked before the end of the line
  | case5 p cs _ _ ih =>
    have dashes : ∃ c ∈ lineFront (before ++ ['-', '-']), Text.isBlank c = false := by
      rw [lineFront_append (by decide)]
      exact ⟨'-', by simp, by decide⟩
    obtain ⟨gap, rfl, rfl, hd⟩ := ih h (column_after hp _) dashes
    exact ⟨['-', '-'] ++ gap, rfl, by rw [Position.after_append], by simpa using hd⟩
  -- here the token begins
  | case6 p c cs _ _ hb check =>
    obtain ⟨rfl, rfl⟩ := Prod.mk.inj (Except.ok.inj h)
    refine ⟨[], rfl, rfl, fun d hd => ?_⟩
    obtain rfl : c = d := Option.some.inj hd
    rw [List.append_nil]
    exact ⟨by simpa using hb, .checked hp hg check⟩
  -- behind the fences of a comment no check is due before the next line
  | case8 opened p cs ih =>
    have closed : Heeds (before ++ ['\'', '\'', '\'']) cs := by
      rw [show before ++ ['\'', '\'', '\''] = before ++ ['\'', '\''] ++ ['\''] by simp]
      exact .behind (by decide) _ _
    obtain ⟨gap, rfl, rfl, hd⟩ := ih h (column_after hp _) fun _ => closed
    exact ⟨['\'', '\'', '\''] ++ gap, rfl, by rw [Position.after_append], by simpa using hd⟩
  | case9 opened p c cs _ ih =>
    obtain ⟨gap, rfl, rfl, hd⟩ := ih h (column_after hp [c]) trivial
    exact ⟨c :: gap, rfl, rfl, by simpa using hd⟩
  -- a line break ends a line comment, and the next line is checked anew
  | case11 p cs ih =>
    obtain ⟨gap, rfl, rfl, hd⟩ := ih h (column_after hp ['\n']) fun hc =>
      absurd (by simp [Position.step]) hc
    exact ⟨'\n' :: gap, rfl, rfl, by simpa using hd⟩
  | case12 p cs ih =>
    have closed : Heeds (before ++ ['-', '-']) cs := by
      rw [show before ++ ['-', '-'] = before ++ ['-'] ++ ['-'] by simp]
      exact .behind (by decide) _ _
    obtain ⟨gap, rfl, rfl, hd⟩ := ih h (column_after hp _) fun _ => closed
    exact ⟨['-', '-'] ++ gap, rfl, by rw [Position.after_append], by simpa using hd⟩
  | case13 p c cs hn _ ih =>
    have hn : '\n' ∉ [c] := by simpa using fun e => hn e.symm
    obtain ⟨gap, rfl, rfl, hd⟩ := ih h (column_after hp [c]) (by
      obtain ⟨d, hd, hb⟩ := hg
      exact ⟨d, by rw [lineFront_append hn]; exact List.mem_append_left _ hd, hb⟩)
    exact ⟨c :: gap, rfl, rfl, by simpa using hd⟩

/-! ### Tokens -/

/-- What is taken off the text ends with a character that is no blank. -/
def Tight (cs rest : List Char) : Prop :=
  ∃ taken c, cs = taken ++ c :: rest ∧ Text.isBlank c = false

theorem Tight.cons {cs rest : List Char} (h : Tight cs rest) (c : Char) : Tight (c :: cs) rest := by
  obtain ⟨taken, d, rfl, hd⟩ := h
  exact ⟨c :: taken, d, rfl, hd⟩

/-- None of what is taken off the text is blank. -/
theorem tight_of_forall {taken : List Char} (hne : taken ≠ [])
    (h : ∀ c ∈ taken, Text.isBlank c = false) (rest : List Char) : Tight (taken ++ rest) rest := by
  refine ⟨taken.dropLast, taken.getLast hne, ?_, h _ (List.getLast_mem hne)⟩
  conv => lhs; rw [← List.dropLast_append_getLast hne]
  simp

theorem tight_quoted {quote : Char} {opened p : Position} {cs read : List Char} {l : Lexeme}
    (h : quoted quote opened p cs read = .ok l) (hq : Text.isBlank quote = false) :
    Tight cs l.rest := by
  fun_induction quoted quote opened p cs read with
  | case1 | case3 => contradiction
  | case2 =>
    obtain rfl := Except.ok.inj h
    exact ⟨[], _, rfl, hq⟩
  | case4 _ _ _ _ _ ih => exact ((ih h).cons _).cons _
  | case5 _ _ _ _ _ _ ih => exact (ih h).cons _

theorem tight_fenced {opened p : Position} {cs read : List Char} {l : Lexeme}
    (h : fenced opened p cs read = .ok l) : Tight cs l.rest := by
  fun_induction fenced opened p cs read with
  | case1 => contradiction
  | case2 p c cs read hf =>
    obtain rfl := Except.ok.inj h
    obtain ⟨behind, hb⟩ := List.isPrefixOf_iff_prefix.1 hf
    obtain rfl : cs = _ := (List.cons.inj hb).2.symm
    rw [← hb]
    have mark : ∀ c ∈ fence, Text.isBlank c = false := fun c hc => by
      obtain rfl : c = Char.ofNat 96 := by simpa [fence] using hc
      decide
    exact tight_of_forall (by decide) mark _
  | case3 _ _ _ _ _ ih => exact (ih h).cons _

theorem tight_number {p : Position} {cs : List Char} {l : Lexeme} (h : number p cs = .ok l)
    {d : Char} {ds : List Char} (hcs : cs = d :: ds) (hd : d.isDigit = true) : Tight cs l.rest := by
  have digit {c : Char} (hc : c.isDigit = true) : Text.isBlank c = false :=
    isBlank_of_isIdentPart (Text.isIdentPart_of_isDigit hc)
  have whole : ∀ c ∈ cs.takeWhile Char.isDigit, Text.isBlank c = false := fun c hc =>
    digit (List.all_eq_true.1 List.all_takeWhile c hc)
  have nonempty : cs.takeWhile Char.isDigit ≠ [] := by simp [hcs, hd]
  have split : cs.takeWhile Char.isDigit ++ cs.dropWhile Char.isDigit = cs :=
    List.takeWhile_append_dropWhile
  -- a whole number ends with its last digit
  have integer {l : Lexeme}
      (h : number.integer p (cs.takeWhile Char.isDigit) (cs.dropWhile Char.isDigit) = .ok l) :
      Tight cs l.rest := by
    unfold number.integer at h
    split at h
    · obtain rfl := Except.ok.inj h
      have closes := tight_of_forall nonempty whole (cs.dropWhile Char.isDigit)
      rwa [split] at closes
    · cases h
  simp only [number] at h
  split at h
  · rename_i e rest hb
    split at h
    · rename_i he
      obtain rfl := Except.ok.inj h
      -- digits behind the point, and the point itself is no blank
      have fraction : ∀ c ∈ cs.takeWhile Char.isDigit ++ '.' :: e :: rest.takeWhile Char.isDigit,
          Text.isBlank c = false := by
        refine List.forall_mem_append.2 ⟨whole, List.forall_mem_cons.2 ⟨by decide,
          List.forall_mem_cons.2 ⟨digit he, fun c hc => digit ?_⟩⟩⟩
        exact List.all_eq_true.1 List.all_takeWhile c hc
      have closes := tight_of_forall (by simp) fraction (rest.dropWhile Char.isDigit)
      rwa [List.append_assoc, List.cons_append, List.cons_append, List.takeWhile_append_dropWhile,
        ← hb, split] at closes
    · exact integer h
  · exact integer h

/-- A token ends with a character that is no blank. -/
theorem tight_lexeme {p : Position} {c : Char} {cs : List Char} {l : Lexeme}
    (h : lexeme p c cs = .ok l) : Tight (c :: cs) l.rest := by
  unfold lexeme at h
  -- a string in fences, a string in quotes, a number, a word, or a symbol of two characters or
  -- one
  split at h
  · rename_i hf
    obtain ⟨behind, hb⟩ := List.isPrefixOf_iff_prefix.1 hf
    obtain rfl : cs = _ := (List.cons.inj hb).2.symm
    exact (((tight_fenced h).cons _).cons _).cons _
  split at h
  · rename_i hq
    have quote : Text.isBlank c = false := by
      obtain rfl | rfl := hq <;> decide
    exact (tight_quoted h quote).cons _
  split at h
  · rename_i hd
    exact tight_number h rfl hd
  split at h
  · rename_i hs
    obtain rfl := Except.ok.inj h
    have letters : ∀ d ∈ (c :: cs).takeWhile Text.isIdentPart, Text.isBlank d = false := fun d hd =>
      isBlank_of_isIdentPart (List.all_eq_true.1 List.all_takeWhile d hd)
    have nonempty : (c :: cs).takeWhile Text.isIdentPart ≠ [] := by
      simp [Text.isIdentPart_of_isIdentStart hs]
    have closes := tight_of_forall nonempty letters ((c :: cs).dropWhile Text.isIdentPart)
    rwa [List.takeWhile_append_dropWhile] at closes
  · unfold symbol at h
    split at h
    · rename_i k hk
      obtain rfl := Except.ok.inj h
      obtain ⟨d, hd, pair⟩ := Option.bind_eq_some_iff.1 hk
      obtain ⟨behind, rfl⟩ : ∃ behind, cs = d :: behind := by
        cases cs with
        | nil => contradiction
        | cons e behind => exact ⟨behind, by rw [Option.some.inj hd]⟩
      refine ⟨[c], d, rfl, ?_⟩
      unfold symbolPair? at pair
      split at pair
      all_goals first | contradiction | decide
    · split at h
      · rename_i k hk
        obtain rfl := Except.ok.inj h
        refine ⟨[], c, rfl, ?_⟩
        unfold symbolChar? at hk
        split at hk
        all_goals first | contradiction | decide
      · contradiction

/-- A token stands at a place where the rule is kept, and the place behind it is one. -/
theorem heeds_scan {p : Position} {cs rest before : List Char} {t : Token}
    (h : scan p cs = .ok (t, rest)) (hp : p.column = 1 + sinceBreak before)
    (hb : p.column ≠ 1 → Heeds before cs) (ht : t.kind ≠ .eof) :
    ∃ gap c ahead taken, cs = gap ++ c :: ahead ∧ t.start = p.after gap ∧
      Text.isBlank c = false ∧ Heeds (before ++ gap) (c :: ahead) ∧
      cs = taken ++ rest ∧ t.stop = p.after taken ∧ Heeds (before ++ taken) rest := by
  simp only [scan, bind, Except.bind, pure, Except.pure] at h
  split at h
  · contradiction
  rename_i r hr
  obtain ⟨q, ds⟩ := r
  obtain ⟨gap, rfl, rfl, heeds⟩ := heeds_skipGap hr hp hb
  split at h
  · obtain ⟨rfl, rfl⟩ := Prod.mk.inj (Except.ok.inj h)
    contradiction
  · rename_i q c ahead he
    obtain ⟨rfl, rfl⟩ := Prod.mk.inj he
    split at h
    · contradiction
    rename_i l hl
    obtain ⟨rfl, rfl⟩ := Prod.mk.inj (Except.ok.inj h)
    obtain ⟨blank, heeds⟩ := heeds c rfl
    -- the token has been taken whole, and its last character is no blank
    obtain ⟨taken, ht, hstop⟩ := takes_lexeme hl
    obtain ⟨taken', d, ht', hd⟩ := tight_lexeme hl
    obtain rfl : taken = taken' ++ [d] := by
      rw [ht, List.append_cons] at ht'
      exact List.append_cancel_right ht'
    refine ⟨gap, c, ahead, gap ++ (taken' ++ [d]), rfl, rfl, blank, heeds, ?_, ?_, ?_⟩
    · rw [List.append_assoc, ← ht]
    · rw [Position.after_append]
      exact hstop
    · rw [← List.append_assoc, ← List.append_assoc]
      exact .behind hd _ _

/-- Tokens that stand behind blanks only stand behind a margin. -/
theorem margins_tokensFrom {p : Position} {cs before : List Char} {ts : List Token}
    (h : tokensFrom p cs = .ok ts) (hp : p.column = 1 + sinceBreak before)
    (hb : p.column ≠ 1 → Heeds before cs) :
    ∀ t ∈ ts, t.kind ≠ .eof → ∃ passed, passed <+: cs ∧ t.start = p.after passed ∧
      ((∀ c ∈ lineFront (before ++ passed), Text.isBlank c = true) →
        Margin (lineFront (before ++ passed))) := by
  fun_induction tokensFrom p cs generalizing before ts with
  | case1 => contradiction
  | case2 p cs t rest hs hk =>
    obtain rfl := Except.ok.inj h
    intro u hu hn
    obtain rfl := List.mem_singleton.1 hu
    contradiction
  | case3 p cs t rest hs hk _ ih =>
    obtain ⟨gap, c, ahead, taken, rfl, hstart, hc, heeds, hcs, hstop, behind⟩ := heeds_scan hs hp hb hk
    cases hr : tokensFrom t.stop rest with
    | error fault => rw [hr] at h; contradiction
    | ok us =>
      rw [hr] at h
      obtain rfl := Except.ok.inj h
      intro u hu hn
      obtain rfl | hu := List.mem_cons.1 hu
      · refine ⟨gap, List.prefix_append _ _, hstart, fun blank => ?_⟩
        obtain ⟨d, hd, hb⟩ | allowed := heeds
        · rw [blank d hd] at hb
          contradiction
        · exact margin_of_allowed allowed blank (not_mem_lineFront _) hc
      · obtain ⟨passed, ⟨more, hmore⟩, hu, margin⟩ :=
          ih hr (hstop ▸ column_after hp taken) (fun _ => behind) u hu hn
        refine ⟨taken ++ passed, ⟨more, by rw [hcs, ← hmore, List.append_assoc]⟩, ?_, ?_⟩
        · rw [hu, hstop, Position.after_append]
        · rwa [← List.append_assoc]

/-! ### Margins are passed -/

/-- Beyond the first column, a reader passes blanks and goes on. -/
theorem scan_blanks {p : Position} (hp : 1 < p.column) {blanks : List Char}
    (h : ∀ c ∈ blanks, Text.isBlank c = true ∧ c ≠ '\n') (cs : List Char) :
    scan p (blanks ++ cs) = scan (p.after blanks) cs := by
  induction blanks generalizing p with
  | nil => rfl
  | cons c blanks ih =>
    obtain ⟨hc, hn⟩ := h c List.mem_cons_self
    have column : (p.step c).column = p.column + 1 := by rw [Position.step_of_ne hn]
    have passed : skipGap .blank p (c :: (blanks ++ cs)) =
        skipGap .blank (p.step c) (blanks ++ cs) := by
      conv => lhs; unfold skipGap
      rw [checkIndentation, if_pos (by omega)]
      simp only [hc, if_true]
    rw [List.cons_append, scan, passed, ← scan, ih (by omega) fun d hd => h d (.tail c hd)]
    rfl

/-- At the beginning of a line, too, a reader passes a margin. -/
theorem Margin.scan {front : List Char} (h : Margin front) {p : Position} (hp : p.column = 1)
    {c : Char} (hc : Text.isBlank c = false) (cs : List Char) :
    scan p (front ++ c :: cs) = Rewind.scan (p.after front) (c :: cs) := by
  have check : checkIndentation p (front ++ c :: cs) = .ok () := (allowed_iff hp).2 (h.allowed hc cs)
  have blank := h.blank
  cases front with
  | nil => rfl
  | cons d front =>
    obtain ⟨hd, hn⟩ := blank d List.mem_cons_self
    have column : (p.step d).column = 2 := by rw [Position.step_of_ne hn, hp]
    have passed : skipGap .blank p (d :: (front ++ c :: cs)) =
        skipGap .blank (p.step d) (front ++ c :: cs) := by
      rw [List.cons_append] at check
      conv => lhs; unfold skipGap
      rw [check]
      simp only [hd, if_true]
    rw [List.cons_append, Rewind.scan, passed, ← Rewind.scan,
      scan_blanks (by omega) fun e he => blank e (.tail d he)]
    rfl

/-- In a text that can be read as tokens, a token that stands behind blanks only stands behind a
margin, and it may stand behind any margin: whatever line begins with one, the reader comes behind it to
what stands there. -/
theorem margin_of_token {s : Source} {ts : List Token} (tokens : tokenize s = .ok ts) :
    (∀ t ∈ ts, t.kind ≠ .eof → ∃ before, before <+: s.text ∧ t.start = s.origin.after before ∧
      t.start.column = 1 + (lineFront before).length ∧
      ((∀ c ∈ lineFront before, Text.isBlank c = true) → Margin (lineFront before))) ∧
    ∀ (front cs : List Char) (c : Char) (p : Position), Margin front → p.column = 1 →
      Text.isBlank c = false → scan p (front ++ c :: cs) = scan (p.after front) (c :: cs) := by
  refine ⟨fun t ht hk => ?_, fun front cs c p margin hp hc => margin.scan hp hc cs⟩
  have origin : s.origin.column = 1 + sinceBreak [] := rfl
  obtain ⟨before, hbefore, hstart, margin⟩ :=
    margins_tokensFrom tokens origin (fun hn => absurd rfl hn) t ht hk
  refine ⟨before, hbefore, hstart, ?_, margin⟩
  rw [hstart, column_after origin before, length_lineFront]
  rfl

/-- A name behind a carriage return and a tab. -/
def tabbedName : Source := ⟨1, ['\r', '\t', 'x']⟩

theorem tokenize_tabbedName : tokenize tabbedName =
    .ok [⟨.ident, "x", ⟨1, 2, 1, 3⟩, ⟨1, 3, 1, 4⟩⟩, ⟨.eof, "", ⟨1, 3, 1, 4⟩, ⟨1, 3, 1, 4⟩⟩] := by
  decide +kernel

/-- The name has a place on its line, and the reader comes to it behind the carriage return and the
tab. -/
theorem margin_of_tabbedName :
    (∃ before, before <+: tabbedName.text ∧
      (⟨1, 2, 1, 3⟩ : Position) = tabbedName.origin.after before ∧
      3 = 1 + (lineFront before).length ∧
      ((∀ c ∈ lineFront before, Text.isBlank c = true) → Margin (lineFront before))) ∧
    scan tabbedName.origin (['\r', '\t'] ++ ['x']) =
      scan (tabbedName.origin.after ['\r', '\t']) ['x'] := by
  obtain ⟨stands, passed⟩ := margin_of_token tokenize_tabbedName
  exact ⟨stands ⟨.ident, "x", ⟨1, 2, 1, 3⟩, ⟨1, 3, 1, 4⟩⟩ (by simp) (by decide),
    passed ['\r', '\t'] [] 'x' tabbedName.origin
      (.carriage 0 (List.forall_mem_singleton.2 (by decide))) rfl (by decide)⟩

/-- Not every token behind blanks only stands behind spaces that come in fours. -/
theorem tab_behind_carriage : ¬ ∀ (s : Source) (ts : List Token), tokenize s = .ok ts →
    ∀ t ∈ ts, t.kind ≠ .eof → ∀ before, before <+: s.text → t.start = s.origin.after before →
      (∀ c ∈ lineFront before, Text.isBlank c = true) →
        ∃ k, lineFront before = List.replicate (4 * k) ' ' := by
  intro rule
  obtain ⟨k, hk⟩ := rule tabbedName _ tokenize_tabbedName ⟨.ident, "x", ⟨1, 2, 1, 3⟩, ⟨1, 3, 1, 4⟩⟩
    (by simp) (by decide) ['\r', '\t'] (by decide) (by decide) (List.all_eq_true.1 (by decide))
  have tab : '\t' ∈ List.replicate (4 * k) ' ' := by
    rw [← hk]
    decide
  exact absurd (List.eq_of_mem_replicate tab) (by decide)

end Rewind
