/-
Code in parentheses, and the same code on its own.

A code that stands in parentheses on one line is read token by token up to the closing parenthesis.  Read
on its own, from a place where the rule of indentation lets it begin, it has the same tokens, and where
the parenthesis stood the text is at its end.  Nothing that a token or a comment reaches for beyond the
code can be the parenthesis, so that nobody sees the difference before it is reached.

* `Enclosed`, `encloses` — the code consists of whole tokens with matching brackets, up to the
  parenthesis, and a check of that;
* `skipGap_alone`, `lexeme_alone` — what is read of the code is read of it alone;
* `Beside`, `beside_of_enclosed` — the token of the code in place, and the one of the code alone;
* `Beside.step` — they go on side by side;
* `Abreast` — cursors in the code in place and in the code alone; they move on, come back and look ahead
  in the same way.
-/
import Rewind.Proofs.Layout
import Rewind.Proofs.Precedence
import Rewind.Proofs.Revisiting

namespace Rewind

/-- The number of open brackets behind a token, if `n` are open in front of it. -/
def TokenKind.depthBehind (k : TokenKind) (n : Nat) : Nat :=
  if k.opens then n + 1 else if k.closes then n - 1 else n

/-- The code, which stands at `p` inside of `n` open brackets of its own, is closed by the parenthesis
behind it, with `post` behind that: it consists of whole tokens, its brackets match, no comma stands
outside of them, and between its last token and the parenthesis there are blanks and comments only. -/
inductive Enclosed (post : List Char) : Nat → Position → List Char → Prop
  | close {p q : Position} {code : List Char} :
      skipGap .blank p (code ++ ')' :: post) = .ok (q, ')' :: post) → Enclosed post 0 p code
  | token {n : Nat} {p : Position} {code rest : List Char} {t : Token} :
      scan p (code ++ ')' :: post) = .ok (t, rest ++ ')' :: post) →
      (t.kind.closes = true → 0 < n) → (t.kind = .comma → 0 < n) →
      Enclosed post (t.kind.depthBehind n) t.stop rest → Enclosed post n p code

/-- A check of a code in front of a closing parenthesis, token by token. -/
def encloses (post : List Char) : (fuel n : Nat) → Position → List Char → Bool
  | 0, _, _, _ => false
  | fuel + 1, n, p, code =>
    match scan p (code ++ ')' :: post) with
    | .error _ => false
    | .ok (t, cs) =>
      let rest := cs.take (cs.length - (post.length + 1))
      if cs = rest ++ ')' :: post then
        (0 < n || !t.kind.closes && t.kind != .comma) &&
          encloses post fuel (t.kind.depthBehind n) t.stop rest
      else n == 0 && (skipGap .blank p (code ++ ')' :: post)).toOption.map (·.2) == some (')' :: post)

theorem enclosed_of_encloses {post : List Char} {fuel n : Nat} {p : Position} {code : List Char}
    (h : encloses post fuel n p code = true) : Enclosed post n p code := by
  induction fuel generalizing n p code with
  | zero => contradiction
  | succ fuel ih =>
    rw [encloses] at h
    split at h
    · contradiction
    rename_i t cs hs
    dsimp only at h
    split at h
    · rename_i behind
      simp only [Bool.and_eq_true, Bool.or_eq_true, decide_eq_true_eq, Bool.not_eq_true',
        bne_iff_ne] at h
      obtain ⟨inner, h⟩ := h
      rw [behind] at hs
      -- a token of the code: a closing one only closes what was opened in the code
      exact .token hs (fun hc => inner.resolve_right fun outer => by simp [hc] at outer)
        (fun hc => inner.resolve_right fun outer => outer.2 hc) (ih h)
    · simp only [Bool.and_eq_true, beq_iff_eq] at h
      obtain ⟨rfl, h⟩ := h
      cases hg : skipGap .blank p (code ++ ')' :: post) with
      | error fault =>
        rw [hg] at h
        exact nomatch h
      | ok r =>
        obtain ⟨q, v⟩ := r
        rw [hg] at h
        obtain rfl : v = ')' :: post := Option.some.inj h
        exact .close hg

/-! ### Between tokens -/

/-- The rule of indentation lets a text begin at a position. -/
def MayBegin (p : Position) (cs : List Char) : Prop := 0 < p.column ∧ checkIndentation p cs = .ok ()

theorem MayBegin.of_lt {p : Position} (h : 1 < p.column) (cs : List Char) : MayBegin p cs := by
  refine ⟨by omega, ?_⟩
  rw [checkIndentation, if_pos (by omega)]

theorem MayBegin.step {p : Position} {c : Char} {cs : List Char} (h : MayBegin p (c :: cs)) (hn : c ≠ '\n')
    (ds : List Char) : MayBegin (p.step c) ds := by
  refine .of_lt ?_ ds
  rw [Position.step_of_ne hn]
  exact Nat.succ_lt_succ h.1

theorem MayBegin.after {p : Position} {cs : List Char} (hp : 0 < p.column) (hn : '\n' ∉ cs)
    (hc : cs ≠ []) (ds : List Char) : MayBegin (p.after cs) ds := by
  refine .of_lt ?_ ds
  rw [Position.after_of_not_mem hn]
  have length := List.length_pos_iff.2 hc
  dsimp only
  omega

theorem far {p : Position} {c : Char} (hp : 1 < p.column) (hn : '\n' ≠ c) : 1 < (p.step c).column := by
  rw [Position.step_of_ne hn.symm]
  exact Nat.lt_succ_of_lt hp

theorem farther {p : Position} {cs : List Char} (hp : 1 < p.column) (hn : '\n' ∉ cs) :
    1 < (p.after cs).column := by
  rw [Position.after_of_not_mem hn]
  exact Nat.lt_of_lt_of_le hp (Nat.le_add_right _ _)

/-- Two readers are inside of the same, whatever was opened where. -/
def Gap.Same : Gap → Gap → Prop
  | .blank, .blank | .line, .line | .block _, .block _ => True
  | _, _ => False

namespace Gap.Same

variable {g : Gap}

theorem blank (h : g.Same .blank) : g = .blank := by
  cases g <;> first | rfl | exact h.elim

theorem line (h : g.Same .line) : g = .line := by
  cases g <;> first | rfl | exact h.elim

theorem block {opened : Position} (h : g.Same (.block opened)) : ∃ opened', g = .block opened' := by
  cases g <;> first | exact ⟨_, rfl⟩ | exact h.elim

end Gap.Same

/-- There is no gap in front of a closing parenthesis. -/
theorem skipGap_paren (p : Position) (post : List Char) :
    skipGap .blank p (')' :: post) = .ok (p, ')' :: post) :=
  skipGap_stays (by decide) (by decide) (by simp)

section Gaps

variable {p : Position} {c : Char} {cs : List Char} (hp : 1 < p.column)

include hp

theorem skipGap_blank (hb : Text.isBlank c = true) :
    skipGap .blank p (c :: cs) = skipGap .blank (p.step c) cs := by
  conv => lhs; unfold skipGap
  rw [(MayBegin.of_lt hp _).2]
  simp only [hb, if_true]

theorem skipGap_blockMark (cs : List Char) :
    skipGap .blank p ('\'' :: '\'' :: '\'' :: cs) = skipGap (.block p) (p.after blockMark) cs := by
  rw [skipGap, (MayBegin.of_lt hp _).2]
  rfl

theorem skipGap_lineMark (cs : List Char) :
    skipGap .blank p ('-' :: '-' :: cs) = skipGap .line (p.after lineMark) cs := by
  rw [skipGap, (MayBegin.of_lt hp _).2]
  rfl

theorem skipGap_stands (hb : ¬Text.isBlank c = true)
    (hblock : ∀ ds, c = '\'' → cs ≠ '\'' :: '\'' :: ds) (hline : ∀ ds, c = '-' → cs ≠ '-' :: ds) :
    skipGap .blank p (c :: cs) = .ok (p, c :: cs) := by
  rw [skipGap, (MayBegin.of_lt hp _).2]
  · exact if_neg hb
  · exact hblock
  · exact hline

end Gaps

/-- What is found in front of the parenthesis, and is none, is found in the code. -/
theorem eq_of_append {a : Char} {cs post rest : List Char} (ha : a ≠ ')')
    (h : cs ++ ')' :: post = a :: rest) : ∃ ds, cs = a :: ds ∧ ds ++ ')' :: post = rest := by
  cases cs with
  | nil => exact absurd (List.cons.inj h).1.symm ha
  | cons c cs =>
    obtain ⟨rfl, behind⟩ := List.cons.inj h
    exact ⟨cs, rfl, behind⟩

/-- What separates tokens in place separates them in the code alone, unless it reaches the
parenthesis. -/
theorem skipGap_alone {post : List Char} {g g' : Gap} {p p' q : Position} {code v : List Char}
    (same : g.Same g') (hn : '\n' ∉ code) (hp : 1 < p.column) (hp' : MayBegin p' code)
    (h : skipGap g p (code ++ ')' :: post) = .ok (q, v)) (hv : post.length < v.length) :
    ∃ q' u, v = u ++ ')' :: post ∧ skipGap g' p' code = .ok (q', u) := by
  -- a reader that has not left its comment at the parenthesis passes it
  have lost {g : Gap} {p : Position} (h : skipGap g p post = .ok (q, v)) : False :=
    absurd (length_skipGap_le h) (Nat.not_le.2 hv)
  -- a mark of two quotes or one dash in front of the parenthesis is in the code
  have quotes {cs : List Char} (h : ∀ ds, cs ≠ '\'' :: '\'' :: ds) (ds : List Char) :
      cs ++ ')' :: post ≠ '\'' :: '\'' :: ds := by
    intro heq
    obtain ⟨ds', rfl, behind⟩ := eq_of_append (by decide) heq
    obtain ⟨ds'', rfl, -⟩ := eq_of_append (by decide) behind
    exact h ds'' rfl
  have dash {cs : List Char} (h : ∀ ds, cs ≠ '-' :: ds) (ds : List Char) :
      cs ++ ')' :: post ≠ '-' :: ds := by
    intro heq
    obtain ⟨ds', rfl, -⟩ := eq_of_append (by decide) heq
    exact h ds' rfl
  fun_induction skipGap g' p' code generalizing g p with
  | case1 p' =>
    obtain rfl := same.blank
    rw [List.nil_append, skipGap_paren] at h
    obtain ⟨rfl, rfl⟩ := Prod.mk.inj (Except.ok.inj h)
    exact ⟨p', [], rfl, rfl⟩
  | case2 p' c cs fault hc =>
    have := hp'.2
    rw [hc] at this
    contradiction
  | case3 p' c cs hc hb ih =>
    obtain rfl := same.blank
    obtain ⟨hne, hn⟩ := not_or.1 (mt List.mem_cons.2 hn)
    rw [List.cons_append, skipGap_blank hp hb] at h
    exact ih (g := .blank) trivial hn (far hp hne) (hp'.step (Ne.symm hne) _) h
  | case4 p' cs hc hb ih =>
    obtain rfl := same.blank
    rw [List.cons_append, List.cons_append, List.cons_append, skipGap_blockMark hp] at h
    exact ih (g := .block p) trivial (by simpa using hn) (farther hp (by decide))
      (.after hp'.1 (by decide) (by decide) _) h
  | case5 p' cs hc hb ih =>
    obtain rfl := same.blank
    rw [List.cons_append, List.cons_append, skipGap_lineMark hp] at h
    exact ih (g := .line) trivial (by simpa using hn) (farther hp (by decide))
      (.after hp'.1 (by decide) (by decide) _) h
  | case6 p' c cs hblock hline hb hc =>
    obtain rfl := same.blank
    rw [List.cons_append, skipGap_stands hp hb
      (fun ds hquote => quotes (fun ds heq => hblock ds hquote heq) ds)
      (fun ds hdash => dash (fun ds heq => hline ds hdash heq) ds)] at h
    obtain ⟨rfl, rfl⟩ := Prod.mk.inj (Except.ok.inj h)
    exact ⟨p', c :: cs, rfl, rfl⟩
  | case7 opened p' =>
    obtain ⟨opened, rfl⟩ := same.block
    rw [List.nil_append, skipGap] at h
    · exact (lost h).elim
    · rintro rest h
      contradiction
  | case8 opened p' cs ih =>
    obtain ⟨opened, rfl⟩ := same.block
    rw [List.cons_append, List.cons_append, List.cons_append, skipGap] at h
    exact ih (g := .blank) trivial (by simpa using hn) (farther hp (by decide))
      (.after hp'.1 (by decide) (by decide) _) h
  | case9 opened p' c cs hc ih =>
    obtain ⟨opened, rfl⟩ := same.block
    obtain ⟨hne, hn⟩ := not_or.1 (mt List.mem_cons.2 hn)
    rw [List.cons_append, skipGap] at h
    · exact ih (g := .block opened) trivial hn (far hp hne) (hp'.step (Ne.symm hne) _) h
    · exact fun rest hquote => quotes (fun ds heq => hc ds hquote heq) rest
  | case10 p' =>
    obtain rfl := same.line
    rw [List.nil_append, skipGap] at h
    · exact (lost h).elim
    · rintro h
      contradiction
    · rintro rest h
      contradiction
  | case11 p' cs ih => exact absurd List.mem_cons_self hn
  | case12 p' cs ih =>
    obtain rfl := same.line
    rw [List.cons_append, List.cons_append, skipGap] at h
    exact ih (g := .blank) trivial (by simpa using hn) (farther hp (by decide))
      (.after hp'.1 (by decide) (by decide) _) h
  | case13 p' c cs hc hd ih =>
    obtain rfl := same.line
    obtain ⟨hne, hn⟩ := not_or.1 (mt List.mem_cons.2 hn)
    rw [List.cons_append, skipGap] at h
    · exact ih (g := .line) trivial hn (far hp hne) (hp'.step (Ne.symm hne) _) h
    · exact hc
    · exact fun rest hdash => dash (fun ds heq => hd ds hdash heq) rest

/-! ### Tokens -/

/-- What is read in place up to the parenthesis at most is read of the code alone. -/
structure ReadAlone (post : List Char) (l : Lexeme) (read : Except LexFault Lexeme) : Prop where
  alone : ∃ l', read = .ok l' ∧ l'.kind = l.kind ∧ l'.text = l.text ∧ l.rest = l'.rest ++ ')' :: post

theorem ReadAlone.of_eq {post : List Char} {l l' : Lexeme} (hk : l'.kind = l.kind)
    (ht : l'.text = l.text) (hr : l.rest = l'.rest ++ ')' :: post) : ReadAlone post l (.ok l') :=
  ⟨l', rfl, hk, ht, hr⟩

theorem takeWhile_paren {f : Char → Bool} (hf : f ')' = false) (cs post : List Char) :
    (cs ++ ')' :: post).takeWhile f = cs.takeWhile f := by
  induction cs with
  | nil => simp [hf]
  | cons c cs ih => simp only [List.cons_append, List.takeWhile_cons, ih]

theorem dropWhile_paren {f : Char → Bool} (hf : f ')' = false) (cs post : List Char) :
    (cs ++ ')' :: post).dropWhile f = cs.dropWhile f ++ ')' :: post := by
  induction cs with
  | nil => simp [hf]
  | cons c cs ih =>
    simp only [List.cons_append, List.dropWhile_cons, ih]
    split <;> rfl

/-- A mark without a parenthesis in it stands in front of the parenthesis if it stands in the code. -/
theorem isPrefixOf_paren {mark : List Char} (hm : ')' ∉ mark) (cs post : List Char) :
    mark.isPrefixOf (cs ++ ')' :: post) = mark.isPrefixOf cs := by
  induction mark generalizing cs with
  | nil => simp
  | cons m mark ih =>
    obtain ⟨hne, hm⟩ := not_or.1 (mt List.mem_cons.2 hm)
    cases cs with
    | nil => simp [List.isPrefixOf, Ne.symm hne]
    | cons c cs => simp [List.isPrefixOf, ih hm]

section Lexemes

variable {post : List Char} {l : Lexeme} (hl : post.length < l.rest.length)

include hl

theorem quoted_alone {quote : Char} {opened opened' p p' : Position} {code read : List Char}
    (h : quoted quote opened p (code ++ ')' :: post) read = .ok l) (hq : quote ≠ ')') :
    ReadAlone post l (quoted quote opened' p' code read) := by
  -- a text that is not closed in the code would have taken the parenthesis in
  have lost {p : Position} {read : List Char} (h : quoted quote opened p post read = .ok l) : False :=
    absurd (length_quoted_le h) (Nat.not_le.2 hl)
  fun_induction quoted quote opened' p' code read generalizing p with
  | case1 p' read =>
    rw [List.nil_append, quoted.eq_def] at h
    dsimp only at h
    rw [if_neg hq.symm, if_neg (by decide)] at h
    exact (lost h).elim
  | case2 p' read cs =>
    rw [List.cons_append, quoted.eq_def] at h
    dsimp only at h
    rw [if_pos rfl] at h
    obtain rfl := Except.ok.inj h
    exact .of_eq rfl rfl rfl
  | case3 p' read hc =>
    rw [List.cons_append, quoted.eq_def] at h
    dsimp only at h
    rw [if_neg hc, if_pos rfl] at h
    exact (lost h).elim
  | case4 p' read e cs hc ih =>
    rw [List.cons_append, quoted.eq_def] at h
    dsimp only at h
    rw [if_neg hc, if_pos rfl] at h
    exact ih h
  | case5 p' c cs read hc he ih =>
    rw [List.cons_append, quoted.eq_def] at h
    dsimp only at h
    rw [if_neg hc, if_neg he] at h
    exact ih h

theorem fenced_alone {opened opened' p p' : Position} {code read : List Char}
    (h : fenced opened p (code ++ ')' :: post) read = .ok l) :
    ReadAlone post l (fenced opened' p' code read) := by
  fun_induction fenced opened' p' code read generalizing p with
  | case1 p' read =>
    rw [List.nil_append, fenced, if_neg (by simp [isPrefixOf_fence])] at h
    exact absurd (length_fenced_le h) (Nat.not_le.2 hl)
  | case2 p' c cs read hf =>
    rw [List.cons_append, fenced, ← List.cons_append, isPrefixOf_paren (by decide), if_pos hf] at h
    obtain rfl := Except.ok.inj h
    obtain ⟨behind, hb⟩ := List.isPrefixOf_iff_prefix.1 hf
    obtain rfl : cs = Char.ofNat 96 :: Char.ofNat 96 :: behind := (List.cons.inj hb).2.symm
    exact ⟨_, rfl, rfl, rfl, rfl⟩
  | case3 p' c cs read hf ih =>
    rw [List.cons_append, fenced, ← List.cons_append, isPrefixOf_paren (by decide), if_neg hf] at h
    exact ih h

omit hl in
theorem number_alone {p p' : Position} {code : List Char}
    (h : number p (code ++ ')' :: post) = .ok l) : ReadAlone post l (number p' code) := by
  have integer {whole behind : List Char}
      (h : number.integer p whole (behind ++ ')' :: post) = .ok l) :
      ReadAlone post l (number.integer p' whole behind) := by
    unfold number.integer at h ⊢
    split at h
    · rename_i fits
      obtain rfl := Except.ok.inj h
      rw [if_pos fits]
      exact .of_eq rfl rfl rfl
    · contradiction
  have digit : Char.isDigit ')' = false := by decide
  unfold number at h ⊢
  simp only [takeWhile_paren digit, dropWhile_paren digit] at h
  generalize code.takeWhile Char.isDigit = whole at h ⊢
  generalize code.dropWhile Char.isDigit = behind at h ⊢
  dsimp only
  split
  · rename_i d rest
    simp only [List.cons_append] at h
    by_cases hd : d.isDigit = true
    · rw [if_pos hd] at h ⊢
      obtain rfl := Except.ok.inj h
      refine .of_eq rfl ?_ (dropWhile_paren digit _ _)
      simp only [takeWhile_paren digit]
    · rw [if_neg hd] at h ⊢
      exact integer h
  · rename_i none
    -- a point in front of the parenthesis begins no fraction
    refine integer ?_
    rw [← h]
    split
    · rename_i d rest heq
      obtain ⟨ds, rfl, behind⟩ := eq_of_append (by decide) heq
      cases ds with
      | nil =>
        obtain ⟨rfl, -⟩ := List.cons.inj behind
        rfl
      | cons e ds => exact (none e ds rfl).elim
    · rfl

omit hl in
/-- No symbol of two characters ends with the parenthesis. -/
theorem symbolPair_paren (c : Char) (cs post : List Char) :
    (cs ++ ')' :: post).head?.bind (symbolPair? c) = cs.head?.bind (symbolPair? c) := by
  cases cs with
  | nil =>
    show symbolPair? c ')' = none
    unfold symbolPair?
    split <;> first | rfl | contradiction
  | cons d cs => rfl

omit hl in
theorem symbol_alone {p p' : Position} {c : Char} {cs : List Char}
    (h : symbol p c (cs ++ ')' :: post) = .ok l) : ReadAlone post l (symbol p' c cs) := by
  unfold symbol at h ⊢
  rw [symbolPair_paren] at h
  cases hp : cs.head?.bind (symbolPair? c) with
  | none =>
    rw [hp] at h
    dsimp only at h ⊢
    split at h
    · obtain rfl := Except.ok.inj h
      exact .of_eq rfl rfl rfl
    · contradiction
  | some kind =>
    rw [hp] at h
    obtain rfl := Except.ok.inj h
    cases cs with
    | nil => contradiction
    | cons d cs => exact ⟨_, rfl, rfl, rfl, rfl⟩

theorem lexeme_alone {p p' : Position} {c : Char} {cs : List Char}
    (h : lexeme p c (cs ++ ')' :: post) = .ok l) : ReadAlone post l (lexeme p' c cs) := by
  rw [lexeme, ← List.cons_append, isPrefixOf_paren (by decide)] at h
  rw [lexeme]
  by_cases hf : fence.isPrefixOf (c :: cs) = true
  · obtain ⟨behind, hb⟩ := List.isPrefixOf_iff_prefix.1 hf
    obtain rfl : cs = Char.ofNat 96 :: Char.ofNat 96 :: behind := (List.cons.inj hb).2.symm
    rw [if_pos hf] at h ⊢
    exact fenced_alone hl h
  rw [if_neg hf] at h ⊢
  by_cases hq : c = '"' ∨ c = '\''
  · rw [if_pos hq] at h ⊢
    exact quoted_alone hl h (by rintro rfl; exact absurd hq (by decide))
  rw [if_neg hq] at h ⊢
  by_cases hd : c.isDigit = true
  · rw [if_pos hd] at h ⊢
    exact number_alone h
  rw [if_neg hd] at h ⊢
  by_cases hs : Text.isIdentStart c = true
  · rw [if_pos hs] at h ⊢
    obtain rfl := Except.ok.inj h
    -- a word ends at the parenthesis as it does at the end
    have letter : Text.isIdentPart ')' = false := by decide
    refine .of_eq ?_ ?_ (dropWhile_paren letter _ _)
    · simp only [word, takeWhile_paren letter]
    · simp only [word, takeWhile_paren letter]
  · rw [if_neg hs] at h ⊢
    exact symbol_alone h

end Lexemes

/-! ### Side by side -/

/-- A token of the code in place, with the text behind it, and beside it the token of the code alone: they
are the same, inside of `n` brackets opened in the code.  Or the code is over: in place its parenthesis
is reached, and alone the end of the text. -/
inductive Beside (post : List Char) : Nat → Token → List Char → Token → List Char → Prop
  | within {n : Nat} {t t' : Token} {rest : List Char} : t'.kind = t.kind → t'.text = t.text →
      t.kind ≠ .eof → (t.kind.closes = true → 0 < n) → (t.kind = .comma → 0 < n) → '\n' ∉ rest →
      1 < t.stop.column → 1 < t'.stop.column → Enclosed post (t.kind.depthBehind n) t.stop rest →
      Beside post n t (rest ++ ')' :: post) t' rest
  | behind {t t' : Token} {cs cs' : List Char} : t.kind = .rparen → t'.kind = .eof →
      Beside post 0 t cs t' cs'

theorem line_after {p : Position} {cs : List Char} (hn : '\n' ∉ cs) : (p.after cs).line = p.line := by
  rw [Position.after_of_not_mem hn]

/-- A token that is read within a line stands on that line, and ends behind the place it is read from. -/
theorem within_line {p : Position} {code rest behind : List Char} {t : Token}
    (h : scan p (code ++ behind) = .ok (t, rest ++ behind)) (ht : t.kind ≠ .eof) (hn : '\n' ∉ code) :
    t.line = p.line ∧ p.column < t.stop.column ∧ '\n' ∉ rest := by
  obtain ⟨ds, ⟨gap, htext, hstart⟩, ⟨taken, hds, hstop⟩, -⟩ := takes_scan h
  have parts : code = gap ++ taken ++ rest := by
    rw [hds, ← List.append_assoc, ← List.append_assoc] at htext
    exact List.append_cancel_right htext
  subst parts
  simp only [List.mem_append, not_or] at hn
  have shorter := length_scan_lt h ht
  simp only [List.length_append] at shorter
  rw [Token.line, hstop, hstart, line_after hn.1.1, Position.after_of_not_mem hn.1.2,
    Position.after_of_not_mem hn.1.1]
  exact ⟨rfl, by dsimp only; omega, hn.2⟩

theorem lexeme_paren (p : Position) (post : List Char) :
    lexeme p ')' post = .ok ⟨.rparen, ")", p.step ')', post⟩ := by
  have single : post.head?.bind (symbolPair? ')') = none := by
    cases post with
    | nil => rfl
    | cons c post => rfl
  rw [lexeme_of_marks (by decide), symbol, single]
  rfl

/-- Where the code begins, its first tokens stand side by side, on the lines they are read from. -/
theorem beside_of_enclosed {post : List Char} {n : Nat} {p p' : Position} {code : List Char}
    (h : Enclosed post n p code) (hn : '\n' ∉ code) (hp : 1 < p.column) (hp' : MayBegin p' code) :
    ∃ t cs t' cs', scan p (code ++ ')' :: post) = .ok (t, cs) ∧ scan p' code = .ok (t', cs') ∧
      t.line = p.line ∧ t'.line = p'.line ∧ Beside post n t cs t' cs' := by
  have blank : Gap.Same .blank .blank := trivial
  cases h with
  | @close _ q _ h =>
    obtain ⟨q', u, hu, alone⟩ := skipGap_alone blank hn hp hp' h (by simp)
    obtain rfl : u = [] := (List.append_cancel_right (show [] ++ ')' :: post = u ++ ')' :: post from hu)).symm
    obtain ⟨gap, hgap, rfl⟩ := takes_skipGap h
    obtain ⟨gap', hgap', rfl⟩ := takes_skipGap alone
    -- all of the code was passed over, up to the parenthesis in one text and to the end in the
    -- other
    obtain rfl : code = gap := List.append_cancel_right hgap
    obtain rfl : code = gap' := by rw [hgap', List.append_nil]
    have paren : scan p (code ++ ')' :: post) =
        .ok (⟨.rparen, ")", p.after code, (p.after code).step ')'⟩, post) := by
      simp only [scan, bind, Except.bind, h, lexeme_paren]
      rfl
    have ended : scan p' code = .ok (⟨.eof, "", p'.after code, p'.after code⟩, []) := by
      simp only [scan, bind, Except.bind, alone]
      rfl
    exact ⟨_, _, _, _, paren, ended, line_after hn, line_after hn, .behind rfl rfl⟩
  | @token _ _ _ rest t hs hcloses hcomma he =>
    have read := hs
    simp only [scan, bind, Except.bind, pure, Except.pure] at read
    split at read
    · contradiction
    rename_i r hr
    obtain ⟨q, v⟩ := r
    split at read
    · rename_i heq
      obtain ⟨rfl, rfl⟩ := Prod.mk.inj heq
      obtain ⟨-, none⟩ := Prod.mk.inj (Except.ok.inj read)
      simp at none
    rename_i q c cs heq
    obtain ⟨rfl, rfl⟩ := Prod.mk.inj heq
    split at read
    · contradiction
    rename_i l hl
    obtain ⟨rfl, hrest⟩ := Prod.mk.inj (Except.ok.inj read)
    -- the token was read within the code, since the parenthesis is still to come
    have long : post.length < l.rest.length := by
      rw [hrest, List.length_append, List.length_cons]
      omega
    have longer := length_lexeme_le hl
    obtain ⟨q', u, hu, alone⟩ := skipGap_alone blank hn hp hp' hr
      (by simp only [List.length_cons]; omega)
    cases u with
    | nil =>
      obtain ⟨-, rfl⟩ := List.cons.inj hu
      omega
    | cons d us =>
      obtain ⟨rfl, rfl⟩ := List.cons.inj hu
      have read : ReadAlone post l (lexeme q' c us) := lexeme_alone long hl
      obtain ⟨l', lexeme', hkind, htext, hrest'⟩ := read
      obtain rfl : rest = l'.rest := List.append_cancel_right (hrest.symm.trans hrest')
      have scan' : scan p' (code ++ []) = .ok (⟨l'.kind, l'.text, q', l'.stop⟩, l'.rest ++ []) := by
        simp only [List.append_nil, scan, bind, Except.bind, alone, lexeme']
        rfl
      have token := kind_lexeme hl
      obtain ⟨hline, hcolumn, hrest⟩ := within_line hs token hn
      obtain ⟨hline', hcolumn', -⟩ := within_line scan' (kind_lexeme lexeme') hn
      rw [List.append_nil, List.append_nil] at scan'
      have := hp'.1
      exact ⟨_, _, _, _, hs, scan', hline, hline',
        .within hkind htext token hcloses hcomma hrest (by omega) (by omega) he⟩

/-- Tokens that stand side by side go on side by side. -/
theorem Beside.step {post : List Char} {n : Nat} {t t' : Token} {cs cs' : List Char}
    (h : Beside post n t cs t' cs') (ht : t'.kind ≠ .eof) :
    ∃ u ds u' ds', scan t.stop cs = .ok (u, ds) ∧ scan t'.stop cs' = .ok (u', ds') ∧
      u.line = t.stop.line ∧ u'.line = t'.stop.line ∧
      Beside post (t.kind.depthBehind n) u ds u' ds' := by
  cases h with
  | within _ _ _ _ _ hn hc hc' he => exact beside_of_enclosed he hn hc (.of_lt hc' _)
  | behind _ he => exact absurd he ht

namespace Beside

variable {post : List Char} {n : Nat} {t t' : Token} {cs cs' : List Char}

/-- Nobody can tell the tokens apart by their kind before the code is over. -/
theorem kind (h : Beside post n t cs t' cs') :
    t'.kind = t.kind ∧ t.kind ≠ .eof ∨ n = 0 ∧ t.kind = .rparen ∧ t'.kind = .eof := by
  cases h with
  | within hk _ hn => exact .inl ⟨hk, hn⟩
  | behind hk hk' => exact .inr ⟨rfl, hk, hk'⟩

theorem text (h : Beside post n t cs t' cs') (hk : t'.kind ≠ .eof) : t'.text = t.text := by
  cases h with
  | within _ ht => exact ht
  | behind _ he => exact absurd he hk

/-- Outside of all brackets of the code, the closing parenthesis is the one behind the code. -/
theorem eof (h : Beside post 0 t cs t' cs') (hk : t.kind = .rparen) : t'.kind = .eof := by
  cases h with
  | within _ _ _ hcloses => exact absurd (hcloses (by rw [hk]; rfl)) (Nat.lt_irrefl 0)
  | behind _ he => exact he

theorem not_comma (h : Beside post 0 t cs t' cs') : t.kind ≠ .comma := by
  intro hk
  cases h with
  | within _ _ _ _ hcomma => exact absurd (hcomma hk) (Nat.lt_irrefl 0)
  | behind hr => exact nomatch hr.symm.trans hk

end Beside

/-! ### Cursors -/

/-- A code in parentheses, in the source `whole` with `post` behind the parenthesis, and the same code
on its own. -/
structure Excerpt where
  whole : Source
  alone : Source
  post : List Char

/-- A cursor in the code in parentheses, and beside it one in the code alone; inside of `n` brackets opened
in the code. -/
structure Abreast (e : Excerpt) (n : Nat) (c c' : Cursor) : Prop where
  source : c.source = e.whole
  source' : c'.source = e.alone
  sound : c.Sound
  sound' : c'.Sound
  beside : Beside e.post n c.current c.behind c'.current c'.behind

namespace Abreast

variable {e : Excerpt} {n : Nat} {c c' : Cursor}

theorem kind (h : Abreast e n c c') :
    c'.kind = c.kind ∧ c.kind ≠ .eof ∨ n = 0 ∧ c.kind = .rparen ∧ c'.kind = .eof := h.beside.kind

/-- Inside of a bracket the code is not over. -/
theorem kind_inside (h : Abreast e (n + 1) c c') : c'.kind = c.kind :=
  h.kind.elim And.left fun ended => absurd ended.1 (Nat.succ_ne_zero n)

/-- The token is the same as long as the code is not over. -/
theorem text (h : Abreast e n c c') (hk : c'.kind ≠ .eof) : c'.current.text = c.current.text :=
  h.beside.text hk

/-- Both cursors move on, unless the code is over, and stay on the line. -/
theorem bump (h : Abreast e n c c') (hk : c'.kind ≠ .eof) :
    ∃ d d', c.bump = .ok d ∧ c'.bump = .ok d' ∧ d.current.line = c.current.stop.line ∧
      d'.current.line = c'.current.stop.line ∧ Abreast e (c.kind.depthBehind n) d d' := by
  obtain ⟨u, ds, u', ds', hu, hu', line, line', beside⟩ := h.beside.step hk
  have moved : c.bump = .ok ⟨c.source, u, ds, c.current.stop.line⟩ := by rw [Cursor.bump, hu]
  have moved' : c'.bump = .ok ⟨c'.source, u', ds', c'.current.stop.line⟩ := by rw [Cursor.bump, hu']
  exact ⟨_, _, moved, moved', line, line', h.source, h.source', (Cursor.sound_bump h.sound moved).1,
    (Cursor.sound_bump h.sound' moved').1, beside⟩

/-- From anywhere in their sources, both cursors come back to where they were side by side. -/
theorem rewind {d d' : Cursor} (h : Abreast e n c c') (hd : d.source = e.whole)
    (hd' : d'.source = e.alone) :
    ∃ b b', d.rewind c.capture = .ok b ∧ d'.rewind c'.capture = .ok b' ∧ Abreast e n b b' := by
  have holds : d.source.Holds c.current c.behind := by
    rw [hd, ← h.source]
    exact h.sound
  have holds' : d'.source.Holds c'.current c'.behind := by
    rw [hd', ← h.source']
    exact h.sound'
  exact ⟨_, _, Cursor.rewind_eq holds, Cursor.rewind_eq holds', hd, hd', holds, holds', h.beside⟩

/-- A token that ends the search says what has been found. -/
theorem conditionalFrom_of_passed {depth : Nat} {t : Token} (hp : t.kind.passed depth = none)
    (behind : List Char) :
    Cursor.conditionalFrom depth t behind = .ok (decide (t.kind = .kwIf)) := by
  have apart : ∀ k : TokenKind, Cursor.endsExpression k = true → k.closes = false := by
    intro k
    cases k <;> decide
  unfold TokenKind.passed at hp
  split at hp
  · rename_i ends
    unfold Cursor.conditionalFrom
    obtain he | ⟨rfl, hc | hi | he⟩ := ends
    · rw [if_pos he, he]
      rfl
    · -- what closes a bracket or ends an expression is no `if`
      have hn : t.kind ≠ .kwIf := by
        intro hi
        rw [hi] at hc
        contradiction
      rw [if_neg (by intro he; rw [he] at hc; contradiction), if_pos ⟨rfl, hc⟩, decide_eq_false hn]
    · rw [hi]
      rfl
    · have hn : t.kind ≠ .kwIf := by
        intro hi
        rw [hi] at he
        contradiction
      rw [if_neg (by intro hk; rw [hk] at he; contradiction),
        if_neg (fun h => absurd h.2 (Bool.eq_false_iff.1 (apart _ he))), if_neg (fun h => hn h.2),
        if_pos ⟨rfl, he⟩, decide_eq_false hn]
  · contradiction

/-- A search that goes on counts the brackets it is inside of. -/
theorem depthBehind_of_passed {depth depth' : Nat} {k : TokenKind} (hp : k.passed depth = some depth') :
    k.depthBehind (n + depth) = n + depth' := by
  unfold TokenKind.passed at hp
  split at hp
  · contradiction
  · rename_i goes
    obtain rfl := Option.some.inj hp
    have inside (hc : k.closes = true) : depth ≠ 0 := fun hd => goes (.inr ⟨hd, .inl hc⟩)
    unfold TokenKind.depthBehind
    by_cases ho : k.opens = true
    · rw [if_pos ho, if_pos ho, Nat.add_assoc]
    · by_cases hc : k.closes = true
      · have := inside hc
        rw [if_neg ho, if_neg ho, if_pos hc, if_pos hc]
        omega
      · rw [if_neg ho, if_neg ho, if_neg hc, if_neg hc]

/-- The search for a conditional is over at the end of the code. -/
theorem conditionalFrom_over {depth : Nat} (hd : n + depth = 0) (paren : c.kind = .rparen)
    (ended : c'.kind = .eof) : Cursor.conditionalFrom depth c.current c.behind = .ok false ∧
      Cursor.conditionalFrom depth c'.current c'.behind = .ok false := by
  obtain rfl : depth = 0 := by omega
  rw [conditionalFrom_of_passed (t := c.current), conditionalFrom_of_passed (t := c'.current)]
  · rw [show c.current.kind = .rparen from paren, show c'.current.kind = .eof from ended]
    exact ⟨rfl, rfl⟩
  · rw [show c'.current.kind = .eof from ended]
    rfl
  · rw [show c.current.kind = .rparen from paren]
    rfl

/-- A conditional expression is recognised in place as it is alone. -/
theorem conditionalFrom {depth : Nat} {b : Bool} (h : Abreast e (n + depth) c c')
    (hb : Cursor.conditionalFrom depth c.current c.behind = .ok b) :
    Cursor.conditionalFrom depth c'.current c'.behind = .ok b := by
  -- on the characters that are left to the reader of the code alone
  induction hl : c'.behind.length using Nat.strong_induction_on generalizing c c' depth with
  | _ length ih =>
    obtain ⟨same, token⟩ | ⟨deep, paren, ended⟩ := h.kind
    · cases hp : c.current.kind.passed depth with
      | none =>
        have hp' : c'.current.kind.passed depth = none := by
          rw [show c'.current.kind = _ from same]
          exact hp
        rw [conditionalFrom_of_passed hp] at hb
        rw [conditionalFrom_of_passed hp', show c'.current.kind = _ from same]
        exact hb
      | some depth' =>
        have hp' : c'.current.kind.passed depth = some depth' := by
          rw [show c'.current.kind = _ from same]
          exact hp
        obtain ⟨d, d', hd, hd', line, line', beside⟩ := h.bump (same ▸ token)
        rw [Cursor.conditionalFrom_bump hd hp, line, if_neg (by omega)] at hb
        rw [Cursor.conditionalFrom_bump hd' hp', line', if_neg (by omega)]
        rw [show c.kind.depthBehind (n + depth) = n + depth' from depthBehind_of_passed hp] at beside
        -- where the code alone is at its end, the other text is at the parenthesis
        by_cases ended : d'.kind = .eof
        · obtain ⟨same, token⟩ | ⟨deep, paren, -⟩ := beside.kind
          · exact absurd (same.symm.trans ended) token
          · obtain ⟨none, none'⟩ := conditionalFrom_over deep paren ended
            rw [none']
            rw [none] at hb
            exact hb
        · exact ih _ (hl ▸ Cursor.length_behind_bump_lt hd' ended) beside hb rfl
    · obtain ⟨none, none'⟩ := conditionalFrom_over deep paren ended
      rw [none']
      rw [none] at hb
      exact hb

theorem conditionalAhead {b : Bool} (h : Abreast e n c c') (hb : c.conditionalAhead = .ok b) :
    c'.conditionalAhead = .ok b := conditionalFrom h hb

end Abreast

end Rewind
