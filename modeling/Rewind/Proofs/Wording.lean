/-
Words on a line.

A line of a program is printed as words with one blank between two of them.  A word is a keyword, a
symbol, an identifier or a literal, and carries what makes it one.  Reading the line gives back the
tokens the words stand for, each where its word begins, so a cursor on the first of them moves over
the others to whatever stands behind the line.

* `Word`, `Word.chars` — words and what they are written with;
* `Apart` — a text that prolongs no word it stands behind;
* `scan_word` — a word that nothing prolongs is read as its token;
* `line`, `row` — words with a blank between them, and their tokens;
* `Cursor.Crosses`, `crosses_row` — a cursor on a line moves over the tokens of its words.
-/
import Rewind.Proofs.Rescan
import Rewind.Template

namespace Rewind

/-! ### Words -/

/-- Decimal digits, at least one. -/
structure Digits where
  chars : List Char
  nonempty : chars ≠ []
  digit : ∀ d ∈ chars, d.isDigit = true

/-- The letters of a name that is no keyword. -/
structure Identifier where
  first : Char
  others : List Char
  starts : Text.isIdentStart first = true
  goesOn : ∀ c ∈ others, Text.isIdentPart c = true
  free : TokenKind.keyword? (String.ofList (first :: others)) = none

def Identifier.text (x : Identifier) : String := String.ofList (x.first :: x.others)

namespace TokenKind

/-- The symbols. -/
def symbols : List TokenKind :=
  [assign, eq, neq, lt, gt, lte, gte, question, colon, lparen, rparen, lbracket, rbracket, lbrace,
    rbrace, comma, dot, plus, minus, star, slash, percent, caret]

end TokenKind

/-- What a line is made of.  An integer is one that a program can hold. -/
inductive Word where
  | keyword (k : TokenKind) (h : k ∈ TokenKind.keywords)
  | symbol (k : TokenKind) (h : k ∈ TokenKind.symbols)
  | name (x : Identifier)
  | int (ds : Digits) (h : natOfDigits ds.chars ≤ maxInt)
  | float (whole fraction : Digits)
  | text (cs : List Char)

/-- How a character is written between double quotes. -/
def escape (c : Char) : List Char :=
  if c = '\n' then ['\\', 'n']
  else if c = '\t' then ['\\', 't']
  else if c = '\\' then ['\\', '\\']
  else if c = '"' then ['\\', '"']
  else [c]

namespace Word

def kind : Word → TokenKind
  | keyword k _ | symbol k _ => k
  | name _ => .ident
  | int .. => .int
  | float .. => .float
  | text _ => .str

/-- The characters of the word. -/
def chars : Word → List Char
  | keyword k _ | symbol k _ => k.spelling.toList
  | name x => x.first :: x.others
  | int ds _ => ds.chars
  | float whole fraction => whole.chars ++ '.' :: fraction.chars
  | text cs => '"' :: cs.flatMap escape ++ ['"']

/-- The text of the token the word is read as: a string goes without quotes and escapes. -/
def spelling : Word → String
  | keyword k _ | symbol k _ => k.spelling
  | text cs => String.ofList cs
  | w => String.ofList w.chars

/-- The token of a word that stands at `p`. -/
def token (w : Word) (p : Position) : Token := ⟨w.kind, w.spelling, p, p.after w.chars⟩

end Word

/-- A text that prolongs no word it stands behind. -/
def Apart (behind : List Char) : Prop :=
  ∀ c ∈ behind.head?, Text.isIdentPart c = false ∧ c ≠ '.' ∧ c ≠ '-' ∧ c ≠ '='

/-! ### Classes of characters -/

namespace Text

theorem toNat_of_isDigit {c : Char} (h : c.isDigit = true) : 48 ≤ c.toNat ∧ c.toNat ≤ 57 := by
  simp only [Char.isDigit, Bool.and_eq_true, decide_eq_true_eq, UInt32.le_iff_toNat_le] at h
  exact h

theorem isIdentPart_of_isDigit {c : Char} (h : c.isDigit = true) : isIdentPart c = true := by
  have hc : c.toNat < 0x80 := by
    have := (toNat_of_isDigit h).2
    omega
  simp [isIdentPart, isNumeric, hc, h]

/-- The characters from one code point to another have a property if each of them has it. -/
theorem of_between {p : Char → Bool} {lo hi : Nat}
    (h : (List.range (hi + 1 - lo)).all (fun i => p (Char.ofNat (lo + i))) = true) {c : Char}
    (hl : lo ≤ c.toNat) (hh : c.toNat ≤ hi) : p c = true := by
  have hi : c.toNat - lo ∈ List.range (hi + 1 - lo) := List.mem_range.2 (by omega)
  have := List.all_eq_true.1 h _ hi
  rwa [Nat.add_sub_cancel' hl, Char.ofNat_toNat] at this

theorem isIdentStart_of_isDigit {c : Char} (h : c.isDigit = true) : isIdentStart c = false := by
  have hc := toNat_of_isDigit h
  have := of_between (p := fun c => !isIdentStart c) (by decide) hc.1 hc.2
  simpa using this

/-- A blank stands in no identifier. -/
theorem isIdentPart_of_isBlank {c : Char} (h : isBlank c = true) : isIdentPart c = false := by
  have hr : blankRanges.all (fun r =>
      (List.range (r.2 + 1 - r.1)).all fun i => !isIdentPart (Char.ofNat (r.1 + i))) = true := by
    decide +kernel
  obtain ⟨⟨lo, hi⟩, hm, hc⟩ := List.any_eq_true.1 h
  simp only [Bool.and_eq_true, decide_eq_true_eq] at hc
  have := of_between (p := fun c => !isIdentPart c) (List.all_eq_true.1 hr _ hm) hc.1 hc.2
  simpa using this

end Text

/-! ### Reading a word -/

theorem apart_nil : Apart [] := nofun

theorem apart_blank (cs : List Char) : Apart (' ' :: cs) := by
  rintro c hc
  obtain rfl := Option.some.inj hc
  decide

/-- A run of characters of a class ends where a character outside of the class stands. -/
theorem takeWhile_run {p : Char → Bool} {cs ds : List Char} (hc : ∀ c ∈ cs, p c = true)
    (hd : ∀ d ∈ ds.head?, p d = false) : (cs ++ ds).takeWhile p = cs := by
  rw [List.takeWhile_append_of_pos hc]
  cases ds with
  | nil => simp
  | cons d ds => simp [hd d rfl]

theorem dropWhile_run {p : Char → Bool} {cs ds : List Char} (hc : ∀ c ∈ cs, p c = true)
    (hd : ∀ d ∈ ds.head?, p d = false) : (cs ++ ds).dropWhile p = ds := by
  rw [List.dropWhile_append_of_pos hc]
  cases ds with
  | nil => rfl
  | cons d ds => simp [hd d rfl]

variable {p : Position} {behind : List Char}

theorem Apart.isIdentPart (h : Apart behind) : ∀ c ∈ behind.head?, Text.isIdentPart c = false :=
  fun c hc => (h c hc).1

theorem Apart.isDigit (h : Apart behind) : ∀ c ∈ behind.head?, c.isDigit = false := by
  intro c hc
  refine Bool.eq_false_iff.2 fun hd => ?_
  have := (h c hc).1
  rw [Text.isIdentPart_of_isDigit hd] at this
  contradiction

theorem word_run {cs : List Char} (hc : ∀ c ∈ cs, Text.isIdentPart c = true) (hb : Apart behind) :
    word p (cs ++ behind) =
      ⟨(TokenKind.keyword? (String.ofList cs)).getD .ident, String.ofList cs, p.after cs, behind⟩ := by
  simp only [word, takeWhile_run hc hb.isIdentPart, dropWhile_run hc hb.isIdentPart]

theorem number_int {ds : Digits} (hf : natOfDigits ds.chars ≤ maxInt) (hb : Apart behind) :
    number p (ds.chars ++ behind) =
      .ok ⟨.int, String.ofList ds.chars, p.after ds.chars, behind⟩ := by
  simp only [number, takeWhile_run ds.digit hb.isDigit, dropWhile_run ds.digit hb.isDigit]
  have hi : number.integer p ds.chars behind =
      .ok ⟨.int, String.ofList ds.chars, p.after ds.chars, behind⟩ := by
    simp only [number.integer, if_pos hf]
  split
  · exact absurd rfl (hb _ rfl).2.1
  · exact hi

theorem number_float (whole fraction : Digits) (hb : Apart behind) :
    number p (whole.chars ++ '.' :: (fraction.chars ++ behind)) =
      .ok ⟨.float, String.ofList (whole.chars ++ '.' :: fraction.chars),
        p.after (whole.chars ++ '.' :: fraction.chars), behind⟩ := by
  have hp : ∀ c ∈ ('.' :: (fraction.chars ++ behind)).head?, c.isDigit = false := by
    rintro c hc
    obtain rfl := Option.some.inj hc
    rfl
  obtain ⟨d, ds, hd⟩ := List.exists_cons_of_ne_nil fraction.nonempty
  have hds : ∀ c ∈ ds, c.isDigit = true := fun c hc => fraction.digit c (by simp [hd, hc])
  simp only [number, takeWhile_run whole.digit hp, dropWhile_run whole.digit hp]
  simp only [hd, List.cons_append, fraction.digit d (by simp [hd]), if_true,
    takeWhile_run hds hb.isDigit, dropWhile_run hds hb.isDigit]

/-- The characters symbols begin with: no blank, no quote, and none that another token begins with. -/
def marks (c : Char) : Bool :=
  !Text.isBlank c && c != '"' && c != '\'' && c != Char.ofNat 96 && !c.isDigit && !Text.isIdentStart c

/-- Every symbol is read back from its one or two characters. -/
theorem symbol_spelling {k : TokenKind} (hk : k ∈ TokenKind.symbols) :
    (∃ c, k.spelling.toList = [c] ∧ symbolChar? c = some k ∧ marks c = true) ∨
      ∃ c, k.spelling.toList = [c, '='] ∧ symbolPair? c '=' = some k ∧ marks c = true := by
  have hall : TokenKind.symbols.all (fun k =>
      let c := k.spelling.toList.headD ' '
      marks c && (k.spelling.toList == [c] && symbolChar? c == some k ||
        k.spelling.toList == [c, '='] && symbolPair? c '=' == some k)) = true := by decide +kernel
  have := List.all_eq_true.1 hall k hk
  simp only [Bool.and_eq_true, Bool.or_eq_true, beq_iff_eq] at this
  obtain ⟨hm, ⟨hs, hc⟩ | ⟨hs, hc⟩⟩ := this
  · exact .inl ⟨_, hs, hc, hm⟩
  · exact .inr ⟨_, hs, hc, hm⟩

theorem symbolPair_of_ne {c d : Char} (h : d ≠ '=') : symbolPair? c d = none := by
  unfold symbolPair?
  split
  all_goals first | rfl | exact absurd rfl h

theorem symbol_run {k : TokenKind} (hk : k ∈ TokenKind.symbols) (hb : Apart behind) :
    ∃ c cs, k.spelling.toList = c :: cs ∧ marks c = true ∧ (∀ d ∈ (cs ++ behind).head?, d ≠ '-') ∧
      symbol p c (cs ++ behind) = .ok ⟨k, k.spelling, p.after (c :: cs), behind⟩ := by
  obtain ⟨c, hs, hc, hm⟩ | ⟨c, hs, hc, hm⟩ := symbol_spelling hk
  · refine ⟨c, [], hs, hm, fun d hd => (hb d hd).2.2.1, ?_⟩
    have hn : behind.head?.bind (symbolPair? c) = none := by
      cases behind with
      | nil => rfl
      | cons d ds => exact symbolPair_of_ne (hb d rfl).2.2.2
    simp only [List.nil_append, symbol, hn, hc, Position.after_cons, Position.after_nil]
  · refine ⟨c, ['='], hs, hm, ?_, by simp [symbol, hc]⟩
    rintro d hd
    obtain rfl := Option.some.inj hd
    decide

theorem quoted_run {opened : Position} (cs read : List Char) :
    quoted '"' opened p (cs.flatMap escape ++ '"' :: behind) read =
      .ok ⟨.str, String.ofList (read.reverse ++ cs), p.after (cs.flatMap escape ++ ['"']), behind⟩ := by
  induction cs generalizing p read with
  | nil =>
    unfold quoted
    simp
  | cons c cs ih =>
    -- two characters stand for one of these four, which the scanner puts back
    have escaped {e : Char} (he : escape c = ['\\', e]) (hu : unescape '"' e = [c]) :
        quoted '"' opened p ((c :: cs).flatMap escape ++ '"' :: behind) read =
          .ok ⟨.str, String.ofList (read.reverse ++ c :: cs),
            p.after ((c :: cs).flatMap escape ++ ['"']), behind⟩ := by
      rw [List.flatMap_cons, he]
      unfold quoted
      simp [hu, ih]
    by_cases hn : c = '\n'
    · exact escaped (e := 'n') (by simp [escape, hn]) (by simp [unescape, hn])
    by_cases ht : c = '\t'
    · exact escaped (e := 't') (by simp [escape, ht]) (by simp [unescape, ht])
    by_cases hb : c = '\\'
    · exact escaped (e := '\\') (by simp [escape, hb]) (by simp [unescape, hb])
    by_cases hq : c = '"'
    · exact escaped (e := '"') (by simp [escape, hq]) (by simp [unescape, hq])
    have he : escape c = [c] := by simp [escape, hn, ht, hb, hq]
    rw [List.flatMap_cons, he]
    unfold quoted
    simp [hq, hb, ih]

/-- Every keyword is spelled like an identifier. -/
theorem keyword_spelling {k : TokenKind} (hk : k ∈ TokenKind.keywords) :
    TokenKind.keyword? k.spelling = some k ∧
      ∃ c cs, k.spelling.toList = c :: cs ∧ Text.isIdentStart c = true ∧
        ∀ d ∈ c :: cs, Text.isIdentPart d = true := by
  have hall : TokenKind.keywords.all (fun k =>
      match k.spelling.toList with
      | c :: cs =>
        TokenKind.keyword? k.spelling == some k && Text.isIdentStart c &&
          (c :: cs).all Text.isIdentPart
      | [] => false) = true := by decide +kernel
  have := List.all_eq_true.1 hall k hk
  split at this
  · rename_i c cs hs
    simp only [Bool.and_eq_true] at this
    exact ⟨eq_of_beq this.1.1, c, cs, hs, this.1.2, List.all_eq_true.1 this.2⟩
  · contradiction

/-- The token that begins with a character that may begin an identifier is a word of letters. -/
theorem lexeme_of_isIdentStart {c : Char} {cs : List Char} (h : Text.isIdentStart c = true) :
    lexeme p c cs = .ok (word p (c :: cs)) := by
  have hne {d : Char} (hd : Text.isIdentStart d = false) : c ≠ d := by
    rintro rfl
    rw [h] at hd
    contradiction
  have hf : fence.isPrefixOf (c :: cs) = false := by
    have : (Char.ofNat 96 == c) = false := beq_false_of_ne (hne (by decide)).symm
    simp [fence, List.replicate, List.isPrefixOf, this]
  have hq : ¬(c = '"' ∨ c = '\'') := not_or.2 ⟨hne (by decide), hne (by decide)⟩
  have hd : c.isDigit = false := by
    refine Bool.eq_false_iff.2 fun hd => ?_
    rw [Text.isIdentStart_of_isDigit hd] at h
    contradiction
  simp only [lexeme, hf, hd, h, if_neg hq, if_true, Bool.false_eq_true, if_false]

theorem checkIndentation_of_not_isBlank {c : Char} {cs : List Char} (h : Text.isBlank c = false) :
    checkIndentation p (c :: cs) = .ok () := by
  have hne {d : Char} (hd : Text.isBlank d = true) : c ≠ d := by
    rintro rfl
    rw [h] at hd
    contradiction
  have hs : (c == ' ') = false := beq_false_of_ne (hne (by decide))
  unfold checkIndentation
  split
  · rfl
  simp only [List.takeWhile_cons, List.dropWhile_cons, hs, Bool.false_eq_true, if_false]
  split
  · rfl
  · rfl
  · rfl
  · exact absurd (List.cons.inj ‹_›).1 (hne (by decide))
  · rfl

/-- A reader that stands before neither a blank nor a comment has no gap to pass. -/
theorem skipGap_stays {c : Char} {cs : List Char} (hb : Text.isBlank c = false) (hq : c ≠ '\'')
    (hm : c = '-' → ∀ d ∈ cs.head?, d ≠ '-') : skipGap .blank p (c :: cs) = .ok (p, c :: cs) := by
  unfold skipGap
  rw [checkIndentation_of_not_isBlank hb]
  simp only [hb, Bool.false_eq_true, if_false]
  split
  · exact absurd rfl hq
  · exact absurd rfl (hm rfl _ rfl)
  · rfl

/-- The characters no fence begins with. -/
theorem isPrefixOf_fence {c : Char} {cs : List Char} (h : c ≠ Char.ofNat 96) :
    fence.isPrefixOf (c :: cs) = false := by
  have : (Char.ofNat 96 == c) = false := beq_false_of_ne h.symm
  simp [fence, List.replicate, List.isPrefixOf, this]

theorem lexeme_of_marks {c : Char} {cs : List Char} (h : marks c = true) :
    lexeme p c cs = symbol p c cs := by
  simp only [marks, Bool.and_eq_true, Bool.not_eq_true', bne_iff_ne, ne_eq] at h
  simp [lexeme, isPrefixOf_fence h.1.1.2, h]

theorem lexeme_of_isDigit {c : Char} {cs : List Char} (h : c.isDigit = true) :
    lexeme p c cs = number p (c :: cs) := by
  have hc := Text.toNat_of_isDigit h
  have hne {d : Char} (hd : d.toNat < 48 ∨ 57 < d.toNat) : c ≠ d := by
    rintro rfl
    omega
  have hq : ¬(c = '"' ∨ c = '\'') := not_or.2 ⟨hne (by decide), hne (by decide)⟩
  simp only [lexeme, isPrefixOf_fence (hne (by decide)), if_neg hq, h, if_true, Bool.false_eq_true,
    if_false]

theorem scan_of_lexeme {c : Char} {cs : List Char} {l : Lexeme} (hb : Text.isBlank c = false)
    (hq : c ≠ '\'') (hm : c = '-' → ∀ d ∈ cs.head?, d ≠ '-') (hl : lexeme p c cs = .ok l) :
    scan p (c :: cs) = .ok (⟨l.kind, l.text, p, l.stop⟩, l.rest) := by
  simp only [scan, skipGap_stays hb hq hm, hl, bind, Except.bind, pure, Except.pure]

/-- What a character of a class is not. -/
theorem ne_of_class {f : Char → Bool} {c d : Char} (hc : f c = true) (hd : f d = false) : c ≠ d := by
  rintro rfl
  rw [hc] at hd
  contradiction

theorem isBlank_of_isIdentPart {c : Char} (h : Text.isIdentPart c = true) :
    Text.isBlank c = false := by
  refine Bool.eq_false_iff.2 fun hb => ?_
  rw [Text.isIdentPart_of_isBlank hb] at h
  contradiction

/-- Letters that nothing prolongs are read as a word. -/
theorem scan_letters {c : Char} {cs : List Char} (hs : Text.isIdentStart c = true)
    (hc : ∀ d ∈ c :: cs, Text.isIdentPart d = true) (hb : Apart behind) :
    scan p (c :: cs ++ behind) =
      .ok (⟨(TokenKind.keyword? (String.ofList (c :: cs))).getD .ident, String.ofList (c :: cs), p,
        p.after (c :: cs)⟩, behind) := by
  have hl : lexeme p c (cs ++ behind) = .ok (word p (c :: cs ++ behind)) :=
    lexeme_of_isIdentStart hs
  rw [word_run hc hb] at hl
  exact scan_of_lexeme (isBlank_of_isIdentPart (hc c (by simp))) (ne_of_class hs (by decide))
    (fun h => absurd h (ne_of_class hs (by decide))) hl

/-- Digits, and whatever belongs to their number, are read as that number. -/
theorem scan_number {ds : Digits} {cs : List Char} {l : Lexeme}
    (hl : number p (ds.chars ++ cs) = .ok l) :
    scan p (ds.chars ++ cs) = .ok (⟨l.kind, l.text, p, l.stop⟩, l.rest) := by
  obtain ⟨d, rest, hd⟩ := List.exists_cons_of_ne_nil ds.nonempty
  have hdigit : d.isDigit = true := ds.digit d (by simp [hd])
  rw [hd, List.cons_append] at hl ⊢
  rw [← lexeme_of_isDigit hdigit] at hl
  exact scan_of_lexeme (isBlank_of_isIdentPart (Text.isIdentPart_of_isDigit hdigit))
    (ne_of_class hdigit (by decide)) (fun h => absurd h (ne_of_class hdigit (by decide))) hl

/-- A word that nothing prolongs is read as its token. -/
theorem scan_word (w : Word) (p : Position) (hb : Apart behind) :
    scan p (w.chars ++ behind) = .ok (w.token p, behind) := by
  cases w with
  | keyword k hk =>
    obtain ⟨hw, c, cs, hc, hs, hp⟩ := keyword_spelling hk
    have hk : String.ofList (c :: cs) = k.spelling := by rw [← hc, String.ofList_toList]
    have := scan_letters (p := p) hs hp hb
    rw [hk, hw, ← hc] at this
    simpa [Word.token, Word.chars, Word.spelling, Word.kind] using this
  | symbol k hk =>
    obtain ⟨c, cs, hc, hm, hne, hl⟩ := symbol_run (p := p) hk hb
    rw [← lexeme_of_marks hm] at hl
    simp only [marks, Bool.and_eq_true, Bool.not_eq_true', bne_iff_ne, ne_eq] at hm
    have := scan_of_lexeme hm.1.1.1.1.1 hm.1.1.1.2 (fun _ => hne) hl
    simpa [Word.token, Word.chars, Word.spelling, Word.kind, hc] using this
  | name x =>
    -- the spelling of a name is no keyword's, so the scanner takes it for a name
    have hp : ∀ d ∈ x.first :: x.others, Text.isIdentPart d = true := by
      simpa using ⟨Text.isIdentPart_of_isIdentStart x.starts, x.goesOn⟩
    have := scan_letters (p := p) x.starts hp hb
    rwa [x.free] at this
  | int ds hf => exact scan_number (number_int hf hb)
  | float whole fraction =>
    have := scan_number (number_float (p := p) whole fraction hb)
    simpa [Word.token, Word.chars, Word.spelling, Word.kind] using this
  | text cs =>
    have hl : lexeme p '"' (cs.flatMap escape ++ '"' :: behind) =
        .ok ⟨.str, String.ofList cs, (p.step '"').after (cs.flatMap escape ++ ['"']), behind⟩ := by
      simpa [lexeme, isPrefixOf_fence] using quoted_run cs []
    have := scan_of_lexeme (by decide) (by decide) (fun h => absurd h (by decide)) hl
    simpa [Word.token, Word.chars, Word.spelling, Word.kind] using this

/-! ### Lines -/

/-- Words with a blank between two of them. -/
def line : List Word → List Char
  | [] => []
  | [w] => w.chars
  | w :: ws => w.chars ++ ' ' :: line ws

/-- The place of what stands behind the words `ws`, a blank behind each, that begin at `p`. -/
def Position.past (p : Position) (ws : List Word) : Position :=
  p.after (ws.flatMap fun w => w.chars ++ [' '])

/-- The tokens of the words of a line that begins at `p`. -/
def row : Position → List Word → List Token
  | _, [] => []
  | p, w :: ws => w.token p :: row (p.past [w]) ws

@[simp] theorem Position.past_nil (p : Position) : p.past [] = p := rfl

theorem Position.past_append (p : Position) (us ws : List Word) :
    p.past (us ++ ws) = (p.past us).past ws := by
  simp [Position.past, Position.after_append]

theorem Position.past_cons (p : Position) (w : Word) (ws : List Word) :
    p.past (w :: ws) = (p.past [w]).past ws := p.past_append [w] ws

theorem row_append (p : Position) (us ws : List Word) :
    row p (us ++ ws) = row p us ++ row (p.past us) ws := by
  induction us generalizing p with
  | nil => rfl
  | cons u us ih => rw [List.cons_append, row, row, ih, List.cons_append, p.past_cons u us]

theorem line_cons_cons (w v : Word) (ws : List Word) :
    line (w :: v :: ws) = w.chars ++ ' ' :: line (v :: ws) := rfl

/-! ### On one line -/

theorem Position.step_of_ne {c : Char} (h : c ≠ '\n') :
    p.step c = ⟨p.source, p.offset + c.utf8Size, p.line, p.column + 1⟩ := by
  rw [Position.step, if_neg h]

theorem Position.after_of_not_mem {cs : List Char} (h : '\n' ∉ cs) :
    p.after cs = ⟨p.source, p.offset + byteLength cs, p.line, p.column + cs.length⟩ := by
  induction cs generalizing p with
  | nil => rfl
  | cons c cs ih =>
    rw [Position.after_cons, ih (List.not_mem_of_not_mem_cons h),
      Position.step_of_ne (fun hc => h (by simp [hc])), byteLength]
    simp [Nat.add_assoc, Nat.add_comm 1]

theorem newline_not_mem {cs : List Char} (h : ∀ c ∈ cs, Text.isIdentPart c = true) : '\n' ∉ cs :=
  fun hc => absurd (h _ hc) (by decide)

theorem newline_not_mem_digits (ds : Digits) : '\n' ∉ ds.chars :=
  newline_not_mem fun c hc => Text.isIdentPart_of_isDigit (ds.digit c hc)

theorem newline_not_mem_escape (c : Char) : '\n' ∉ escape c := by
  unfold escape
  split
  · decide
  split
  · decide
  split
  · decide
  split
  · decide
  · rename_i h _ _ _
    simpa [eq_comm] using h

/-- No word goes on on another line. -/
theorem Word.newline_not_mem (w : Word) : '\n' ∉ w.chars := by
  cases w with
  | keyword k hk =>
    obtain ⟨-, c, cs, hc, -, hp⟩ := keyword_spelling hk
    rw [Word.chars, hc]
    exact Rewind.newline_not_mem hp
  | symbol k hk =>
    obtain ⟨c, hc, -, hm⟩ | ⟨c, hc, -, hm⟩ := symbol_spelling hk
    all_goals
      rw [Word.chars, hc]
      have := ne_of_class (d := '\n') hm (by decide)
      simp [this.symm]
  | name x =>
    have hp : ∀ d ∈ x.first :: x.others, Text.isIdentPart d = true := by
      simpa using ⟨Text.isIdentPart_of_isIdentStart x.starts, x.goesOn⟩
    exact Rewind.newline_not_mem hp
  | int ds => exact newline_not_mem_digits ds
  | float whole fraction =>
    simp [Word.chars, newline_not_mem_digits]
  | text cs =>
    simp [Word.chars, newline_not_mem_escape]

theorem Position.past_eq (p : Position) (ws : List Word) :
    ∃ n k, p.past ws = ⟨p.source, n, p.line, p.column + k⟩ ∧ (ws ≠ [] → 0 < k) := by
  have hn : '\n' ∉ ws.flatMap fun w => w.chars ++ [' '] := by
    simp [Word.newline_not_mem]
  refine ⟨_, _, Position.after_of_not_mem hn, fun hw => ?_⟩
  obtain ⟨w, ws, rfl⟩ := List.exists_cons_of_ne_nil hw
  rw [List.flatMap_cons, List.length_append, List.length_append]
  exact Nat.lt_of_lt_of_le (Nat.succ_pos _) (Nat.le_add_right _ _)

@[simp] theorem Position.line_past (p : Position) (ws : List Word) : (p.past ws).line = p.line := by
  obtain ⟨n, k, hp, -⟩ := p.past_eq ws
  rw [hp]

theorem Position.column_le_past (p : Position) (ws : List Word) :
    p.column ≤ (p.past ws).column := by
  obtain ⟨n, k, hp, -⟩ := p.past_eq ws
  rw [hp]
  exact Nat.le_add_right _ _

theorem Position.column_pos_after (hp : 0 < p.column) (cs : List Char) : 0 < (p.after cs).column := by
  induction cs generalizing p with
  | nil => exact hp
  | cons c cs ih =>
    refine ih ?_
    unfold Position.step
    split
    · exact Nat.one_pos
    · exact Nat.succ_pos _

/-- The columns of a source are counted from one. -/
theorem Source.Reads.column_pos {s : Source} {cs : List Char} (h : s.Reads p cs) : 0 < p.column := by
  obtain ⟨taken, -, rfl⟩ := h
  exact Position.column_pos_after Nat.one_pos taken

/-- The tokens of a line begin and end on it. -/
theorem line_of_mem_row {t : Token} {ws : List Word} (h : t ∈ row p ws) :
    t.start.line = p.line ∧ t.stop.line = p.line := by
  induction ws generalizing p with
  | nil => nomatch h
  | cons w ws ih =>
    obtain rfl | h := List.mem_cons.1 h
    · exact ⟨rfl, by rw [Word.token, Position.after_of_not_mem w.newline_not_mem]⟩
    · simpa using ih h

/-! ### Moving over a line -/

/-- Beyond the first column, a reader passes one blank and goes on. -/
theorem scan_blank {cs : List Char} (hp : p.column ≠ 1) :
    scan p (' ' :: cs) = scan (p.step ' ') cs := by
  have hg : skipGap .blank p (' ' :: cs) = skipGap .blank (p.step ' ') cs := by
    conv => lhs; unfold skipGap
    rw [checkIndentation, if_pos hp]
    simp only [show Text.isBlank ' ' = true by decide, if_true]
  rw [scan, scan, hg]

namespace Cursor

/-- The tokens `ts` stand in the source from `c` on, and behind them the cursor comes to `d`. -/
inductive Crosses : Cursor → List Token → Cursor → Prop
  | done (c : Cursor) : Crosses c [] c
  | token {c c' d : Cursor} {ts : List Token} (hb : c.bump = .ok c') (hs : Crosses c' ts d) :
    Crosses c (c.current :: ts) d

theorem Crosses.cons_inv {t : Token} {ts : List Token} {c d : Cursor} (h : Crosses c (t :: ts) d) :
    c.current = t ∧ ∃ c', c.bump = .ok c' ∧ Crosses c' ts d := by
  generalize hu : t :: ts = us at h
  cases h with
  | done => contradiction
  | token hb hs =>
    obtain ⟨rfl, rfl⟩ := List.cons.inj hu
    exact ⟨rfl, _, hb, hs⟩

theorem Crosses.append_inv {ts us : List Token} {c d : Cursor} (h : Crosses c (ts ++ us) d) :
    ∃ b, Crosses c ts b ∧ Crosses b us d := by
  induction ts generalizing c with
  | nil => exact ⟨c, .done c, h⟩
  | cons t ts ih =>
    cases h with
    | token hb hs =>
      obtain ⟨b, hc, hd⟩ := ih hs
      exact ⟨b, .token hb hc, hd⟩

theorem Crosses.sound {ts : List Token} {c d : Cursor} (h : Crosses c ts d) (hc : c.Sound) :
    d.Sound ∧ d.source = c.source := by
  induction h with
  | done c => exact ⟨hc, rfl⟩
  | token hb hs ih =>
    obtain ⟨hc', hsource⟩ := sound_bump hc hb
    obtain ⟨hd, hs⟩ := ih hc'
    exact ⟨hd, hs.trans hsource⟩

/-- Where the cursor comes to does not depend on what it has passed. -/
theorem Crosses.congr {ts : List Token} {c c' d : Cursor} (h : Crosses c ts d) (ht : ts ≠ [])
    (hc : c'.source = c.source ∧ c'.current = c.current ∧ c'.behind = c.behind) :
    Crosses c' ts d := by
  cases h with
  | done c => contradiction
  | token hb hs =>
    obtain ⟨h₁, h₂, h₃⟩ := hc
    rw [← h₂]
    refine .token ?_ hs
    rw [bump, h₁, h₂, h₃]
    exact hb

end Cursor

theorem Word.chars_ne_nil (w : Word) : w.chars ≠ [] := by
  cases w with
  | keyword k hk =>
    obtain ⟨-, c, cs, hc, -⟩ := keyword_spelling hk
    simp [Word.chars, hc]
  | symbol k hk =>
    obtain ⟨c, hc, -⟩ | ⟨c, hc, -⟩ := symbol_spelling hk
    all_goals simp [Word.chars, hc]
  | name x => nofun
  | int ds => exact ds.nonempty
  | float whole fraction => simp [Word.chars]
  | text cs => nofun

/-- A line begins with its first word, which nothing prolongs. -/
theorem line_cons (w : Word) (ws : List Word) (hb : Apart behind) :
    ∃ rest, line (w :: ws) ++ behind = w.chars ++ rest ∧ Apart rest := by
  cases ws with
  | nil => exact ⟨behind, rfl, hb⟩
  | cons v ws => exact ⟨' ' :: (line (v :: ws) ++ behind), by simp [line], apart_blank _⟩

/-- A cursor on the first word of a line moves over the tokens of its words to the one behind. -/
theorem crosses_row {ws : List Word} {c : Cursor} {next : Token} {rest : List Char}
    (hp : 0 < p.column) (hw : ws ≠ []) (hb : Apart behind)
    (hc : scan p (line ws ++ behind) = .ok (c.current, c.behind))
    (hn : scan (p.after (line ws)) behind = .ok (next, rest)) :
    c.Crosses (row p ws) ⟨c.source, next, rest, p.line⟩ := by
  induction ws generalizing p c with
  | nil => contradiction
  | cons w ws ih =>
    have hafter := Position.after_of_not_mem (p := p) w.newline_not_mem
    cases ws with
    | nil =>
      rw [line, scan_word w p hb] at hc
      obtain ⟨ht, hd⟩ := Prod.mk.inj (Except.ok.inj hc)
      have hbump : c.bump = .ok ⟨c.source, next, rest, p.line⟩ := by
        rw [Cursor.bump, ← ht, ← hd]
        simp only [Word.token]
        rw [show p.after w.chars = p.after (line [w]) from rfl, hn]
        simp only [line, hafter]
      rw [row, ht]
      exact .token hbump (.done _)
    | cons v ws =>
      rw [line_cons_cons, List.append_assoc, List.cons_append,
        scan_word w p (apart_blank _)] at hc
      obtain ⟨ht, hd⟩ := Prod.mk.inj (Except.ok.inj hc)
      -- behind a word no line begins, so the blank is no indentation
      have hcolumn : (p.after w.chars).column ≠ 1 := by
        have := List.length_pos_iff.2 w.chars_ne_nil
        rw [hafter]
        dsimp only
        omega
      have hpast : (p.after w.chars).step ' ' = p.past [w] := by
        simp [Position.past, Position.after_append]
      obtain ⟨tail, htail, ha⟩ := line_cons v ws hb
      have hscan := scan_word v (p.past [w]) ha
      have hbump : c.bump = .ok ⟨c.source, v.token (p.past [w]), tail, p.line⟩ := by
        rw [Cursor.bump, ← ht, ← hd]
        simp only [Word.token]
        rw [scan_blank hcolumn, hpast, htail, hscan]
        simp only [hafter, Word.token]
      have hrest : scan ((p.past [w]).after (line (v :: ws))) behind = .ok (next, rest) := by
        rw [← hpast, ← Position.after_cons, ← Position.after_append]
        exact hn
      have := ih (Nat.lt_of_lt_of_le hp (p.column_le_past [w])) (by simp)
        (c := ⟨c.source, v.token (p.past [w]), tail, p.line⟩) (by rw [htail, hscan]) hrest
      rw [row, ht]
      refine .token hbump ?_
      simpa using this

end Rewind
