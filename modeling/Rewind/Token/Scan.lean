/-
Reading one token.

`scan p cs` reads the token that follows the position `p`, where `cs` is the text from `p` on: it
passes over blanks and comments and then reads the longest token there.  It depends on nothing
else, so scanning again at a saved position gives the same token again.

A comment runs from `'''` to the next `'''`, or from `--` to the next `--` or the end of its line.
Whenever the reader stands in column one it looks at the indentation: a line that holds more than
blanks is indented by plain spaces, and their number is a multiple of four.

* `Gap`, `skipGap` — what stands between tokens;
* `lexeme` — the token at a character that is neither blank nor the start of a comment;
* `scan` — one token and the text behind it;
* `length_scan_lt` — unless it is the end of the text, a token takes at least one character.
-/
import Rewind.Text.Blank
import Rewind.Text.Letter
import Rewind.Token.Fault

namespace Rewind

/-! ### Between tokens -/

/-- What the reader is inside of between two tokens: blanks, a `'''` comment opened at a position,
or a `--` comment. -/
inductive Gap where
  | blank
  | block (opened : Position)
  | line

/-- The indentation rule for a line that starts at `p` with the characters `cs`: nothing is asked
of a line of blanks, a tab may not stand before text, and the spaces come in fours.  Away from
column one nothing is asked at all. -/
def checkIndentation (p : Position) (cs : List Char) : Except LexFault Unit :=
  if p.column ≠ 1 then .ok () else
  let spaces := (cs.takeWhile (· == ' ')).length
  match cs.dropWhile (· == ' ') with
  | [] | '\n' :: _ | '\r' :: _ => .ok ()
  | '\t' :: rest =>
    if (rest.takeWhile (· != '\n')).all Text.isBlank then .ok ()
    else .error ⟨.tabIndentation, p.line, p.column + spaces⟩
  | _ :: _ => if spaces % 4 = 0 then .ok () else .error (.here (.indentation spaces) p)

/-- Passes over blanks and comments; the result starts with neither, or is empty. -/
def skipGap : Gap → Position → List Char → Except LexFault (Position × List Char)
  | .blank, p, [] => .ok (p, [])
  | .blank, p, c :: cs =>
    match checkIndentation p (c :: cs) with
    | .error fault => .error fault
    | .ok () =>
      if Text.isBlank c then skipGap .blank (p.step c) cs
      else match c, cs with
        | '\'', '\'' :: '\'' :: cs => skipGap (.block p) (p.after ['\'', '\'', '\'']) cs
        | '-', '-' :: cs => skipGap .line (p.after ['-', '-']) cs
        | c, cs => .ok (p, c :: cs)
  | .block opened, _, [] => .error (.here .unterminatedComment opened)
  | .block _, p, '\'' :: '\'' :: '\'' :: cs => skipGap .blank (p.after ['\'', '\'', '\'']) cs
  | .block opened, p, c :: cs => skipGap (.block opened) (p.step c) cs
  | .line, p, [] => .ok (p, [])
  | .line, p, '\n' :: cs => skipGap .blank (p.step '\n') cs
  | .line, p, '-' :: '-' :: cs => skipGap .blank (p.after ['-', '-']) cs
  | .line, p, c :: cs => skipGap .line (p.step c) cs

/-! ### Tokens -/

/-- A token as read off the text: what it is, where it ends and what follows it. -/
structure Lexeme where
  kind : TokenKind
  text : String
  stop : Position
  rest : List Char

/-- The characters a backslash and `c` stand for between quotes `quote`; an unknown escape keeps
its backslash. -/
def unescape (quote c : Char) : List Char :=
  if c = 'n' then ['\n']
  else if c = 't' then ['\t']
  else if c = '\\' then ['\\']
  else if c = quote then [quote]
  else ['\\', c]

/-- A string between quotes, from behind its opening quote; `read` holds its characters so far,
the last one first. -/
def quoted (quote : Char) (opened : Position) :
    Position → List Char → List Char → Except LexFault Lexeme
  | _, [], _ => .error (.here .unterminatedString opened)
  | p, c :: cs, read =>
    if c = quote then .ok ⟨.str, String.ofList read.reverse, p.step c, cs⟩
    else if c = '\\' then
      match cs with
      | [] => .error (.here .unterminatedString opened)
      | e :: cs => quoted quote opened ((p.step c).step e) cs ((unescape quote e).reverse ++ read)
    else quoted quote opened (p.step c) cs (c :: read)

/-- Three backticks, which open and close a string of several lines. -/
def fence : List Char := List.replicate 3 (Char.ofNat 96)

/-- A fenced string, from behind its opening fence: every character stands for itself. -/
def fenced (opened : Position) : Position → List Char → List Char → Except LexFault Lexeme
  | _, [], _ => .error (.here .unterminatedMultiline opened)
  | p, c :: cs, read =>
    if fence.isPrefixOf (c :: cs) then
      .ok ⟨.str, String.ofList read.reverse, p.after fence, cs.drop 2⟩
    else fenced opened (p.step c) cs (c :: read)

/-- The largest integer a program can hold. -/
def maxInt : Int := 9223372036854775807

/-- The smallest one. -/
def minInt : Int := -9223372036854775808

/-- The number a string of decimal digits denotes. -/
def natOfDigits (digits : List Char) : Nat :=
  digits.foldl (fun n d => 10 * n + (d.toNat - '0'.toNat)) 0

/-- A number: digits, and a fraction if a point and a digit follow them.  Without a fraction it
is an integer and has to fit. -/
def number (p : Position) (cs : List Char) : Except LexFault Lexeme :=
  let whole := cs.takeWhile Char.isDigit
  let behind := cs.dropWhile Char.isDigit
  match behind with
  | '.' :: d :: rest =>
    if d.isDigit then
      let text := whole ++ '.' :: d :: rest.takeWhile Char.isDigit
      .ok ⟨.float, String.ofList text, p.after text, rest.dropWhile Char.isDigit⟩
    else integer whole behind
  | _ => integer whole behind
where
  /-- The digits `whole` as an integer token. -/
  integer (whole behind : List Char) : Except LexFault Lexeme :=
    if natOfDigits whole ≤ maxInt then
      .ok ⟨.int, String.ofList whole, p.after whole, behind⟩
    else .error (.here (.invalidNumber (String.ofList whole)) p)

/-- An identifier or keyword: the longest run of identifier characters. -/
def word (p : Position) (cs : List Char) : Lexeme :=
  let letters := cs.takeWhile Text.isIdentPart
  let text := String.ofList letters
  ⟨(TokenKind.keyword? text).getD .ident, text, p.after letters, cs.dropWhile Text.isIdentPart⟩

/-- The kind of a symbol of two characters. -/
def symbolPair? : Char → Char → Option TokenKind
  | '=', '=' => some .eq
  | '!', '=' => some .neq
  | '<', '=' => some .lte
  | '>', '=' => some .gte
  | _, _ => none

/-- The kind of a symbol of one character. -/
def symbolChar? : Char → Option TokenKind
  | '=' => some .assign
  | '<' => some .lt
  | '>' => some .gt
  | '?' => some .question
  | ':' => some .colon
  | '(' => some .lparen
  | ')' => some .rparen
  | '[' => some .lbracket
  | ']' => some .rbracket
  | '\x7b' => some .lbrace
  | '\x7d' => some .rbrace
  | ',' => some .comma
  | '.' => some .dot
  | '+' => some .plus
  | '-' => some .minus
  | '*' => some .star
  | '/' => some .slash
  | '%' => some .percent
  | '^' => some .caret
  | _ => none

/-- A symbol, of two characters where they form one. -/
def symbol (p : Position) (c : Char) (cs : List Char) : Except LexFault Lexeme :=
  match cs.head?.bind (symbolPair? c) with
  | some kind => .ok ⟨kind, kind.spelling, p.after (c :: cs.take 1), cs.drop 1⟩
  | none =>
    match symbolChar? c with
    | some kind => .ok ⟨kind, kind.spelling, p.step c, cs⟩
    | none => .error (.here (.unexpectedChar c) p)

/-- The token that starts with the character `c` at `p`. -/
def lexeme (p : Position) (c : Char) (cs : List Char) : Except LexFault Lexeme :=
  if fence.isPrefixOf (c :: cs) then fenced p (p.after fence) (cs.drop 2) []
  else if c = '"' ∨ c = '\'' then quoted c p (p.step c) cs []
  else if c.isDigit then number p (c :: cs)
  else if Text.isIdentStart c then .ok (word p (c :: cs))
  else symbol p c cs

/-- The token that follows `p`, where `cs` is the text from `p` on, and the text behind it. -/
def scan (p : Position) (cs : List Char) : Except LexFault (Token × List Char) := do
  match ← skipGap .blank p cs with
  | (start, []) => return (⟨.eof, "", start, start⟩, [])
  | (start, c :: cs) =>
    let l ← lexeme start c cs
    return (⟨l.kind, l.text, start, l.stop⟩, l.rest)

/-! ### A token shortens the text -/

theorem length_skipGap_le {g : Gap} {p q : Position} {cs ds : List Char}
    (h : skipGap g p cs = .ok (q, ds)) : ds.length ≤ cs.length := by
  fun_induction skipGap g p cs <;> grind

theorem length_quoted_le {quote opened p cs read l} (h : quoted quote opened p cs read = .ok l) :
    l.rest.length ≤ cs.length := by
  fun_induction quoted quote opened p cs read <;> grind

theorem length_fenced_le {opened p cs read l} (h : fenced opened p cs read = .ok l) :
    l.rest.length ≤ cs.length := by
  fun_induction fenced opened p cs read <;> grind

theorem length_dropWhile_le (p : Char → Bool) (cs : List Char) :
    (cs.dropWhile p).length ≤ cs.length := (List.dropWhile_sublist p).length_le

theorem length_lexeme_le {p c cs l} (h : lexeme p c cs = .ok l) :
    l.rest.length ≤ cs.length := by
  unfold lexeme at h
  split at h
  · have := length_fenced_le h
    simp at this; omega
  · split at h
    · exact length_quoted_le h
    · split at h
      · rename_i hd
        have hw : ((c :: cs).dropWhile Char.isDigit).length ≤ cs.length := by
          simpa [List.dropWhile_cons, hd] using length_dropWhile_le Char.isDigit cs
        simp only [number, number.integer] at h
        split at h
        · rename_i d rest heq
          have := length_dropWhile_le Char.isDigit rest
          rw [heq] at hw
          grind
        · grind
      · split at h
        · rename_i hs
          have hp := Text.isIdentPart_of_isIdentStart hs
          injection h with h
          subst h
          simpa [word, List.dropWhile_cons, hp] using length_dropWhile_le Text.isIdentPart cs
        · simp only [symbol] at h
          grind

/-- Unless it is the end of the text, a token takes at least one character away. -/
theorem length_scan_lt {p : Position} {cs ds : List Char} {t : Token}
    (h : scan p cs = .ok (t, ds)) (ht : t.kind ≠ .eof) : ds.length < cs.length := by
  simp only [scan, bind, Except.bind, pure, Except.pure] at h
  split at h
  · contradiction
  · rename_i r hr
    split at h
    · grind
    · rename_i start c cs'
      have hg := length_skipGap_le hr
      split at h
      · contradiction
      · rename_i l hl
        have := length_lexeme_le hl
        injection h with h
        injection h with h1 h2
        subst h2
        simp at hg
        omega

end Rewind
