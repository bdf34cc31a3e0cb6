/-
All tokens of a text.

* `tokensFrom` — the tokens from a position on, the last one the end of the text;
* `tokenize` — the tokens of a whole source.
-/
import Rewind.Token.Scan

namespace Rewind

/-- The tokens of `cs`, which starts at `p`, up to and including the end of the text. -/
def tokensFrom (p : Position) (cs : List Char) : Except LexFault (List Token) :=
  match h : scan p cs with
  | .error fault => .error fault
  | .ok (t, rest) =>
    if ht : t.kind = .eof then .ok [t]
    else
      have := length_scan_lt h ht
      (tokensFrom t.stop rest).map (t :: ·)
termination_by cs.length

/-- The tokens of a source. -/
def tokenize (s : Source) : Except LexFault (List Token) := tokensFrom s.origin s.text

end Rewind
