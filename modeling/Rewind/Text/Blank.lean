/-
Blank characters.

The reader passes over the characters with the Unicode property White_Space between tokens.

* `inRanges` — membership of a code point in a table of inclusive ranges;
* `isBlank` — the White_Space characters;
* `isBlank_of_isWhitespace` — every character of core's own whitespace class is blank.
-/
namespace Rewind.Text

/-- Some range of the table holds the code point; both ends of a range belong to it. -/
def inRanges (table : List (Nat × Nat)) (n : Nat) : Bool :=
  table.any fun (lo, hi) => lo ≤ n && n ≤ hi

/-- The code points with the property White_Space. -/
def blankRanges : List (Nat × Nat) :=
  [(0x9, 0xd), (0x20, 0x20), (0x85, 0x85), (0xa0, 0xa0), (0x1680, 0x1680), (0x2000, 0x200a),
    (0x2028, 0x2029), (0x202f, 0x202f), (0x205f, 0x205f), (0x3000, 0x3000)]

/-- A character that separates tokens. -/
def isBlank (c : Char) : Bool := inRanges blankRanges c.toNat

theorem isBlank_of_isWhitespace {c : Char} (h : c.isWhitespace = true) : isBlank c = true := by
  simp only [Char.isWhitespace, Bool.or_eq_true, decide_eq_true_eq] at h
  rcases h with ((h | h) | h) | h <;> subst h <;> decide

end Rewind.Text
