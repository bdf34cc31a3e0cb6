/-
Positions in a source text.

A position names a place between two characters of one source: its offset in bytes of UTF-8, and
its line and column, both counted from one, the column in characters.  A source is a numbered,
immutable text; evaluation re-enters it at positions saved earlier.

* `Position.step`, `Position.after` — the position behind one character, behind several;
* `Source.rest` — the text from a position on;
* `dropBytes_append` — dropping exactly the bytes of a prefix leaves what follows it.
-/
namespace Rewind

/-- A place in the source numbered `source`. -/
structure Position where
  source : Nat
  offset : Nat
  line : Nat
  column : Nat
  deriving DecidableEq, Inhabited

namespace Position

/-- The first place of a source. -/
def origin (source : Nat) : Position := ⟨source, 0, 1, 1⟩

/-- The place behind the character `c` that stands at `p`. -/
def step (p : Position) (c : Char) : Position :=
  if c = '\n' then ⟨p.source, p.offset + c.utf8Size, p.line + 1, 1⟩
  else ⟨p.source, p.offset + c.utf8Size, p.line, p.column + 1⟩

/-- The place behind the characters `cs` that start at `p`. -/
def after (p : Position) (cs : List Char) : Position := cs.foldl step p

@[simp] theorem after_nil (p : Position) : p.after [] = p := rfl

@[simp] theorem after_cons (p : Position) (c : Char) (cs : List Char) :
    p.after (c :: cs) = (p.step c).after cs := rfl

theorem after_append (p : Position) (cs ds : List Char) :
    p.after (cs ++ ds) = (p.after cs).after ds := by
  simp [after]

end Position

/-- The number of bytes of a text in UTF-8. -/
def byteLength : List Char → Nat
  | [] => 0
  | c :: cs => c.utf8Size + byteLength cs

/-- What is left of a text without its first `n` bytes; a character cut in two goes whole. -/
def dropBytes : Nat → List Char → List Char
  | 0, cs => cs
  | _ + 1, [] => []
  | n + 1, c :: cs => dropBytes (n + 1 - c.utf8Size) cs

@[simp] theorem dropBytes_zero (cs : List Char) : dropBytes 0 cs = cs := by cases cs <;> rfl

theorem dropBytes_append (cs ds : List Char) : dropBytes (byteLength cs) (cs ++ ds) = ds := by
  induction cs with
  | nil => simp [byteLength]
  | cons c cs ih =>
    have h : byteLength (c :: cs) = byteLength cs + c.utf8Size := by
      simp [byteLength, Nat.add_comm]
    obtain ⟨k, hk⟩ : ∃ k, c.utf8Size = k + 1 := ⟨c.utf8Size - 1, by have := c.utf8Size_pos; omega⟩
    rw [h, hk, ← Nat.add_assoc, List.cons_append, dropBytes, hk,
      show byteLength cs + k + 1 - (k + 1) = byteLength cs by omega, ih]

/-- A numbered source text. -/
structure Source where
  id : Nat
  text : List Char
  deriving Inhabited

namespace Source

def origin (s : Source) : Position := Position.origin s.id

/-- The text from `p` on. -/
def rest (s : Source) (p : Position) : List Char := dropBytes p.offset s.text

end Source

end Rewind
