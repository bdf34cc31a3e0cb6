/-
The token cursor.

A cursor stands on one token of a source.  It moves on by scanning the text behind that token,
and back by scanning again at a position saved earlier, so two rewinds to one position see the
same tokens.  A step that fails leaves the cursor where it was.

* `Cursor.at?`, `Cursor.ofSource` — a cursor on the first token behind a position, of a source;
* `Cursor.bump`, `Cursor.advance`, `Cursor.rewind`, `Cursor.peek` — the moves;
* `Cursor.skipColons`, `Cursor.skipBody` — past separators, past an indented body;
* `Cursor.conditionalAhead` — whether the expression ahead is of the form `a if c else b`.
-/
import Rewind.Token.Scan
import Rewind.Failure

namespace Rewind

/-- A place in the token sequence of a source: the token stood on, the text behind it, and the
line on which the token passed last ended (zero after a rewind). -/
structure Cursor where
  source : Source
  current : Token
  behind : List Char
  passedLine : Nat
  deriving Inhabited

namespace Cursor

def kind (c : Cursor) : TokenKind := c.current.kind

/-- The place of the current token, to come back to. -/
def capture (c : Cursor) : Position := c.current.start

/-- The current token is the first one on its line. -/
def atLineStart (c : Cursor) : Bool := c.passedLine < c.current.line

/-- The token behind the position `p` of `source`, with the text behind that token. -/
def scanAt (source : Source) (p : Position) : Except LexFault (Token × List Char) :=
  scan p (source.rest p)

/-- A cursor on the first token of `source`. -/
def ofSource (source : Source) : Except LexFault Cursor :=
  (scan source.origin source.text).map fun (t, behind) => ⟨source, t, behind, 0⟩

/-- A cursor on the first token behind `p`, which has to be a position of `source`. -/
def at? (source : Source) (p : Position) : Except Failure Cursor :=
  if p.source ≠ source.id then .error (.internal (.foreignPosition p.source source.id))
  else match scanAt source p with
    | .error fault => .error (.ofLex fault)
    | .ok (t, behind) => .ok ⟨source, t, behind, 0⟩

/-- Back to the token behind `p`, as if no token had been passed. -/
def rewind (c : Cursor) (p : Position) : Except Failure Cursor :=
  if p.source ≠ c.source.id then .error (.internal .foreignRewind)
  else match scanAt c.source p with
    | .error fault => .error (.ofLex fault)
    | .ok (t, behind) => .ok ⟨c.source, t, behind, 0⟩

/-- The token behind the current one. -/
def peek (c : Cursor) : Except Failure Token :=
  match scan c.current.stop c.behind with
  | .error fault => .error (.ofLex fault)
  | .ok (t, _) => .ok t

/-- On to the next token. -/
def bump (c : Cursor) : Except Failure Cursor :=
  match scan c.current.stop c.behind with
  | .error fault => .error (.ofLex fault)
  | .ok (t, behind) => .ok ⟨c.source, t, behind, c.current.stop.line⟩

/-- Past the current token, which has to be of the kind `wanted`. -/
def advance (c : Cursor) (wanted : TokenKind) : Except Failure Cursor :=
  if c.kind = wanted then c.bump
  else .error (.malformed (.expected wanted c.current.found) c.current.line c.current.column)

/-- A cursor that moves on from a token other than the last has less text behind it. -/
theorem length_behind_bump_lt {c d : Cursor} (h : c.bump = .ok d) (hd : d.kind ≠ .eof) :
    d.behind.length < c.behind.length := by
  unfold bump at h
  split at h
  · contradiction
  · rename_i t behind hs
    injection h with h
    subst h
    exact length_scan_lt hs hd

/-! ### Past separators and bodies -/

/-- Past every colon that stands here. -/
def skipColons (c : Cursor) : Except Failure Cursor :=
  if c.kind = .colon then
    match h : c.bump with
    | .error failure => .error failure
    | .ok d =>
      if hd : d.kind = .eof then .ok d
      else
        have := length_behind_bump_lt h hd
        skipColons d
  else .ok c
termination_by c.behind.length

/-- Past every token of a body at `column` or deeper: up to the first token, outside of brackets
opened on the way, that starts a line left of `column`. -/
def skipBody (column : Nat) (depth : Nat) (c : Cursor) : Except Failure Cursor :=
  if c.kind = .eof then .ok c
  else if depth = 0 ∧ c.atLineStart ∧ c.current.column < column then .ok c
  else
    let depth :=
      if c.kind.opens then depth + 1 else if c.kind.closes then depth - 1 else depth
    match h : c.bump with
    | .error failure => .error failure
    | .ok d =>
      if hd : d.kind = .eof then .ok d
      else
        have := length_behind_bump_lt h hd
        skipBody column depth d
termination_by c.behind.length

/-! ### Looking ahead -/

/-- The kinds that end an expression which has not shown an `if` so far. -/
def endsExpression (k : TokenKind) : Bool :=
  k == .colon || k == .comma || k == .kwElse || k == .kwTo || k == .kwStep

/-- Whether an `if` stands, outside of brackets, between `t` and the end of the expression or of
its line; `behind` is the text behind `t`. -/
def conditionalFrom (depth : Nat) (t : Token) (behind : List Char) : Except Failure Bool :=
  if t.kind = .eof then .ok false
  else if depth = 0 ∧ t.kind.closes then .ok false
  else if depth = 0 ∧ t.kind = .kwIf then .ok true
  else if depth = 0 ∧ endsExpression t.kind then .ok false
  else
    let depth :=
      if t.kind.opens then depth + 1 else if t.kind.closes then depth - 1 else depth
    match h : scan t.stop behind with
    | .error fault => .error (.ofLex fault)
    | .ok (next, rest) =>
      if depth = 0 ∧ t.stop.line < next.line then .ok false
      else if hn : next.kind = .eof then .ok false
      else
        have := length_scan_lt h hn
        conditionalFrom depth next rest
termination_by behind.length

/-- Whether the expression that starts at the current token is a conditional one. -/
def conditionalAhead (c : Cursor) : Except Failure Bool := conditionalFrom 0 c.current c.behind

end Cursor

end Rewind
