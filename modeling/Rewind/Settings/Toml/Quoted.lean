/-
Strings of TOML.

A string stands between quotes, where a backslash starts an escape, or between apostrophes, where
nothing is escaped.  Between three of either it may go on over several lines.

* `Toml.basicString`, `Toml.literalString` — strings on one line, read from behind the first mark;
* `Toml.basicText`, `Toml.literalText` — strings over several lines, read the same way;
* `Toml.string?` — a string, whichever form it has;
* `Toml.quote` — a string as it is written: in the plainest form that can hold it.
-/
namespace Rewind.Toml

/-- The characters that can stand in a string, its marks and backslashes apart. -/
def isPlain (c : Char) : Bool := c == '\t' || (' ' ≤ c && c != '\x7f')

/-- The characters that separate words on a line. -/
def isBlank (c : Char) : Bool := c == ' ' || c == '\t'

/-- The text behind a line end, if one stands in front. -/
def lineEnd? : List Char → Option (List Char)
  | '\n' :: rest => some rest
  | '\r' :: '\n' :: rest => some rest
  | _ => none

/-- The text from the first character on that is neither blank nor a line end. -/
def skipLines : List Char → List Char
  | ' ' :: rest => skipLines rest
  | '\t' :: rest => skipLines rest
  | '\n' :: rest => skipLines rest
  | '\r' :: '\n' :: rest => skipLines rest
  | cs => cs

theorem length_skipLines_le (cs : List Char) : (skipLines cs).length ≤ cs.length := by
  fun_induction skipLines cs <;> grind

theorem length_lineEnd?_lt {cs rest : List Char} (h : lineEnd? cs = some rest) :
    rest.length < cs.length := by
  fun_cases lineEnd? cs <;> grind [lineEnd?]

/-! ### Escapes -/

/-- What stands behind a backslash, and what it means. -/
def escapes : List (Char × Char) :=
  [('b', '\x08'), ('t', '\t'), ('n', '\n'), ('f', '\x0c'), ('r', '\r'), ('"', '"'), ('\\', '\\')]

/-- The value of a hexadecimal digit. -/
def hexDigit? (c : Char) : Option Nat :=
  if c.isDigit then some (c.toNat - '0'.toNat)
  else if 'a' ≤ c ∧ c ≤ 'f' then some (c.toNat - 'a'.toNat + 10)
  else if 'A' ≤ c ∧ c ≤ 'F' then some (c.toNat - 'A'.toNat + 10)
  else none

/-- The character with a number written in hexadecimal digits. -/
def charOfHex? (cs : List Char) : Option Char := do
  let n ← cs.foldlM (fun n c => (hexDigit? c).map (16 * n + ·)) 0
  if n.isValidChar then some (Char.ofNat n) else none

/-- The character whose number the next `count` digits are, and the text behind them. -/
def hexEscaped? (count : Nat) (cs : List Char) : Option (Char × List Char) :=
  if cs.length < count then none
  else (charOfHex? (cs.take count)).map fun c => (c, cs.drop count)

/-- The character written behind a backslash, and the text behind it. -/
def escaped? : List Char → Option (Char × List Char)
  | [] => none
  | 'u' :: rest => hexEscaped? 4 rest
  | 'U' :: rest => hexEscaped? 8 rest
  | c :: rest => (escapes.lookup c).map fun e => (e, rest)

theorem length_escaped?_lt {cs rest : List Char} {c : Char} (h : escaped? cs = some (c, rest)) :
    rest.length < cs.length := by
  fun_cases escaped? cs <;> grind [escaped?, hexEscaped?, Option.map_eq_some_iff]

/-! ### Reading -/

/-- A reading with one more character in front of what was read. -/
def before (c : Char) (r : List Char × List Char) : List Char × List Char := (c :: r.1, r.2)

/-- The string behind an opening quote, and the text behind its closing quote. -/
def basicString (cs : List Char) : Option (List Char × List Char) :=
  match cs with
  | [] => none
  | c :: rest =>
    if c = '"' then some ([], rest)
    else if c = '\\' then
      match h : escaped? rest with
      | none => none
      | some (e, behind) =>
        have := length_escaped?_lt h
        (basicString behind).map (before e)
    else if isPlain c then (basicString rest).map (before c)
    else none
termination_by cs.length

/-- The string behind an opening apostrophe, in which nothing is escaped. -/
def literalString : List Char → Option (List Char × List Char)
  | [] => none
  | c :: rest =>
    if c = '\'' then some ([], rest)
    else if isPlain c then (literalString rest).map (before c)
    else none

/-- The marks that belong to a string behind three of them: two more at most. -/
def closing (mark : Char) (cs : List Char) : List Char × List Char :=
  let more := (cs.take 2).takeWhile (· == mark)
  (more, cs.drop more.length)

/-- The string behind three quotes.  A backslash at the end of a line joins it with the next line
that is not blank. -/
def basicText (cs : List Char) : Option (List Char × List Char) :=
  match cs with
  | [] => none
  | '"' :: '"' :: '"' :: rest => some (closing '"' rest)
  | '\\' :: rest =>
    match h : lineEnd? (rest.dropWhile isBlank) with
    | some behind =>
      have := length_lineEnd?_lt h
      have := (List.dropWhile_sublist (p := isBlank) (l := rest)).length_le
      have := length_skipLines_le behind
      basicText (skipLines behind)
    | none =>
      match h : escaped? rest with
      | none => none
      | some (e, behind) =>
        have := length_escaped?_lt h
        (basicText behind).map (before e)
  | '\n' :: rest => (basicText rest).map (before '\n')
  | '\r' :: '\n' :: rest => (basicText rest).map (before '\n')
  | c :: rest => if isPlain c then (basicText rest).map (before c) else none
termination_by cs.length

/-- The string behind three apostrophes. -/
def literalText : List Char → Option (List Char × List Char)
  | [] => none
  | '\'' :: '\'' :: '\'' :: rest => some (closing '\'' rest)
  | '\n' :: rest => (literalText rest).map (before '\n')
  | '\r' :: '\n' :: rest => (literalText rest).map (before '\n')
  | c :: rest => if isPlain c then (literalText rest).map (before c) else none

/-- A text without the line end in front of it, if there is one. -/
def afterLineEnd (cs : List Char) : List Char := (lineEnd? cs).getD cs

/-- A string of any form, and the text behind it. -/
def string? : List Char → Option (List Char × List Char)
  | '"' :: '"' :: '"' :: rest => basicText (afterLineEnd rest)
  | '"' :: rest => basicString rest
  | '\'' :: '\'' :: '\'' :: rest => literalText (afterLineEnd rest)
  | '\'' :: rest => literalString rest
  | _ => none

/-! ### Writing -/

/-- The length of the longest run of a character. -/
def longestRun (mark : Char) (cs : List Char) : Nat :=
  (cs.foldl (fun (run, longest) c =>
    if c == mark then (run + 1, max longest (run + 1)) else (0, longest)) (0, 0)).2

/-- The forms of a string. -/
inductive Form where
  | basic
  | literal
  | basicText
  | literalText
  deriving DecidableEq

/-- A character that only an escape can stand for. -/
def needsEscape (c : Char) : Bool := c != '\n' && !isPlain c

/-- The plainest form that can hold a string.  As long as nothing has to be escaped, a string on
one line is preferred to one over several, and quotes to apostrophes. -/
def Form.of (cs : List Char) : Form :=
  let plain := !cs.any needsEscape
  let lines := cs.contains '\n'
  let quotes := longestRun '"' cs
  let apostrophes := longestRun '\'' cs
  let unescaped := plain && !cs.contains '\\'
  if unescaped && quotes == 0 && !lines then .basic
  else if plain && apostrophes == 0 && !lines then .literal
  else if unescaped && quotes ≤ 2 then .basicText
  else if plain && apostrophes ≤ 2 then .literalText
  else if lines then .basicText
  else .basic

/-- The character in four hexadecimal digits. -/
def hexEscape (c : Char) : List Char :=
  let ds := (Nat.toDigits 16 c.toNat).map Char.toUpper
  '\\' :: 'u' :: (List.replicate (4 - ds.length) '0' ++ ds)

/-- The escape for a character that cannot stand for itself; a quote can. -/
def escape? (lines : Bool) (c : Char) : Option (List Char) :=
  if c == '"' || (lines && c == '\n') then none
  else
    match escapes.find? (·.2 == c) with
    | some (mark, _) => some ['\\', mark]
    | none => if isPlain c then none else some (hexEscape c)

/-- The characters between quotes.  Of a run of quotes each one behind the first `most` is escaped,
and a new run begins behind it. -/
def quotedChars (lines : Bool) (most : Nat) : (run : Nat) → List Char → List Char
  | _, [] => []
  | run, c :: rest =>
    if c = '"' then
      if run < most then '"' :: quotedChars lines most (run + 1) rest
      else '\\' :: '"' :: quotedChars lines most 0 rest
    else (escape? lines c).getD [c] ++ quotedChars lines most 0 rest

/-- A string in a form.  A string with line ends starts on a line of its own. -/
def Form.write (cs : List Char) : Form → List Char
  | basic => '"' :: (quotedChars false 0 0 cs ++ ['"'])
  | literal => '\'' :: (cs ++ ['\''])
  | basicText => ['"', '"', '"'] ++ start ++ quotedChars true 2 0 cs ++ ['"', '"', '"']
  | literalText => ['\'', '\'', '\''] ++ start ++ cs ++ ['\'', '\'', '\'']
where
  start : List Char := if cs.contains '\n' then ['\n'] else []

/-- A string as it is written. -/
def quote (s : String) : String := String.ofList ((Form.of s.toList).write s.toList)

end Rewind.Toml
