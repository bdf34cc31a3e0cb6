/-
Settings written in TOML.

A text is read line by line: headers say which table the keys behind them belong to.  Every reader
takes the characters from one place on and gives what it read together with the characters behind.

* `Toml.key?` — a dotted key;
* `Toml.value?` — a value, in which lists and tables may stand inside each other up to a limit;
* `Toml.line?` — one line, and the entries with what it adds;
* `Toml.ofText?` — the entries a text stands for.
-/
import Rewind.Settings.Toml.Moment
import Rewind.Settings.Toml.Number
import Rewind.Settings.Toml.Quoted
import Rewind.Settings.Toml.Table

namespace Rewind.Toml

/-! ### Blanks and comments -/

/-- The text from the first character on that is not blank. -/
def skipBlanks (cs : List Char) : List Char := cs.dropWhile isBlank

/-- The text from the end of a comment's line on. -/
def comment? (cs : List Char) : Option (List Char) :=
  let behind := cs.dropWhile isPlain
  if behind.isEmpty || (lineEnd? behind).isSome then some behind else none

/-- The text behind the rest of a line, on which nothing but a comment may stand. -/
def endOfLine? (cs : List Char) : Option (List Char) :=
  match skipBlanks cs with
  | [] => some []
  | '#' :: rest => (comment? rest).map afterLineEnd
  | rest => lineEnd? rest

/-- The text behind blanks, line ends and comments, as they may stand inside a list. -/
def skipTrivia? (cs : List Char) : Option (List Char) :=
  match h : skipLines cs with
  | '#' :: rest =>
    have : rest.length < cs.length := by
      have := length_skipLines_le cs
      rw [h, List.length_cons] at this
      exact this
    have := (List.dropWhile_sublist (p := isPlain) (l := rest)).length_le
    if (lineEnd? (rest.dropWhile isPlain)).isSome then skipTrivia? (rest.dropWhile isPlain)
    else none
  | rest => some rest
termination_by cs.length

/-! ### Keys -/

/-- The characters of a name that is not quoted. -/
def isNameChar (c : Char) : Bool := c.isAlphanum || c == '_' || c == '-'

/-- A name, quoted or not. -/
def name? (cs : List Char) : Option (String × List Char) :=
  match cs with
  | '"' :: rest => (basicString rest).map fun (s, rest) => (String.ofList s, rest)
  | '\'' :: rest => (literalString rest).map fun (s, rest) => (String.ofList s, rest)
  | _ =>
    let name := cs.takeWhile isNameChar
    if name.isEmpty then none else some (String.ofList name, cs.dropWhile isNameChar)

/-- The most names a key can have, and the most lists and tables inside each other. -/
def nestingLimit : Nat := 79

/-- A key: at most `count` names, between points. -/
def names? : (count : Nat) → List Char → Option (List String × List Char)
  | 0, _ => none
  | count + 1, cs => do
    let (name, rest) ← name? (skipBlanks cs)
    match skipBlanks rest with
    | '.' :: rest => (names? count rest).map fun (names, rest) => (name :: names, rest)
    | rest => some ([name], rest)

/-- A key, and the text behind it. -/
def key? (cs : List Char) : Option (List String × List Char) := names? nestingLimit cs

/-! ### Values -/

/-- The characters of words that are values. -/
def isWordChar (c : Char) : Bool :=
  c.isAlphanum || c == '_' || c == '-' || c == '+' || c == '.' || c == ':'

/-- The value of a word. -/
def wordValue? (cs : List Char) : Option Datum :=
  match String.ofList cs with
  | "true" => some (.bool true)
  | "false" => some (.bool false)
  | _ =>
    ((moment? cs).map fun m => .str (String.ofList m)).orElse fun _ =>
      ((integer? cs).map .int).orElse fun _ => (float? cs).map .float

/-- A word that is a value, and the text behind it.  Only between a date and a time of day may a
blank stand inside. -/
def word? (cs : List Char) : Option (Datum × List Char) :=
  let word := cs.takeWhile isWordChar
  let rest := cs.dropWhile isWordChar
  let both : Option (Datum × List Char) := do
    let time ← behind? ' ' rest
    let (_, more) ← date? word
    guard more.isEmpty
    let m ← moment? (word ++ ' ' :: time.takeWhile isWordChar)
    some (.str (String.ofList m), time.dropWhile isWordChar)
  both.orElse fun _ => (wordValue? word).map fun v => (v, rest)

/-- Reads `item`s with commas between them and possibly one at the end, up to the bracket. -/
def items? (item : List Char → Option (Datum × List Char)) (cs : List Char) :
    Option (List Datum × List Char) :=
  match skipTrivia? cs with
  | none => none
  | some (']' :: rest) => some ([], rest)
  | some start =>
    match item start with
    | none => none
    | some (d, rest) =>
      match skipTrivia? rest with
      | some (',' :: rest) =>
        if rest.length < cs.length then (items? item rest).map fun (ds, rest) => (d :: ds, rest)
        else none
      | some (']' :: rest) => some ([d], rest)
      | _ => none
termination_by cs.length

/-- Reads pairs of a key and an `item` with commas between them, up to the brace. -/
def pairs? (item : List Char → Option (Datum × List Char)) (es : Entries) (cs : List Char) :
    Option (Entries × List Char) := do
  let (key, rest) ← key? cs
  let (d, rest) ← item (skipBlanks (← behind? '=' rest))
  let es ← insert? d key es
  match skipBlanks rest with
  | ',' :: rest => if rest.length < cs.length then pairs? item es rest else none
  | '}' :: rest => some (es, rest)
  | _ => none
termination_by cs.length

/-- The table behind an opening brace. -/
def inlineTable? (item : List Char → Option (Datum × List Char)) (cs : List Char) :
    Option (Datum × List Char) :=
  match skipBlanks cs with
  | '}' :: rest => some (.table [], rest)
  | rest => (pairs? item [] rest).map fun (es, rest) => (.table (Entries.data es), rest)

/-- A value with at most `depth` lists and tables inside each other, and the text behind it. -/
def valueWithin? : (depth : Nat) → List Char → Option (Datum × List Char)
  | 0, '[' :: _ => none
  | 0, '\x7b' :: _ => none
  | depth + 1, '[' :: rest =>
    (items? (valueWithin? depth) rest).map fun (ds, rest) => (.list ds, rest)
  | depth + 1, '\x7b' :: rest => inlineTable? (valueWithin? depth) rest
  | _, cs =>
    ((string? cs).map fun (s, rest) => (.str (String.ofList s), rest)).orElse fun _ => word? cs

/-- A value, and the text behind it. -/
def value? (cs : List Char) : Option (Datum × List Char) := valueWithin? nestingLimit cs

/-! ### Lines -/

/-- What has been read of a text, and the table that keys belong to. -/
structure Progress where
  entries : Entries := []
  path : List String := []

/-- The rest of a header: its key, `close`, and the end of the line. -/
def header? (close : List Char) (cs : List Char) : Option (List String × List Char) := do
  let (key, rest) ← key? cs
  guard (close.isPrefixOf rest)
  some (key, ← endOfLine? (rest.drop close.length))

/-- The progress with a header, which `change`s the table that holds its last name. -/
def Progress.enter? (p : Progress) (change : String → Entries → Option Entries)
    (key : List String) : Option Progress := do
  let last ← key.getLast?
  some ⟨← within? (change last) key.dropLast p.entries, key⟩

/-- A line that starts with something else than a blank. -/
def line? (p : Progress) : List Char → Option (Progress × List Char)
  | '#' :: rest => do some (p, afterLineEnd (← comment? rest))
  | '[' :: '[' :: rest => do
    let (key, rest) ← header? [']', ']'] rest
    some (← p.enter? append? key, rest)
  | '[' :: rest => do
    let (key, rest) ← header? [']'] rest
    some (← p.enter? open? key, rest)
  | cs =>
    match lineEnd? cs with
    | some rest => some (p, rest)
    | none => do
      let (key, rest) ← key? cs
      let (v, rest) ← value? (skipBlanks (← behind? '=' rest))
      let rest ← endOfLine? rest
      some ({ p with entries := ← within? (insert? v key) p.path p.entries }, rest)

/-- All lines of a text. -/
def lines? (p : Progress) (cs : List Char) : Option Progress :=
  match skipBlanks cs with
  | [] => some p
  | start =>
    match line? p start with
    | none => none
    | some (p, rest) => if rest.length < cs.length then lines? p rest else none
termination_by cs.length

/-- The entries a text stands for.  A mark of the byte order in front does not count. -/
def ofText? (text : String) : Option (List (String × Datum)) := do
  let cs := text.toList
  let p ← lines? {} (if cs.head? = some '\ufeff' then cs.tail else cs)
  some (Entries.data p.entries)

end Rewind.Toml
