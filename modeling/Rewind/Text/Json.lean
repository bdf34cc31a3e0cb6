/-
Strings in JSON.

* `jsonString` — a text as a JSON string: quotes, backslashes and control characters are escaped,
  all other characters stand for themselves.
-/
namespace Rewind.Text

/-- What stands behind a backslash for a character that has a short escape. -/
def jsonEscapes : List (Char × Char) :=
  [('"', '"'), ('\\', '\\'), ('\x08', 'b'), ('\x0c', 'f'), ('\n', 'n'), ('\r', 'r'), ('\t', 't')]

/-- A character inside a JSON string. -/
def jsonChar (c : Char) : List Char :=
  match jsonEscapes.lookup c with
  | some mark => ['\\', mark]
  | none =>
    if c.toNat < 0x20 then
      let ds := Nat.toDigits 16 c.toNat
      '\\' :: 'u' :: (List.replicate (4 - ds.length) '0' ++ ds)
    else [c]

/-- A text as a JSON string. -/
def jsonString (s : String) : String :=
  String.ofList ('"' :: s.toList.flatMap jsonChar ++ ['"'])

end Rewind.Text
