/-
String templates.

In the text of a string literal, `%` and an opening brace start a hole, which runs to the matching
closing brace and holds an expression.  Only braces count for the match, whatever they stand in.

* `Template` — the text before the first hole, the code in it, and what follows; or an open end;
* `Template.ofChars` — the template of a text.
-/
namespace Rewind

/-- A text with holes. -/
inductive Template where
  /-- No further hole. -/
  | plain (text : List Char)
  /-- Text, the code of a hole, and the rest. -/
  | hole (before code : List Char) (rest : Template)
  /-- Text and a hole that is never closed. -/
  | broken (before : List Char)

namespace Template

/-- The text before the first hole and the text behind its opening brace. -/
def findHole : List Char → Option (List Char × List Char)
  | '%' :: '\x7b' :: cs => some ([], cs)
  | c :: cs => (findHole cs).map fun (before, behind) => (c :: before, behind)
  | [] => none

/-- The text up to the closing brace that matches, inside `depth` braces opened on the way, and the
text behind it. -/
def findClose : (depth : Nat) → List Char → Option (List Char × List Char)
  | _, [] => none
  | depth, c :: cs =>
    if c = '\x7d' ∧ depth = 0 then some ([], cs)
    else
      let depth := if c = '\x7b' then depth + 1 else if c = '\x7d' then depth - 1 else depth
      (findClose depth cs).map fun (code, behind) => (c :: code, behind)

theorem length_findHole_lt {cs before behind : List Char} (h : findHole cs = some (before, behind)) :
    behind.length < cs.length := by
  fun_induction findHole cs generalizing before behind <;> grind [Option.map_eq_some_iff]

theorem length_findClose_lt {depth : Nat} {cs code behind : List Char}
    (h : findClose depth cs = some (code, behind)) : behind.length < cs.length := by
  fun_induction findClose depth cs generalizing code behind <;> grind [Option.map_eq_some_iff]

/-- The template of a text. -/
def ofChars (cs : List Char) : Template :=
  match h : findHole cs with
  | none => .plain cs
  | some (before, inner) =>
    match hc : findClose 0 inner with
    | none => .broken before
    | some (code, behind) =>
      have := length_findHole_lt h
      have := length_findClose_lt hc
      .hole before code (ofChars behind)
termination_by cs.length

end Template

end Rewind
