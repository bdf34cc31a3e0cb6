/-
What can be wrong with the characters of a source.

* `LexCause` — the ways a text fails to be a sequence of tokens;
* `LexFault` — a cause and the line and column it is reported at;
* `LexFault.message` — its wording.
-/
import Rewind.Token

namespace Rewind

/-- Why no token can be read. -/
inductive LexCause where
  | unexpectedChar (c : Char)
  | unterminatedString
  | unterminatedMultiline
  | unterminatedComment
  | indentation (spaces : Nat)
  | tabIndentation
  | invalidNumber (text : String)
  deriving DecidableEq

namespace LexCause

def message : LexCause → String
  | unexpectedChar c => "Unexpected character '" ++ c.toString ++ "'"
  | unterminatedString => "Unterminated string literal"
  | unterminatedMultiline => "Unterminated multiline string (```)"
  | unterminatedComment => "Unterminated ''' block comment"
  | indentation spaces => s!"Invalid indentation: {spaces} spaces. Must be a multiple of 4"
  | tabIndentation => "Only spaces are allowed for indentation"
  | invalidNumber text => "Invalid number literal '" ++ text ++ "'"

end LexCause

/-- A cause with the place it is reported at. -/
structure LexFault where
  cause : LexCause
  line : Nat
  column : Nat
  deriving DecidableEq

namespace LexFault

/-- A cause reported at the position `p`. -/
def here (cause : LexCause) (p : Position) : LexFault := ⟨cause, p.line, p.column⟩

def message (f : LexFault) : String := f.cause.message

end LexFault

end Rewind
