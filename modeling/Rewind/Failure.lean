/-
Failures that end a run.

A failure cannot be caught by the program.  It is a malformed text, an exception nobody caught, a
deadlock, a limit of the system, a defect of the machine itself, or an exception that ended the
root coroutine of an event loop.

* `SyntaxIssue`, `SystemIssue`, `Defect` — the causes of three of these;
* `Failure` — all of them, with the place of a malformed text or of an uncaught exception;
* `Failure.category`, `Failure.message`, `Failure.display` — what is reported.
-/
import Rewind.Token.Fault
import Rewind.Value.Kind

namespace Rewind

/-- Why a text is not a program. -/
inductive SyntaxIssue where
  | lexical (cause : LexCause)
  | inInterpolation (cause : LexCause)
  | expected (wanted : TokenKind) (found : String)
  | unexpectedIndentation (wanted found : Nat)
  | tokenAfterHeader
  | blockExpected (column : Nat)
  | membersOnly
  | outsideLoop (kind : TokenKind)
  | danglingBranch (kind : TokenKind)
  | danglingClause (kind : TokenKind)
  | unexpectedStart (kind : TokenKind)
  | unexpectedInExpression (kind : TokenKind)
  | duplicateParameter (parameter function : String)
  | defaultMissing (parameter : String)
  | returnOutsideFunction
  | misalignedBrace (found wanted : Nat)
  | unclosedBlock
  | loopFormExpected
  | loopSourceExpected
  | clauseMissing
  | moduleNameExpected
  | awaitOutsideAsync
  | asyncInit (blueprint : String)
  | positionalAfterNamed
  | unterminatedHole
  | tokensAfterHole

namespace SyntaxIssue

def message : SyntaxIssue → String
  | lexical cause => cause.message
  | inInterpolation cause => "In string interpolation: " ++ cause.message
  | expected wanted found => "Expected " ++ wanted.describe ++ " but found " ++ found
  | unexpectedIndentation wanted found =>
    s!"Unexpected indentation: expected column {wanted} but found column {found}"
  | tokenAfterHeader =>
    "Unexpected token on the same line after a block header; expected a new line and an indented block"
  | blockExpected column => s!"Expected an indented block at column {column}"
  | membersOnly => "Only 'let:' and 'funct:' statements are allowed in a blueprint body"
  | outsideLoop kind => kind.describe ++ " outside of a loop"
  | danglingBranch kind => "'" ++ kind.spelling ++ ":' without a preceding 'if:'"
  | danglingClause kind => kind.describe ++ " without a preceding 'try:'"
  | unexpectedStart kind => "Unexpected " ++ kind.describe ++ " at the start of a statement"
  | unexpectedInExpression kind => "Unexpected " ++ kind.describe ++ " in expression"
  | duplicateParameter parameter function =>
    s!"Duplicate parameter '{parameter}' in function '{function}'"
  | defaultMissing parameter =>
    s!"Parameter '{parameter}' without a default follows one with a default"
  | returnOutsideFunction => "'return:' outside of a function"
  | misalignedBrace found wanted =>
    s!"'\x7d' at column {found} is not aligned with its '\x7b' at column {wanted}"
  | unclosedBlock => "Expected '\x7d' to close block"
  | loopFormExpected => "Expected 'while' or 'for' after 'loop:'"
  | loopSourceExpected => "Expected 'from' or 'in' after the loop variable"
  | clauseMissing => "'try:' requires a 'catch' or 'finally' clause"
  | moduleNameExpected => "Expected a module name"
  | awaitOutsideAsync => "'await' can only be used inside an 'async funct' body"
  | asyncInit blueprint => s!"'init' of blueprint '{blueprint}' cannot be async"
  | positionalAfterNamed => "Positional argument follows a named argument"
  | unterminatedHole => "Unterminated '%\x7b' in string interpolation"
  | tokensAfterHole => "Unexpected tokens in string interpolation"

end SyntaxIssue

/-- Limits of the system a run can hit. -/
inductive SystemIssue where
  | callDepth (limit : Nat) (function : String) (line : Nat)
  | repeatTooLong (count : Int) (line : Nat)
  | unreadableFile (path reason : String)
  | unreadableModule (name path reason : String)

namespace SystemIssue

def message : SystemIssue → String
  | callDepth limit function line =>
    s!"Maximum call depth of {limit} exceeded in call to '{function}' at line {line}"
  | repeatTooLong count line => s!"Cannot allocate a string repeated {count} times at line {line}"
  | unreadableFile path reason => s!"Cannot read '{path}': {reason}"
  | unreadableModule name path reason => s!"Cannot read module '{name}' at {path}: {reason}"

end SystemIssue

/-- States the machine is not meant to reach. -/
inductive Defect where
  | foreignPosition (position source : Nat)
  | foreignRewind
  | awaitOutsideTask
  | awaitOutsideLoop
  | nativeCoroutine
  | nativeScript
  | suspendedFunction (name : String)
  | scopeMissing (coroutine : String)
  | bodyMissing
  | suspendedProgram

namespace Defect

def message : Defect → String
  | foreignPosition position source =>
    s!"checkpoint for source #{position} used with source #{source}"
  | foreignRewind => "rewind to a checkpoint of another source"
  | awaitOutsideTask => "await evaluated outside of a scheduled coroutine"
  | awaitOutsideLoop => "await evaluated without a running scheduler"
  | nativeCoroutine => "coroutine from a native function"
  | nativeScript => "script call on a native function"
  | suspendedFunction name => s!"synchronous function '{name}' tried to suspend"
  | scopeMissing coroutine => s!"coroutine '{coroutine}' has no scope to run in"
  | bodyMissing => "script coroutine without a script body"
  | suspendedProgram => "top-level code tried to suspend outside of a coroutine"

end Defect

/-- The ways a run ends that the program cannot catch. -/
inductive Failure where
  | malformed (issue : SyntaxIssue) (line column : Nat)
  | uncaught (message : String) (line column : Nat)
  | deadlock (coroutine : String) (stage : Stage)
  | system (issue : SystemIssue)
  | internal (defect : Defect)
  | workflow (coroutine message : String)

/-- The headings failures are reported under. -/
inductive Category where
  | malformed | runtime | system | internal | async
  deriving DecidableEq

namespace Failure

/-- An unreadable text, reported where the reader stopped. -/
def ofLex (f : LexFault) : Failure := malformed (.lexical f.cause) f.line f.column

def category : Failure → Category
  | malformed .. => .malformed
  | uncaught .. => .runtime
  | deadlock .. => .runtime
  | system .. => .system
  | internal .. => .internal
  | workflow .. => .async

/-- The wording without heading and place. -/
def message : Failure → String
  | malformed issue _ _ => issue.message
  | uncaught message _ _ => message
  | deadlock coroutine stage =>
    "Deadlock: coroutine '" ++ coroutine ++ "' can never complete (state " ++ stage.name ++ ")"
  | system issue => issue.message
  | internal defect => defect.message
  | workflow _ message => message

/-- Line and column, where the report has them; a deadlock has no place and reports zeros. -/
def place? : Failure → Option (Nat × Nat)
  | malformed _ line column => some (line, column)
  | uncaught _ line column => some (line, column)
  | deadlock .. => some (0, 0)
  | _ => none

/-- The whole report line. -/
def display (f : Failure) : String :=
  match f with
  | malformed issue line column =>
    s!"Syntax error at line {line}, column {column}: " ++ issue.message
  | uncaught message line column =>
    s!"Runtime error at line {line}, column {column}: " ++ message
  | deadlock .. => "Runtime error at line 0, column 0: " ++ f.message
  | system issue => "System error: " ++ issue.message
  | internal defect => "Internal error: " ++ defect.message
  | workflow coroutine message =>
    s!"Unhandled exception in async workflow '{coroutine}': " ++ message

end Failure

end Rewind
